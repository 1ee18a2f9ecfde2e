import StCoroutine.Hourglass.Fast

/-!
# Hourglass — the subscribers of the fast timer

`unsubscribe` takes one entry out of `handlers_`, so a subscriber that is about to die relies on
being there once only.  It is: along every run the vector has no timer twice, and holds just the
timers whose last call was `subscribe` (`mem_handlers_iff`).

`not_called_after_unsubscribe`: the index of a round is in range wherever it is used, and between
the return of `unsubscribe` and a call of `on_timer` there is another `subscribe`.
-/

set_option autoImplicit false

namespace StCoroutine.Hourglass.SrsFastTimer
open Kernel Lts

variable {τ : Type*} [DecidableEq τ]

/-- The calls that put the timer `x` into the vector and take it out. -/
def Event.puts (x : τ) : Event τ → Option (Option Unit)
  | .subscribe y => if y = x then some (some ()) else none
  | .unsubscribe y => if y = x then some none else none
  | .round | .onTimer _ _ | .usleep _ | .quit => none

theorem Event.puts_eq {x : τ} {e : Event τ} (h : e.puts x = some (some ())) : e = .subscribe x := by
  cases e with
  | subscribe y =>
      obtain ⟨rfl, -⟩ := Option.ite_none_right_eq_some.mp h
      rfl
  | unsubscribe y =>
      obtain ⟨-, h⟩ := Option.ite_none_right_eq_some.mp h
      cases h
  | _ => cases h

variable {t t' : SrsFastTimer τ} {l : Label τ} {interval : Int} {mem : Nat} {ls : List (Label τ)}

theorem length_obs_le (t : SrsFastTimer τ) (l : Label τ) : (obs t l).length ≤ 1 := by
  cases hs : step t l with
  | none => simp [obs, Option.map_eq_none_iff.mp hs]
  | some t' =>
      have hm := (move_of_step hs).1
      generalize t.pc = p, t'.handlers = hs', t'.pc = p', obs t l = es at hm
      cases hm <;> simp

/-- One step: what it shows says what becomes of `x` in the vector. -/
theorem mem_of_step (h : step t l = some t') (hn : t.handlers.Nodup) {tr : List (Event τ)} {x : τ}
    (ih : x ∈ t.handlers ↔ latest (Event.puts x) tr = some ()) :
    x ∈ t'.handlers ↔ latest (Event.puts x) (tr ++ obs t l) = some () := by
  have hm := (move_of_step h).1
  generalize t.pc = p, t'.handlers = hs', t'.pc = p', obs t l = es at hm
  cases hm with
  | subscribe y =>
      rw [latest_snoc, Event.puts]
      by_cases hy : y = x
      · subst hy
        rw [if_pos rfl, Option.getD_some, eq_self, iff_true]
        split
        · assumption
        · simp
      · rw [if_neg hy, Option.getD_none, ← ih]
        split
        · rfl
        · simp [Ne.symm hy]
  | unsubscribe y =>
      rw [latest_snoc, Event.puts]
      by_cases hy : y = x
      · subst hy
        -- the one entry of `x` is the one that is erased
        simpa using hn.not_mem_erase
      · rw [if_neg hy, Option.getD_none, ← ih]
        exact List.mem_erase_of_ne (Ne.symm hy)
  | back =>
      rw [List.append_nil]
      exact ih
  | quit | round | call | finish =>
      rw [latest_snoc, Event.puts, Option.getD_none]
      exact ih

/-- **The vector holds the timers** whose last call was `subscribe`. -/
theorem mem_handlers_iff (h : exec step (new interval mem) ls = some t) (x : τ) :
    x ∈ t.handlers ↔ latest (Event.puts x) (trace step obs (new interval mem) ls) = some () := by
  have hinv : t.handlers.Nodup ∧ (x ∈ t.handlers ↔
      latest (Event.puts x) (trace step obs (new interval mem) ls) = some ()) := by
    refine trace_ind (P := fun tr t => t.handlers.Nodup ∧
      (x ∈ t.handlers ↔ latest (Event.puts x) tr = some ())) ?_ ?_ h
    · exact ⟨List.nodup_nil, by simp [new]⟩
    · rintro tr t l t' ⟨hn, ih⟩ hs
      exact ⟨nodup_of_step hs hn, mem_of_step hs hn ih⟩
  exact hinv.2

/-- **A timer is not called after its `unsubscribe`**, in every run of the timer: `handlers_` holds
no timer twice; the index of a round is in range where it is used; and after `unsubscribe` has
returned no `on_timer` of that timer is called, in that round or later, before another
`subscribe`. -/
theorem not_called_after_unsubscribe (h : exec step (new interval mem) ls = some t) :
    t.handlers.Nodup ∧
      (∀ x k, .onTimer x k ∈ obs t .iter →
        ∃ i, t.pc = .iter i ∧ i < t.handlers.length ∧ t.handlers[i]? = some x) ∧
      (∀ pre mid post x k, trace step obs (new interval mem) ls =
        pre ++ .unsubscribe x :: (mid ++ .onTimer x k :: post) → .subscribe x ∈ mid) := by
  refine ⟨nodup_of_exec h, ?_, ?_⟩
  · intro x k hx
    cases hs : step t .iter with
    | none => simp [obs, Option.map_eq_none_iff.mp hs] at hx
    | some t' =>
        have hm := (move_of_step hs).1
        generalize t.pc = p, t'.handlers = hs', t'.pc = p', obs t .iter = es at hm hx
        cases hm with
        | call i y hy =>
            cases List.mem_singleton.mp hx
            exact ⟨i, rfl, (List.getElem?_eq_some_iff.mp hy).1, hy⟩
        | finish i hi => simp at hx
  · intro pre mid post x k htr
    rw [← List.cons_append, ← List.append_assoc] at htr
    obtain ⟨ls₁, j, ls₂, m, m', -, hm, hj, -, htr₁, ho, -⟩ := exec_at_event length_obs_le h htr
    -- the called timer is in the vector, so its last call before was `subscribe`
    have hx : x ∈ m.handlers := by
      have hmove := (move_of_step hj).1
      rw [ho] at hmove
      generalize m.pc = p, m'.handlers = hs', m'.pc = p' at hmove
      cases hmove with
      | call i y hy => exact List.mem_of_getElem? hy
    rw [mem_handlers_iff hm, htr₁] at hx
    have hclear : Event.puts x (.unsubscribe x) = some none := if_pos rfl
    obtain ⟨e, he, hput⟩ := exists_of_latest_after_clear hclear hx
    rwa [← Event.puts_eq hput]

/-- The first of two handlers unsubscribes the other and subscribes it again. -/
def resubscribed : List (Label Nat) :=
  [.subscribe 1, .subscribe 2, .pull none, .iter, .unsubscribe 2, .subscribe 2, .back none, .iter]

theorem not_called_after_unsubscribe_again : ∃ t pre mid,
    exec step (new 5 0) resubscribed = some t ∧ t.handlers.Nodup ∧
      trace step obs (new 5 0) resubscribed = pre ++ .unsubscribe 2 :: (mid ++ [.onTimer 2 5]) ∧
      .subscribe 2 ∈ mid := by
  have h : exec step (new 5 0) resubscribed = some (⟨5, [1, 2], 0, .onTimer 1⟩) := rfl
  have htr : trace step obs (new 5 0) resubscribed =
      [.subscribe 1, .subscribe 2, .round, .onTimer 1 5] ++
        .unsubscribe 2 :: ([.subscribe 2] ++ [.onTimer 2 5]) := rfl
  obtain ⟨hn, -, hcall⟩ := not_called_after_unsubscribe h
  exact ⟨_, _, _, h, hn, htr, hcall _ _ _ 2 5 htr⟩

end StCoroutine.Hourglass.SrsFastTimer
