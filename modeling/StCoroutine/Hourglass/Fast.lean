import StCoroutine.Kernel.Error
import StCoroutine.Lib.Lts
import Mathlib.Data.List.Nodup

/-!
# Hourglass — the fast timer

`SrsFastTimer` of `srs_app_hourglass.cpp`: `subscribe`, `unsubscribe` and `cycle`.  `handlers_` is
a vector of pointers, which a round goes through by index; it is changed between rounds and, by
any `on_timer`, during a round.  A step is a call of `subscribe` or `unsubscribe`, or what `cycle`
does up to the next moment at which other code can run.

`round_calls_iff`: a round calls every timer that was subscribed at its start and stays, exactly
once, if and only if no timer at or before the index of the round is unsubscribed while a timer
that stays is right behind that index: the vector closes the gap, and the round steps over it.

Indices are natural numbers: the vector does not reach the size at which `int` wraps.
-/

set_option autoImplicit false

namespace StCoroutine.Hourglass
open Kernel Lts

/-! ### A list that is read by index -/

section list

variable {α : Type*} [DecidableEq α] {l : List α} {x y : α} {n : Nat}

/-- An erased element before the index moves the rest one to the front. -/
theorem drop_erase_of_mem (h : x ∈ l.take n) : (l.erase x).drop n = l.drop (n + 1) := by
  have hlen := List.length_erase_of_mem (List.mem_of_mem_take h)
  rcases Nat.le_total l.length n with hn | hn
  · rw [List.drop_of_length_le (by omega), List.drop_of_length_le (by omega)]
  · have hpos : 0 < n := by
      refine Nat.pos_of_ne_zero ?_
      rintro rfl
      simp at h
    have he : l.erase x = (l.take n).erase x ++ l.drop n := by
      conv_lhs => rw [← List.take_append_drop n l]
      exact List.erase_append_left _ h
    have htake : ((l.take n).erase x).length = n - 1 := by
      rw [List.length_erase_of_mem h, List.length_take_of_le hn]
    rw [he, List.drop_append, List.drop_of_length_le (by omega), List.nil_append, htake,
      List.drop_drop]
    congr 1
    omega

/-- An erased element behind the index leaves the others there. -/
theorem mem_drop_erase_of_not_mem (h : x ∉ l.take n) (hy : y ≠ x) :
    y ∈ (l.erase x).drop n ↔ y ∈ l.drop n := by
  rcases Nat.le_total l.length n with hn | hn
  · rw [List.take_of_length_le hn] at h
    rw [List.erase_of_not_mem h]
  · have he : l.erase x = l.take n ++ (l.drop n).erase x := by
      conv_lhs => rw [← List.take_append_drop n l]
      exact List.erase_append_right _ h
    have htake : (l.take n).length = n := List.length_take_of_le hn
    rw [he, List.drop_append, List.drop_of_length_le htake.le, List.nil_append, htake,
      Nat.sub_self, List.drop_zero]
    exact List.mem_erase_of_ne hy

omit [DecidableEq α] in
/-- The index moves on from the element it is at. -/
theorem mem_drop_succ (hl : l.Nodup) :
    y ∈ l.drop (n + 1) ↔ y ∈ l.drop n ∧ l[n]? ≠ some y := by
  rcases Nat.lt_or_ge n l.length with hn | hn
  · have hc := List.drop_eq_getElem_cons hn
    have hnd : (l[n] :: l.drop (n + 1)).Nodup := hc ▸ hl.sublist (List.drop_sublist n l)
    have hnot := (List.nodup_cons.mp hnd).1
    rw [hc, List.mem_cons, List.getElem?_eq_getElem hn, ne_eq, Option.some_inj]
    constructor
    · intro hy
      refine ⟨.inr hy, ?_⟩
      rintro rfl
      exact hnot hy
    · rintro ⟨rfl | hy, hne⟩
      · exact absurd rfl hne
      · exact hy
  · rw [List.drop_of_length_le hn, List.drop_of_length_le (by omega)]
    simp

omit [DecidableEq α] in
theorem mem_drop_of_getElem? (h : l[n]? = some y) : y ∈ l.drop n := by
  obtain ⟨hn, rfl⟩ := List.getElem?_eq_some_iff.mp h
  rw [List.drop_eq_getElem_cons hn]
  exact List.mem_cons_self

end list

/-! ### The timer -/

/-- Where `cycle` is: before `trd_->pull()` or asleep, at the head of the loop, in `on_timer`, or
back with a result. -/
inductive SrsFastTimer.Pc where
  | pull
  | iter (i : Nat)
  | onTimer (i : Nat)
  | returned (err : SrsError)

/-- A fast timer whose handlers are `τ`, with `mem` the address the allocator returns next. -/
structure SrsFastTimer (τ : Type*) where
  interval : Int
  handlers : List τ
  mem : Nat
  pc : SrsFastTimer.Pc

namespace SrsFastTimer

/-- Other code can run. -/
def Pc.yields : Pc → Bool
  | pull | onTimer _ | returned _ => true
  | iter _ => false

/-- A call of `subscribe` or `unsubscribe`, or a step of `cycle`: past `trd_->pull()`, which
returned `pulled`; once round the loop; past `on_timer`, which returned `err`. -/
inductive Label (τ : Type*) where
  | subscribe (timer : τ)
  | unsubscribe (timer : τ)
  | pull (pulled : SrsError)
  | iter
  | back (err : SrsError)

/-- What a timer shows: the calls that change `handlers_`, the start of a round, the calls of
`on_timer`, the end of a round, and the end of `cycle`. -/
inductive Event (τ : Type*) where
  | subscribe (timer : τ)
  | unsubscribe (timer : τ)
  | round
  | onTimer (timer : τ) (interval : Int)
  | usleep (us : Int)
  | quit
  deriving DecidableEq

variable {τ : Type*} [DecidableEq τ]

/-- A new timer whose `cycle` has been called. -/
def new (interval : Int) (mem : Nat) : SrsFastTimer τ := ⟨interval, [], mem, .pull⟩

/-- `SrsFastTimer::subscribe`. -/
def subscribe (t : SrsFastTimer τ) (timer : τ) : SrsFastTimer τ :=
  if timer ∈ t.handlers then t else { t with handlers := t.handlers ++ [timer] }

/-- `SrsFastTimer::unsubscribe`. -/
def unsubscribe (t : SrsFastTimer τ) (timer : τ) : SrsFastTimer τ :=
  { t with handlers := t.handlers.erase timer }

/-- A step of the system. -/
def act (t : SrsFastTimer τ) : Label τ → Option (List (Event τ) × SrsFastTimer τ)
  | .subscribe timer =>
    if t.pc.yields then some ([.subscribe timer], t.subscribe timer) else none
  | .unsubscribe timer =>
    if t.pc.yields then some ([.unsubscribe timer], t.unsubscribe timer) else none
  | .pull pulled =>
    match t.pc with
    | .pull =>
      if pulled ≠ none then
        some ([.quit], { t with pc := .returned (SrsError.wrap t.mem pulled "quit") })
      else some ([.round], { t with pc := .iter 0 })
    | _ => none
  | .iter =>
    match t.pc with
    | .iter i =>
      if h : i < t.handlers.length then
        some ([.onTimer t.handlers[i] t.interval], { t with pc := .onTimer i })
      else some ([.usleep t.interval], { t with pc := .pull })
    | _ => none
  | .back err =>
    match t.pc with
    | .onTimer i =>
      -- an error is freed and ignored
      match err with
      | some _ | none => some ([], { t with pc := .iter (i + 1) })
    | _ => none

def step (t : SrsFastTimer τ) (l : Label τ) : Option (SrsFastTimer τ) := (t.act l).map Prod.snd

def obs (t : SrsFastTimer τ) (l : Label τ) : List (Event τ) := ((t.act l).map Prod.fst).getD []

/-- What a step does to the vector and to the place of the loop, and what it shows. -/
inductive Move (l : List τ) (interval : Int) :
    Pc → Label τ → List (Event τ) → List τ → Pc → Prop where
  | subscribe {p : Pc} (x : τ) (hp : p.yields = true) :
      Move l interval p (.subscribe x) [.subscribe x] (if x ∈ l then l else l ++ [x]) p
  | unsubscribe {p : Pc} (x : τ) (hp : p.yields = true) :
      Move l interval p (.unsubscribe x) [.unsubscribe x] (l.erase x) p
  | quit (err err' : SrsError) : Move l interval .pull (.pull err) [.quit] l (.returned err')
  | round : Move l interval .pull (.pull none) [.round] l (.iter 0)
  | call (i : Nat) (x : τ) (hx : l[i]? = some x) :
      Move l interval (.iter i) .iter [.onTimer x interval] l (.onTimer i)
  | finish (i : Nat) (hi : l.length ≤ i) :
      Move l interval (.iter i) .iter [.usleep interval] l .pull
  | back (i : Nat) (err : SrsError) :
      Move l interval (.onTimer i) (.back err) [] l (.iter (i + 1))

variable {t t' : SrsFastTimer τ} {l : Label τ}

theorem move_of_step (h : step t l = some t') :
    Move t.handlers t.interval t.pc l (obs t l) t'.handlers t'.pc ∧ t'.interval = t.interval := by
  obtain ⟨⟨es, t₁⟩, ha, rfl⟩ := Option.map_eq_some_iff.mp h
  have ho : obs t l = es := by simp [obs, ha]
  rw [ho]
  obtain ⟨interval, handlers, mem, pc⟩ := t
  cases l with
  | subscribe x =>
      obtain ⟨hp, ha⟩ := Option.ite_none_right_eq_some.mp ha
      cases ha
      have hs : (subscribe ⟨interval, handlers, mem, pc⟩ x).handlers =
          if x ∈ handlers then handlers else handlers ++ [x] := by
        unfold subscribe
        split <;> rfl
      have hrest : (subscribe ⟨interval, handlers, mem, pc⟩ x).pc = pc ∧
          (subscribe ⟨interval, handlers, mem, pc⟩ x).interval = interval := by
        unfold subscribe
        split <;> exact ⟨rfl, rfl⟩
      rw [hs, hrest.1, hrest.2]
      exact ⟨.subscribe x hp, rfl⟩
  | unsubscribe x =>
      obtain ⟨hp, ha⟩ := Option.ite_none_right_eq_some.mp ha
      cases ha
      exact ⟨.unsubscribe x hp, rfl⟩
  | pull pulled =>
      cases pc with
      | pull =>
          cases pulled <;> cases ha
          · exact ⟨.round, rfl⟩
          · exact ⟨.quit _ _, rfl⟩
      | _ => cases ha
  | iter =>
      cases pc with
      | iter i =>
          simp only [act] at ha
          split at ha
          · next hi =>
              cases ha
              exact ⟨.call i _ (List.getElem?_eq_getElem hi), rfl⟩
          · next hi =>
              cases ha
              exact ⟨.finish i (Nat.le_of_not_lt hi), rfl⟩
      | _ => cases ha
  | back err =>
      cases pc with
      | onTimer i =>
          cases err <;> cases ha <;> exact ⟨.back i _, rfl⟩
      | _ => cases ha

/-! ### A round -/

/-- `handlers_` holds no timer twice. -/
theorem nodup_of_step (h : step t l = some t') (hn : t.handlers.Nodup) : t'.handlers.Nodup := by
  have hm := (move_of_step h).1
  generalize t'.handlers = hs', t'.pc = p', t.pc = p, obs t l = es at hm
  cases hm with
  | subscribe x hp =>
      split
      · exact hn
      · next hx => exact hn.append (List.nodup_singleton x) (by simpa using hx)
  | unsubscribe x hp => exact hn.erase x
  | quit | round | call | finish | back => exact hn

theorem nodup_of_exec {interval : Int} {mem : Nat} {ls : List (Label τ)}
    (h : exec step (new interval mem) ls = some t) : t.handlers.Nodup :=
  exec_inv (I := fun t => t.handlers.Nodup) List.nodup_nil
    (fun _ _ _ hn hs => nodup_of_step hs hn) h

/-- The labels `ls` lead from the start of a round to its end: from index `0` to an index past the
last handler, with no other round begun between them. -/
structure Round (s : SrsFastTimer τ) (ls : List (Label τ)) (t : SrsFastTimer τ) : Prop where
  start : s.pc = .iter 0
  run : exec step s ls = some t
  one : ∀ err, .pull err ∉ ls
  finish : ∃ i, t.pc = .iter i ∧ t.handlers.length ≤ i

/-- The timer `y` is subscribed when the round starts, and is not unsubscribed in it. -/
def Stays (s : SrsFastTimer τ) (ls : List (Label τ)) (y : τ) : Prop :=
  y ∈ s.handlers ∧ .unsubscribe y ∉ ls

/-- The step moves `y` from right behind the index of the round to that index: a timer at or before
the index is unsubscribed. -/
def Shifts (t : SrsFastTimer τ) (l : Label τ) (y : τ) : Prop :=
  ∃ i x, t.pc = .onTimer i ∧ l = .unsubscribe x ∧ x ∈ t.handlers.take (i + 1) ∧
    t.handlers[i + 1]? = some y

/-- The round still has to come to `y`. -/
def Ahead (l : List τ) (y : τ) : Pc → Prop
  | .iter i => y ∈ l.drop i
  | .onTimer i => y ∈ l.drop (i + 1)
  | .pull | .returned _ => False

omit [DecidableEq τ] in
theorem mem_drop_snoc {hs : List τ} {x y : τ} (hx : x ∉ hs) (hy : y ∈ hs) (n : Nat) :
    y ∈ (hs ++ [x]).drop n ↔ y ∈ hs.drop n := by
  rw [List.drop_append, List.mem_append, or_iff_left]
  intro h
  rw [List.mem_singleton.mp (List.mem_of_mem_drop h)] at hy
  exact hx hy

/-- What becomes of a timer in a round: the round still has to come to it, or it was called once,
or it was shifted. -/
def Fate (ahead shifted : Prop) (calls : Nat) : Prop :=
  (ahead ∧ calls = 0 ∧ ¬ shifted) ∨ (¬ ahead ∧ calls = 1 ∧ ¬ shifted) ∨
    (¬ ahead ∧ calls = 0 ∧ shifted)

theorem Fate.step {ahead ahead' shifted shifted' : Prop} {calls calls' : Nat}
    (h : Fate ahead shifted calls) (now : ahead → Fate ahead' shifted' calls')
    (past : ¬ ahead → ¬ ahead' ∧ calls' = 0 ∧ ¬ shifted') :
    Fate ahead' (shifted ∨ shifted') (calls + calls') := by
  rcases h with ⟨ha, rfl, hs⟩ | ⟨ha, rfl, hs⟩ | ⟨ha, rfl, hs⟩
  · simpa only [Fate, hs, false_or, Nat.zero_add] using now ha
  · obtain ⟨ha', rfl, hs'⟩ := past ha
    exact .inr (.inl ⟨ha', rfl, not_or.mpr ⟨hs, hs'⟩⟩)
  · obtain ⟨ha', rfl, -⟩ := past ha
    exact .inr (.inr ⟨ha', rfl, .inl hs⟩)

/-- **A step in a round** that leaves `y` subscribed decides on `y` if the round has still to come
to it, and does nothing to it otherwise. -/
theorem ahead_of_step {y : τ} (h : step t l = some t') (hn : t.handlers.Nodup)
    (hy : y ∈ t.handlers) (hpull : ∀ err, l ≠ .pull err) (hu : l ≠ .unsubscribe y) :
    y ∈ t'.handlers ∧
      (Ahead t.handlers y t.pc → Fate (Ahead t'.handlers y t'.pc) (Shifts t l y)
        ((obs t l).count (.onTimer y t.interval))) ∧
      (¬ Ahead t.handlers y t.pc → ¬ Ahead t'.handlers y t'.pc ∧
        (obs t l).count (.onTimer y t.interval) = 0 ∧ ¬ Shifts t l y) := by
  have hm := (move_of_step h).1
  clear h
  obtain ⟨interval, hs, mem, p⟩ := t
  unfold Shifts Fate
  dsimp only at *
  generalize t'.handlers = hs', t'.pc = p', obs ⟨interval, hs, mem, p⟩ l = es at hm
  cases hm with
  | subscribe x hp =>
      split
      · simp [hy]
      · next hx =>
          refine ⟨List.mem_append_left _ hy, ?_⟩
          cases p <;> simp [Ahead, mem_drop_snoc hx hy]
  | unsubscribe x hp =>
      have hne : y ≠ x := by
        rintro rfl
        exact hu rfl
      refine ⟨(List.mem_erase_of_ne hne).mpr hy, ?_⟩
      cases p with
      | onTimer i =>
          by_cases hx : x ∈ hs.take (i + 1)
          · -- what was right behind the index comes to it
            have hd := mem_drop_succ hn (y := y) (n := i + 1)
            by_cases hi : hs[i + 1]? = some y
            · simp [Ahead, drop_erase_of_mem hx, hd, hx, hi, mem_drop_of_getElem? hi]
            · simp [Ahead, drop_erase_of_mem hx, hd, hx, hi]
          · simp [Ahead, mem_drop_erase_of_not_mem hx hne, hx]
      | iter i => exact absurd hp Bool.false_ne_true
      | pull | returned => simp [Ahead]
  | quit err err' => exact absurd rfl (hpull err)
  | round => exact absurd rfl (hpull none)
  | call i x hx =>
      refine ⟨hy, ?_⟩
      have hd := mem_drop_succ hn (y := y) (n := i)
      have hin := mem_drop_of_getElem? hx
      -- the call leaves the other timers ahead, and takes `y` out if it is the one
      by_cases hxy : x = y
      · subst hxy
        simp [Ahead, hd, hx, hin]
      · simp [Ahead, hd, hx, hxy]
  | finish i hi => simp [Ahead, List.drop_of_length_le hi, hy]
  | back i err => simp [Ahead, hy]

/-- The fate of a timer that stays, along a round. -/
theorem fate_of_exec {s m : SrsFastTimer τ} {ls : List (Label τ)} {y : τ} (hn : s.handlers.Nodup)
    (hs : s.pc = .iter 0) (hy : y ∈ s.handlers) (h : exec step s ls = some m)
    (hpull : ∀ err, .pull err ∉ ls) (hu : .unsubscribe y ∉ ls) :
    Fate (Ahead m.handlers y m.pc) (¬ AllSteps step (fun m l => ¬ Shifts m l y) s ls)
      ((trace step obs s ls).count (.onTimer y s.interval)) := by
  refine (exec_ind (P := fun ls m => (∀ err, .pull err ∉ ls) → .unsubscribe y ∉ ls →
    m.handlers.Nodup ∧ m.interval = s.interval ∧ y ∈ m.handlers ∧
      Fate (Ahead m.handlers y m.pc) (¬ AllSteps step (fun m l => ¬ Shifts m l y) s ls)
        ((trace step obs s ls).count (.onTimer y s.interval))) ?_ ?_ h hpull hu).2.2.2
  · intro _ _
    refine ⟨hn, rfl, hy, .inl ⟨?_, rfl, not_not.mpr (allSteps_nil s)⟩⟩
    rw [hs]
    exact hy
  · intro ls m l m' hm ih hstep hpull hu
    simp only [List.mem_append, List.mem_singleton, not_or] at hpull hu
    obtain ⟨hn, hint, hy, hf⟩ := ih (fun err => (hpull err).1) hu.1
    obtain ⟨hy', hahead, hpast⟩ := ahead_of_step hstep hn hy (fun err e => (hpull err).2 e.symm)
      fun e => hu.2 e.symm
    rw [hint] at hahead hpast
    refine ⟨nodup_of_step hstep hn, (move_of_step hstep).2.trans hint, hy', ?_⟩
    -- calls add up, and `y` was shifted before or is now
    rw [trace_snoc hm, List.count_append, allSteps_snoc hm, not_and_or, not_not]
    exact hf.step hahead hpast

/-- **A round of the fast timer.**  From every reachable list of handlers, whatever the callbacks
subscribe, unsubscribe and return: every timer that is subscribed when the round starts and not
unsubscribed in it is called exactly once, if and only if no step of the round unsubscribes a timer
at or before the index of the round while one that stays is right behind that index. -/
theorem round_calls_iff {interval : Int} {mem : Nat} {ks ls : List (Label τ)}
    {s t : SrsFastTimer τ} (hs : exec step (new interval mem) ks = some s) (h : Round s ls t) :
    (∀ y, Stays s ls y → (trace step obs s ls).count (.onTimer y s.interval) = 1) ↔
      AllSteps step (fun m l => ∀ y, Stays s ls y → ¬ Shifts m l y) s ls := by
  obtain ⟨i, hi, hlen⟩ := h.finish
  have key : ∀ y, Stays s ls y → ((trace step obs s ls).count (.onTimer y s.interval) = 1 ↔
      AllSteps step (fun m l => ¬ Shifts m l y) s ls) := by
    rintro y ⟨hy, hu⟩
    have hpast : ¬ Ahead t.handlers y t.pc := by
      rw [hi]
      show y ∉ t.handlers.drop i
      rw [List.drop_of_length_le hlen]
      exact List.not_mem_nil
    rcases fate_of_exec (nodup_of_exec hs) h.start hy h.run h.one hu with
      ⟨ha, -, -⟩ | ⟨-, hc, hall⟩ | ⟨-, hc, hall⟩
    · exact absurd ha hpast
    · exact iff_of_true hc (not_not.mp hall)
    · exact iff_of_false (by simp [hc]) hall
  constructor
  · intro H pre l post m e hm y hy
    exact (key y hy).mp (H y hy) pre l post m e hm
  · intro H y hy
    exact (key y hy).mpr fun pre l post m e hm => H pre l post m e hm y hy

/-- The first of three handlers subscribes another one and the second unsubscribes the last. -/
def resubscribing : List (Label Nat) :=
  [.iter, .subscribe 4, .back none, .iter, .unsubscribe 3, .back none, .iter, .back none]

theorem round_calls_iff_resubscribing :
    AllSteps step (fun m l => ∀ y, Stays (⟨5, [1, 2, 3], 0, .iter 0⟩ : SrsFastTimer Nat)
      resubscribing y → ¬ Shifts m l y) ⟨5, [1, 2, 3], 0, .iter 0⟩ resubscribing := by
  have hs : exec step (new 5 0) [.subscribe 1, .subscribe 2, .subscribe 3, .pull none] =
      some (⟨5, [1, 2, 3], 0, .iter 0⟩ : SrsFastTimer Nat) := rfl
  have h : Round (⟨5, [1, 2, 3], 0, .iter 0⟩ : SrsFastTimer Nat) resubscribing
      ⟨5, [1, 2, 4], 0, .iter 3⟩ := ⟨rfl, rfl, by simp [resubscribing], 3, rfl, by simp⟩
  refine (round_calls_iff hs h).mp fun y hy => ?_
  have htr : trace step obs (⟨5, [1, 2, 3], 0, .iter 0⟩ : SrsFastTimer Nat) resubscribing =
      [.onTimer 1 5, .subscribe 4, .onTimer 2 5, .unsubscribe 3, .onTimer 4 5] := rfl
  rw [htr]
  obtain ⟨hy, hu⟩ := hy
  simp only [resubscribing, List.mem_cons, List.not_mem_nil, or_false] at hy hu
  rcases hy with rfl | rfl | rfl
  · rfl
  · rfl
  · simp at hu

/-- The first of two handlers unsubscribes itself. -/
def unsubscribing : List (Label Nat) := [.iter, .unsubscribe 1, .back none]

/-- The handler behind one that unsubscribes itself is not called. -/
theorem unsubscribe_in_on_timer :
    ¬ ∀ (interval : Int) (mem : Nat) (ks ls : List (Label Nat)) (s t : SrsFastTimer Nat),
      exec step (new interval mem) ks = some s → Round s ls t →
        ∀ y, Stays s ls y → (trace step obs s ls).count (.onTimer y s.interval) = 1 := by
  intro H
  have hs : exec step (new 5 0) [.subscribe 1, .subscribe 2, .pull none] =
      some (⟨5, [1, 2], 0, .iter 0⟩ : SrsFastTimer Nat) := rfl
  have h : Round (⟨5, [1, 2], 0, .iter 0⟩ : SrsFastTimer Nat) unsubscribing
      ⟨5, [2], 0, .iter 1⟩ := ⟨rfl, rfl, by simp [unsubscribing], 1, rfl, by simp⟩
  have h2 := H 5 0 _ _ _ _ hs h 2 ⟨by simp, by simp [unsubscribing]⟩
  exact absurd h2 (by decide)

end SrsFastTimer

end StCoroutine.Hourglass
