import StCoroutine.Lib.Walk

/-!
# Visits — the passes that visit a key

A key that is left alone, under a rule that leaves the value there, is visited once in each pass in
which it is due.

* `visits_eq`: between two places of the loop, the readings under which the key was visited are
  those of the passes begun in which it is due, in order; the pass the loop was in counts when it
  had still to come to the key.
* `visits_initial`: a walk that was lost or stopped got through some of them.
-/

set_option autoImplicit false

namespace Walk
open Lts

variable {γ κ ν : Type*} [LinearOrder κ]

/-- The reading of the pass that starts. -/
def Event.starts : Event γ κ ν → Option γ
  | start g => some g
  | set .. | erase _ | call .. | back | finish | stop => none

/-- The reading under which the visitor is called at `k`. -/
def Event.visits (k : κ) : Event γ κ ν → Option γ
  | call g j _ => if j = k then some g else none
  | set .. | erase _ | start _ | back | finish | stop => none

/-- The reading of the pass the loop is in, when it has still to come to `k`. -/
def Pos.pending (k : κ) : Pos γ κ → List γ
  | head g (some it) => if it.key ≤ k then [g] else []
  | calling g it => if it.key < k then [g] else []
  | head _ none | idle | lost | stopped => []

section pending

variable {m : NodeMap κ ν} {k : κ} {v : ν} (hk : m.find k = some v) (g : γ)
include hk

theorem pending_first : (Pos.head g m.first).pending k = [g] := by
  cases hf : m.first with
  | none => exact absurd (NodeMap.seek_eq_none (k := k) hf trivial) (by simp [hk])
  | some it => exact if_pos ((NodeMap.seek_eq_some hf).2.2 k v trivial hk)

theorem pending_after (j : κ) :
    (Pos.head g (m.after j)).pending k = if j < k then [g] else [] := by
  cases ha : m.after j with
  | none =>
      by_cases hj : j < k
      · exact absurd (NodeMap.seek_eq_none ha hj) (by simp [hk])
      · rw [if_neg hj]
        rfl
  | some it =>
      obtain ⟨-, hlt, hleast⟩ := NodeMap.seek_eq_some ha
      by_cases hj : j < k
      · rw [if_pos hj]
        exact if_pos (hleast k v hj hk)
      · rw [if_neg hj]
        exact if_neg fun hle => hj (hlt.trans_le hle)

end pending

variable {r : Rule γ κ ν} {s s' : State γ κ ν} {k : κ} {v : ν}

/-- What a step does to the entry of `k`, and to the passes that are still to come to it, and those
that have been. -/
theorem Move.visits {m m' : NodeMap κ ν} {p p' : Pos γ κ} {es : List (Event γ κ ν)}
    (h : Move r m p es m' p') (hk : m.find k = some v) (hmark : r.mark v = v)
    (hn : ∀ e ∈ es, ¬ e.Touches k) (hl : p' ≠ .lost) (hs : p' ≠ .stopped) :
    m'.find k = some v ∧
      ((p.pending k ++ es.filterMap Event.starts).filter fun g => r.due g k v) =
        es.filterMap (Event.visits k) ++ (p'.pending k).filter fun g => r.due g k v := by
  cases h with
  | set j w hp =>
      have hj : k ≠ j := fun e => hn _ (List.mem_singleton_self _) (show j = k from e.symm)
      simp [NodeMap.find_set_of_ne hj, hk, List.filterMap_cons, Event.starts, Event.visits]
  | erase j hp =>
      have hj : k ≠ j := fun e => hn _ (List.mem_singleton_self _) (show j = k from e.symm)
      simp [NodeMap.find_erase_of_ne hj, hk, List.filterMap_cons, Event.starts, Event.visits]
  | start g =>
      refine ⟨hk, ?_⟩
      rw [pending_first hk]
      simp [Pos.pending, List.filterMap_cons, Event.starts, Event.visits]
  | finish g => exact ⟨hk, rfl⟩
  | call g it w hit hw hd =>
      rcases lt_trichotomy it.key k with hlt | rfl | hgt
      · simp [NodeMap.find_set_of_ne hlt.ne', hk, Pos.pending, List.filterMap_cons, Event.starts,
          Event.visits, hlt, hlt.le, hlt.ne]
      · -- this is the visit of `k`
        cases hw.symm.trans hk
        simp [hmark, hd, Pos.pending, List.filterMap_cons, Event.starts, Event.visits]
      · simp [NodeMap.find_set_of_ne hgt.ne, hk, Pos.pending, List.filterMap_cons, Event.starts,
          Event.visits, hgt.not_ge, hgt.not_gt, hgt.ne']
  | skip g it w hit hw hd =>
      refine ⟨hk, ?_⟩
      rw [pending_after hk]
      rcases lt_trichotomy it.key k with hlt | rfl | hgt
      · simp [Pos.pending, hlt, hlt.le]
      · -- the entry of `k` is not due
        cases hw.symm.trans hk
        simp [Pos.pending, hd]
      · simp [Pos.pending, hgt.not_ge, hgt.not_gt]
  | back g it hit =>
      refine ⟨hk, ?_⟩
      rw [pending_after hk]
      simp [Pos.pending, List.filterMap_cons, Event.starts, Event.visits]
  | loseHead | loseBack => exact absurd rfl hl
  | stop => exact absurd rfl hs

/-- A step of a walk that is lost or stopped after it neither begins a pass nor visits `k`. -/
theorem Move.visits_of_end {m m' : NodeMap κ ν} {p p' : Pos γ κ} {es : List (Event γ κ ν)}
    (h : Move r m p es m' p') (hp : p' = .lost ∨ p' = .stopped) :
    es.filterMap Event.starts = [] ∧ es.filterMap (Event.visits k) = [] := by
  cases h with
  | set | erase | stop | loseHead | loseBack => exact ⟨rfl, rfl⟩
  | start | finish | call | skip | back => simp at hp

theorem Move.live {m m' : NodeMap κ ν} {p p' : Pos γ κ} {es : List (Event γ κ ν)}
    (h : Move r m p es m' p') (hl : p' ≠ .lost) (hs : p' ≠ .stopped) :
    p ≠ .lost ∧ p ≠ .stopped := by
  cases h with
  | set | erase => exact ⟨hl, hs⟩
  | start | finish | call | skip | back => simp
  | loseHead | loseBack => exact absurd rfl hl
  | stop => exact absurd rfl hs

section runs

variable {ls : List (Label γ κ ν)}

theorem visits_ind {s₀ : State γ κ ν} (hk : s₀.map.find k = some v) (hmark : r.mark v = v)
    (h : exec (step r) s₀ ls = some s)
    (hn : ∀ e ∈ trace (step r) (obs r) s₀ ls, ¬ e.Touches k) :
    ∃ rest, ((s₀.pos.pending k ++ (trace (step r) (obs r) s₀ ls).filterMap Event.starts).filter
        fun g => r.due g k v) =
          (trace (step r) (obs r) s₀ ls).filterMap (Event.visits k) ++ rest ∧
      (s.pos ≠ .lost → s.pos ≠ .stopped → s.map.find k = some v ∧
        rest = (s.pos.pending k).filter fun g => r.due g k v) := by
  refine walk_ind (P := fun tr m p => (∀ e ∈ tr, ¬ e.Touches k) →
    ∃ rest, ((s₀.pos.pending k ++ tr.filterMap Event.starts).filter fun g => r.due g k v) =
        tr.filterMap (Event.visits k) ++ rest ∧
      (p ≠ .lost → p ≠ .stopped → m.find k = some v ∧
        rest = (p.pending k).filter fun g => r.due g k v)) ?_ ?_ h hn
  · intro _
    exact ⟨_, by simp, fun _ _ => ⟨hk, rfl⟩⟩
  · intro tr m p es m' p' ih hm hn
    obtain ⟨rest, hrest, hlive⟩ := ih fun e he => hn e (List.mem_append_left _ he)
    rw [List.filterMap_append, List.filterMap_append, ← List.append_assoc, List.filter_append,
      hrest]
    by_cases hend : p' = .lost ∨ p' = .stopped
    · -- once the walk is lost or stopped, `rest` is what was still due and is never visited
      obtain ⟨hs, hv⟩ := hm.visits_of_end hend (k := k)
      refine ⟨rest, by rw [hs, hv]; simp, fun hl hst => ?_⟩
      exact absurd hend (not_or.mpr ⟨hl, hst⟩)
    · obtain ⟨hl, hst⟩ := not_or.mp hend
      obtain ⟨hl', hst'⟩ := hm.live hl hst
      obtain ⟨hf, rfl⟩ := hlive hl' hst'
      obtain ⟨hf', hv⟩ := hm.visits hf hmark (fun e he => hn e (List.mem_append_right _ he)) hl hst
      rw [List.filter_append] at hv
      exact ⟨_, by rw [List.append_assoc, hv, List.append_assoc], fun _ _ => ⟨hf', rfl⟩⟩

/-- **The visits of a key that is left alone** are the passes in which it is due, in order. -/
theorem visits_eq {s₀ : State γ κ ν} (hk : s₀.map.find k = some v) (hmark : r.mark v = v)
    (h : exec (step r) s₀ ls = some s)
    (hn : ∀ e ∈ trace (step r) (obs r) s₀ ls, ¬ e.Touches k) (hl : s.pos ≠ .lost)
    (hs : s.pos ≠ .stopped) :
    ((s₀.pos.pending k ++ (trace (step r) (obs r) s₀ ls).filterMap Event.starts).filter
        fun g => r.due g k v) =
      (trace (step r) (obs r) s₀ ls).filterMap (Event.visits k) ++
        (s.pos.pending k).filter fun g => r.due g k v := by
  obtain ⟨rest, hrest, hlive⟩ := visits_ind hk hmark h hn
  rw [hrest, (hlive hl hs).2]

/-- The visits of a key that is left alone are the first of the passes in which it is due. -/
theorem visits_initial {s₀ : State γ κ ν} (hk : s₀.map.find k = some v) (hmark : r.mark v = v)
    (h : exec (step r) s₀ ls = some s)
    (hn : ∀ e ∈ trace (step r) (obs r) s₀ ls, ¬ e.Touches k) :
    (trace (step r) (obs r) s₀ ls).filterMap (Event.visits k) <+:
      ((s₀.pos.pending k ++ (trace (step r) (obs r) s₀ ls).filterMap Event.starts).filter
        fun g => r.due g k v) := by
  obtain ⟨rest, hrest, -⟩ := visits_ind hk hmark h hn
  exact ⟨rest, hrest.symm⟩

/-- A walk that has stopped begins no pass. -/
theorem starts_of_stopped {m : NodeMap κ ν} (h : exec (step r) ⟨m, .stopped⟩ ls = some s) :
    (trace (step r) (obs r) ⟨m, .stopped⟩ ls).filterMap Event.starts = [] := by
  refine (walk_ind (P := fun tr _ p => p = .stopped ∧ tr.filterMap Event.starts = [])
    ⟨rfl, rfl⟩ ?_ h).2
  rintro tr m p es m' p' ⟨rfl, htr⟩ hm
  rw [List.filterMap_append, htr]
  cases hm <;> exact ⟨rfl, rfl⟩

/-- A visit, with the state it is made in. -/
theorem exec_at_call {s₀ : State γ κ ν} {pre post : List (Event γ κ ν)} {g : γ}
    (h : exec (step r) s₀ ls = some s)
    (e : trace (step r) (obs r) s₀ ls = pre ++ .call g k v :: post) :
    ∃ ls₁ m, exec (step r) s₀ ls₁ = some m ∧ trace (step r) (obs r) s₀ ls₁ = pre ∧
      m.map.find k = some v ∧ m.pos.reading = some g ∧ r.due g k v = true := by
  obtain ⟨ls₁, l, ls₂, ⟨m, p⟩, ⟨m', p'⟩, rfl, hm, hl, -, htr, ho, -⟩ :=
    exec_at_event (obs_length_le r) h e
  have hmove := move_of_step hl
  rw [ho] at hmove
  refine ⟨ls₁, _, hm, htr, ?_⟩
  dsimp only at hmove ⊢
  generalize m' = n at hmove
  cases hmove with
  | call g it v hit hv hd => exact ⟨hv, rfl, hd⟩

/-- A visit is made under the reading of the pass. -/
theorem call_reading {s₀ : State γ κ ν} {pre mid post : List (Event γ κ ν)} {g g' : γ}
    (h : exec (step r) s₀ ls = some s)
    (e : trace (step r) (obs r) s₀ ls = pre ++ .start g :: (mid ++ .call g' k v :: post))
    (hf : .finish ∉ mid) : g' = g := by
  obtain ⟨-, ls₂, m, -, -, h', htr⟩ := exec_at_start h e
  obtain ⟨ls₃, m', hm, rfl, -, hg, -⟩ := exec_at_call h' htr
  rcases (pass_of_exec hm hf).reading with hr | hr | hr
  · exact Option.some_inj.mp (hg.symm.trans hr)
  · simp [hr, Pos.reading] at hg
  · simp [hr, Pos.reading] at hg

/-- The value the event assigns to `k` from outside. -/
def Event.assigns (k : κ) : Event γ κ ν → Option (Option ν)
  | set j v => if j = k then some (some v) else none
  | erase j => if j = k then some none else none
  | start _ | call .. | back | finish | stop => none

/-- Where a visit leaves the values as they are, the map holds what was last assigned. -/
theorem find_eq_latest_assigns (hmark : ∀ v, r.mark v = v) (h : exec (step r) .new ls = some s)
    (k : κ) : s.map.find k = latest (Event.assigns k) (trace (step r) (obs r) .new ls) := by
  refine walk_ind (P := fun tr m _ => m.find k = latest (Event.assigns k) tr) ?_ ?_ h
  · simp [State.new]
  · intro tr m p es m' p' ih hm
    cases hm with
    | set j v hp =>
        rw [latest_snoc]
        by_cases hj : j = k
        · subst hj
          simp [Event.assigns]
        · simpa [Event.assigns, hj, NodeMap.find_set_of_ne (Ne.symm hj)] using ih
    | erase j hp =>
        rw [latest_snoc]
        by_cases hj : j = k
        · subst hj
          simp [Event.assigns]
        · simpa [Event.assigns, hj, NodeMap.find_erase_of_ne (Ne.symm hj)] using ih
    | call g it v hit hv hd =>
        rw [latest_snoc, hmark, NodeMap.set_find hv]
        exact ih
    | start | finish | back | stop | loseBack =>
        rw [latest_snoc]
        exact ih
    | skip | loseHead =>
        rw [List.append_nil]
        exact ih

end runs

end Walk
