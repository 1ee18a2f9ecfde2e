import StCoroutine.Lib.Lts
import StCoroutine.Lib.NodeMap

/-!
# Walk — walking through a map that the visitor changes

A loop that goes through a `NodeMap` in key order, in passes, and calls a visitor at the entries
that are due.  The map may be assigned to and erased from between passes and while the visitor
runs, and never while the loop itself moves.  What is due depends on a reading `g` that the pass
starts with, and the loop may write to an entry before it calls the visitor there: the two are the
`Rule` of the walk.

The loop keeps a cursor while the visitor runs, and steps from it when the visitor is back.  When
the entry is gone by then, the walk is `lost`.

* `find_eq_latest`: what the map holds is what its history last said.
* `call_sound`: an entry is visited with the value last set, in a pass in which it is due.
* `calls_sorted`, `calls_complete`: a pass visits keys in increasing order, and every entry that
  is due and left alone exactly once.
* `lost_iff`: a walk is lost exactly when a visitor came back after the entry it was called for
  had been erased.
* `pass_ends`: a pass of a walk that is not lost comes to its end when the visitors come back and
  leave the map alone.
-/

set_option autoImplicit false

namespace Walk
open Lts

variable {γ κ ν : Type*}

/-- Which entries are due under a reading, and what an entry holds once it is visited. -/
structure Rule (γ κ ν : Type*) where
  due : γ → κ → ν → Bool
  mark : ν → ν

/-- Where the loop is: between passes, at its head with the cursor, in the visitor, past an entry
that was gone, or stopped for good. -/
inductive Pos (γ κ : Type*) where
  | idle
  | head (g : γ) (it : Option (Cursor κ))
  | calling (g : γ) (it : Cursor κ)
  | lost
  | stopped

/-- The map may be changed: the loop is not on the move. -/
def Pos.Editable : Pos γ κ → Prop
  | head .. | lost => False
  | idle | calling .. | stopped => True

instance : (p : Pos γ κ) → Decidable p.Editable
  | .head .. | .lost => .isFalse id
  | .idle | .calling .. | .stopped => .isTrue trivial

/-- The reading of the pass the loop is in. -/
def Pos.reading : Pos γ κ → Option γ
  | head g _ | calling g _ => some g
  | idle | lost | stopped => none

structure State (γ κ ν : Type*) [LinearOrder κ] where
  map : NodeMap κ ν
  pos : Pos γ κ

inductive Label (γ κ ν : Type*) where
  | set (k : κ) (v : ν)
  | erase (k : κ)
  | start (g : γ)
  | visit
  | back
  | stop

/-- What a walk shows: changes of the map, the start and the end of a pass, and the visitor called
at `k`, which holds `v`, and coming back. -/
inductive Event (γ κ ν : Type*) where
  | set (k : κ) (v : ν)
  | erase (k : κ)
  | start (g : γ)
  | call (g : γ) (k : κ) (v : ν)
  | back
  | finish
  | stop

/-- The event changes the map from outside. -/
def Event.IsEdit : Event γ κ ν → Prop
  | set .. | erase _ => True
  | start _ | call .. | back | finish | stop => False

/-- The event changes the entry of `k` from outside. -/
def Event.Touches (k : κ) : Event γ κ ν → Prop
  | set j _ | erase j => j = k
  | start _ | call .. | back | finish | stop => False

/-- The key the visitor is called at. -/
def Event.called : Event γ κ ν → Option κ
  | call _ k _ => some k
  | set .. | erase _ | start _ | back | finish | stop => none

/-- The keys of the visits, behind events that are none. -/
theorem called_append {tr es : List (Event γ κ ν)} (h : ∀ e ∈ es, e.called = none) :
    (tr ++ es).filterMap Event.called = tr.filterMap Event.called := by
  rw [List.filterMap_append, List.filterMap_eq_nil_iff.mpr h, List.append_nil]

/-- The reading the event leaves the walk with. -/
def Event.reads : Event γ κ ν → Option (Option γ)
  | start g => some (some g)
  | finish => some none
  | set .. | erase _ | call .. | back | stop => none

/-! ### A visitor that erases its own entry -/

/-- A visitor came back after the entry it was called for had been erased. -/
def ErasesCurrent (tr : List (Event γ κ ν)) : Prop :=
  ∃ (pre mid post : List (Event γ κ ν)) (g : γ) (k : κ) (v : ν),
    tr = pre ++ .call g k v :: (mid ++ .back :: post) ∧ (∀ e ∈ mid, e.IsEdit) ∧ .erase k ∈ mid

/-- Only a visitor that comes back makes a difference. -/
theorem erasesCurrent_append {tr es : List (Event γ κ ν)} (h : .back ∉ es) :
    ErasesCurrent (tr ++ es) ↔ ErasesCurrent tr := by
  induction es using List.reverseRecOn with
  | nil => rw [List.append_nil]
  | append_singleton es e ih =>
      rw [← List.append_assoc, ← ih fun hb => h (by simp [hb])]
      constructor
      · rintro ⟨pre, mid, post, g, k, v, he, hmid, hk⟩
        rw [← List.cons_append, ← List.append_assoc] at he
        rcases snoc_eq_split he with ⟨-, rfl, -⟩ | ⟨post', -, he⟩
        · exact absurd (by simp) h
        · exact ⟨pre, mid, post', g, k, v, by simpa using he, hmid, hk⟩
      · rintro ⟨pre, mid, post, g, k, v, he, hmid, hk⟩
        exact ⟨pre, mid, post ++ [e], g, k, v, by simp [he], hmid, hk⟩

/-- The visitor called for `k` comes back. -/
theorem erasesCurrent_back {pre mid : List (Event γ κ ν)} {g : γ} {k : κ} {v : ν}
    (hmid : ∀ e ∈ mid, e.IsEdit) :
    ErasesCurrent ((pre ++ .call g k v :: mid) ++ [.back]) ↔
      ErasesCurrent (pre ++ .call g k v :: mid) ∨ .erase k ∈ mid := by
  constructor
  · rintro ⟨pre', mid', post, g', k', v', he, hmid', hk⟩
    rw [← List.cons_append, ← List.append_assoc] at he
    rcases snoc_eq_split he with ⟨he, -, -⟩ | ⟨post', -, he⟩
    · -- the two calls are the last event that is no change of the map
      obtain ⟨-, hc, rfl⟩ := split_unique he id id hmid' hmid
      cases hc
      exact .inr hk
    · exact .inl ⟨pre', mid', post', g', k', v', by simpa using he, hmid', hk⟩
  · rintro (⟨pre', mid', post, g', k', v', he, hmid', hk⟩ | hk)
    · exact ⟨pre', mid', post ++ [.back], g', k', v', by simp [he], hmid', hk⟩
    · exact ⟨pre, mid, [], g, k, v, by simp, hmid, hk⟩

/-! ### The walk -/

section walk

variable [LinearOrder κ]

/-- The value the event leaves at `k`. -/
def Event.sets (r : Rule γ κ ν) (k : κ) : Event γ κ ν → Option (Option ν)
  | set j v => if j = k then some (some v) else none
  | erase j => if j = k then some none else none
  | call _ j v => if j = k then some (some (r.mark v)) else none
  | start _ | back | finish | stop => none

/-- No entry, and no pass under way. -/
def State.new : State γ κ ν := ⟨.empty, .idle⟩

/-- Step from the entry at `it`. -/
def advance (m : NodeMap κ ν) (g : γ) (it : Cursor κ) : Pos γ κ :=
  if m.Valid it then .head g (m.after it.key) else .lost

def act (r : Rule γ κ ν) (s : State γ κ ν) : Label γ κ ν → Option (List (Event γ κ ν) × State γ κ ν)
  | .set k v =>
    if s.pos.Editable then some ([.set k v], { s with map := s.map.set k v }) else none
  | .erase k =>
    if s.pos.Editable then some ([.erase k], { s with map := s.map.erase k }) else none
  | .start g =>
    match s.pos with
    | .idle => some ([.start g], { s with pos := .head g s.map.first })
    | _ => none
  | .visit =>
    match s.pos with
    | .head _ none => some ([.finish], { s with pos := .idle })
    | .head g (some it) =>
      match s.map.deref it with
      | none => some ([], { s with pos := .lost })
      | some v =>
        if r.due g it.key v then
          some ([.call g it.key v], ⟨s.map.set it.key (r.mark v), .calling g it⟩)
        else some ([], { s with pos := advance s.map g it })
    | _ => none
  | .back =>
    match s.pos with
    | .calling g it => some ([.back], { s with pos := advance s.map g it })
    | _ => none
  | .stop =>
    match s.pos with
    | .idle | .calling .. => some ([.stop], { s with pos := .stopped })
    | _ => none

def step (r : Rule γ κ ν) (s : State γ κ ν) (l : Label γ κ ν) : Option (State γ κ ν) :=
  (act r s l).map Prod.snd

def obs (r : Rule γ κ ν) (s : State γ κ ν) (l : Label γ κ ν) : List (Event γ κ ν) :=
  ((act r s l).map Prod.fst).getD []

/-- A run of one step. -/
theorem exec_of_act {r : Rule γ κ ν} {s s' : State γ κ ν} {l : Label γ κ ν}
    {es : List (Event γ κ ν)} (h : act r s l = some (es, s')) :
    exec (step r) s [l] = some s' ∧ trace (step r) (obs r) s [l] = es := by
  rw [exec_singleton, trace_singleton, step, obs, h]
  exact ⟨rfl, rfl⟩

/-- What a step does to the map and to the place of the loop, and what it shows. -/
inductive Move (r : Rule γ κ ν) (m : NodeMap κ ν) :
    Pos γ κ → List (Event γ κ ν) → NodeMap κ ν → Pos γ κ → Prop where
  | set {p : Pos γ κ} (k : κ) (v : ν) (hp : p.Editable) : Move r m p [.set k v] (m.set k v) p
  | erase {p : Pos γ κ} (k : κ) (hp : p.Editable) : Move r m p [.erase k] (m.erase k) p
  | start (g : γ) : Move r m .idle [.start g] m (.head g m.first)
  | finish (g : γ) : Move r m (.head g none) [.finish] m .idle
  | call (g : γ) (it : Cursor κ) (v : ν) (hit : m.Valid it) (hv : m.find it.key = some v)
      (hd : r.due g it.key v = true) :
      Move r m (.head g (some it)) [.call g it.key v] (m.set it.key (r.mark v)) (.calling g it)
  | skip (g : γ) (it : Cursor κ) (v : ν) (hit : m.Valid it) (hv : m.find it.key = some v)
      (hd : ¬ r.due g it.key v = true) :
      Move r m (.head g (some it)) [] m (.head g (m.after it.key))
  | back (g : γ) (it : Cursor κ) (hit : m.Valid it) :
      Move r m (.calling g it) [.back] m (.head g (m.after it.key))
  | loseHead (g : γ) (it : Cursor κ) (hit : ¬ m.Valid it) :
      Move r m (.head g (some it)) [] m .lost
  | loseBack (g : γ) (it : Cursor κ) (hit : ¬ m.Valid it) :
      Move r m (.calling g it) [.back] m .lost
  | stop {p : Pos γ κ} (hp : p.Editable) : Move r m p [.stop] m .stopped

variable {r : Rule γ κ ν} {s s' : State γ κ ν} {l : Label γ κ ν}

theorem move_of_act {es : List (Event γ κ ν)} (ha : act r s l = some (es, s')) :
    Move r s.map s.pos es s'.map s'.pos := by
  obtain ⟨m, p⟩ := s
  cases l with
  | set k v =>
      obtain ⟨hp, ha⟩ := Option.ite_none_right_eq_some.mp ha
      cases ha
      exact .set k v hp
  | erase k =>
      obtain ⟨hp, ha⟩ := Option.ite_none_right_eq_some.mp ha
      cases ha
      exact .erase k hp
  | start g =>
      cases p <;> cases ha
      exact .start g
  | visit =>
      cases p with
      | head g it =>
          cases it with
          | none =>
              cases ha
              exact .finish g
          | some it =>
              simp only [act] at ha
              split at ha
              · next hd =>
                  cases ha
                  exact .loseHead g it (NodeMap.deref_eq_none.mp hd)
              · next v hd =>
                  obtain ⟨hit, hv⟩ := NodeMap.deref_eq_some.mp hd
                  split at ha
                  · next hdue =>
                      cases ha
                      exact .call g it v hit hv hdue
                  · next hdue =>
                      cases ha
                      simp only [advance, if_pos hit]
                      exact .skip g it v hit hv hdue
      | _ => cases ha
  | back =>
      cases p with
      | calling g it =>
          cases ha
          by_cases hit : m.Valid it
          · simp only [advance, if_pos hit]
            exact .back g it hit
          · simp only [advance, if_neg hit]
            exact .loseBack g it hit
      | _ => cases ha
  | stop =>
      cases p <;> cases ha <;> exact .stop trivial

theorem move_of_step (h : step r s l = some s') :
    Move r s.map s.pos (obs r s l) s'.map s'.pos := by
  obtain ⟨⟨es, s₁⟩, ha, rfl⟩ := Option.map_eq_some_iff.mp h
  rw [obs, ha, Option.map_some, Option.getD_some]
  exact move_of_act ha

theorem Move.length_le {m m' : NodeMap κ ν} {p p' : Pos γ κ} {es : List (Event γ κ ν)}
    (h : Move r m p es m' p') : es.length ≤ 1 := by
  cases h <;> simp

/-- The entry at the cursor is in the map, if the step that shows `es` steps from it. -/
def Present (m : NodeMap κ ν) : Pos γ κ → List (Event γ κ ν) → Prop
  | .head _ (some it), _ | .calling _ it, [.back] => m.Valid it
  | _, _ => True

/-- **The walk is lost by the steps from an entry that is gone**, and by no others. -/
theorem Move.lost_iff {m m' : NodeMap κ ν} {p p' : Pos γ κ} {es : List (Event γ κ ν)}
    (h : Move r m p es m' p') : p' = .lost ↔ ¬ Present m p es := by
  cases h with
  | set k v hp | erase k hp =>
      cases p with
      | head | lost => exact hp.elim
      | idle | calling | stopped => exact iff_of_false nofun (not_not.mpr trivial)
  | stop hp =>
      cases p with
      | head | lost => exact hp.elim
      | idle | calling | stopped => exact iff_of_false nofun (not_not.mpr trivial)
  | start | finish => exact iff_of_false nofun (not_not.mpr trivial)
  | call _ _ _ hit | skip _ _ _ hit | back _ _ hit => exact iff_of_false nofun (not_not.mpr hit)
  | loseHead _ _ hit | loseBack _ _ hit => exact iff_of_true rfl hit

/-- A lost walk is at its end. -/
theorem Move.ne_lost {m m' : NodeMap κ ν} {p p' : Pos γ κ} {es : List (Event γ κ ν)}
    (h : Move r m p es m' p') : p ≠ .lost := by
  rintro rfl
  cases h with
  | set _ _ hp | erase _ hp | stop hp => exact hp

theorem obs_length_le (r : Rule γ κ ν) (s : State γ κ ν) (l : Label γ κ ν) :
    (obs r s l).length ≤ 1 := by
  cases h : step r s l with
  | none =>
      have ha : act r s l = none := Option.map_eq_none_iff.mp h
      simp [obs, ha]
  | some s' => exact (move_of_step h).length_le

/-- **Induction along a walk**, with what it showed so far in sight. -/
theorem walk_ind {P : List (Event γ κ ν) → NodeMap κ ν → Pos γ κ → Prop} {s₀ : State γ κ ν}
    (init : P [] s₀.map s₀.pos)
    (keep : ∀ tr m p es m' p', P tr m p → Move r m p es m' p' → P (tr ++ es) m' p')
    {ls : List (Label γ κ ν)} (h : exec (step r) s₀ ls = some s) :
    P (trace (step r) (obs r) s₀ ls) s.map s.pos :=
  trace_ind (P := fun tr s => P tr s.map s.pos) init
    (fun _ _ _ _ hP hs => keep _ _ _ _ _ _ hP (move_of_step hs)) h

/-! ### What the map holds -/

/-- **The map holds what its history last said.** -/
theorem find_eq_latest {ls : List (Label γ κ ν)} (h : exec (step r) .new ls = some s) (k : κ) :
    s.map.find k = latest (Event.sets r k) (trace (step r) (obs r) .new ls) := by
  refine walk_ind (P := fun tr m _ => m.find k = latest (Event.sets r k) tr) ?_ ?_ h
  · simp [State.new]
  · intro tr m p es m' p' ih hm
    cases hm with
    | set j v hp =>
        rw [latest_snoc]
        by_cases hj : j = k
        · subst hj
          simp [Event.sets]
        · simpa [Event.sets, hj, NodeMap.find_set_of_ne (Ne.symm hj)] using ih
    | erase j hp =>
        rw [latest_snoc]
        by_cases hj : j = k
        · subst hj
          simp [Event.sets]
        · simpa [Event.sets, hj, NodeMap.find_erase_of_ne (Ne.symm hj)] using ih
    | call g it v hit hv hd =>
        rw [latest_snoc]
        by_cases hj : it.key = k
        · subst hj
          simp [Event.sets]
        · simpa [Event.sets, hj, NodeMap.find_set_of_ne (Ne.symm hj)] using ih
    | start | finish | back | stop | loseBack =>
        rw [latest_snoc]
        exact ih
    | skip | loseHead =>
        rw [List.append_nil]
        exact ih

/-- The loop is in the pass whose start was shown last. -/
theorem reading_eq_latest {ls : List (Label γ κ ν)} (h : exec (step r) .new ls = some s) {g : γ}
    (hg : s.pos.reading = some g) :
    latest Event.reads (trace (step r) (obs r) .new ls) = some g := by
  refine walk_ind (P := fun tr _ p => ∀ g, p.reading = some g → latest Event.reads tr = some g)
    (fun g hg => by simp [State.new, Pos.reading] at hg) ?_ h g hg
  intro tr m p es m' p' ih hm
  cases hm with
  | start =>
      intro g hg
      rw [latest_snoc]
      exact hg
  | set | erase | call | back =>
      intro g hg
      rw [latest_snoc]
      exact ih g hg
  | skip =>
      rw [List.append_nil]
      exact ih
  | stop | loseHead | loseBack | finish => exact fun g hg => nomatch hg

/-- **Every visit is right.**  An entry is visited with the value that was last set, in the pass
whose reading it is due under. -/
theorem call_sound {ls : List (Label γ κ ν)} {pre post : List (Event γ κ ν)} {g : γ} {k : κ}
    {v : ν} (h : exec (step r) .new ls = some s)
    (e : trace (step r) (obs r) .new ls = pre ++ .call g k v :: post) :
    latest (Event.sets r k) pre = some v ∧ latest Event.reads pre = some g ∧
      r.due g k v = true := by
  obtain ⟨ls₁, l, ls₂, m, m', rfl, hm, hl, -, rfl, ho, -⟩ := exec_at_event (obs_length_le r) h e
  have hmove := move_of_step hl
  rw [ho] at hmove
  generalize hp : m.pos = p at hmove
  generalize m'.map = n, m'.pos = p' at hmove
  cases hmove with
  | call g it v hit hv hd =>
      exact ⟨(find_eq_latest hm it.key).symm.trans hv, reading_eq_latest hm (hp ▸ rfl), hd⟩

/-! ### A pass -/

/-- The loop still has to come to `k`. -/
def Pos.Ahead (k : κ) : Pos γ κ → Prop
  | head _ (some it) => it.key ≤ k
  | calling _ it => it.key < k
  | head _ none | idle | lost | stopped => False

/-- The loop has come to `k` or is past it. -/
def Pos.Reached (k : κ) : Pos γ κ → Prop
  | head _ (some it) => k < it.key
  | calling _ it => k ≤ it.key
  | head _ none | idle | lost | stopped => True

/-- A pass under the reading `g` that began with the map `m₀`, and has shown `tr`.  The entries
that were due and have been left alone are visited or still ahead. -/
structure Pass (r : Rule γ κ ν) (g : γ) (m₀ : NodeMap κ ν) (tr : List (Event γ κ ν))
    (m : NodeMap κ ν) (p : Pos γ κ) : Prop where
  sorted : (tr.filterMap Event.called).Pairwise (· < ·)
  reached : ∀ k ∈ tr.filterMap Event.called, p.Reached k
  reading : p.reading = some g ∨ p = .lost ∨ p = .stopped
  left : p.reading = some g → ∀ k v, m₀.find k = some v → r.due g k v = true →
    (∀ e ∈ tr, ¬ e.Touches k) → .call g k v ∈ tr ∨ p.Ahead k ∧ m.find k = some v

namespace Pass

variable {g : γ} {m₀ m m' : NodeMap κ ν} {tr : List (Event γ κ ν)} {p p' : Pos γ κ}
  {es : List (Event γ κ ν)}

theorem start (g : γ) (m : NodeMap κ ν) : Pass r g m [] m (.head g m.first) where
  sorted := .nil
  reached := by simp
  reading := .inl rfl
  left _ k v hk _ _ := by
    refine .inr ⟨?_, hk⟩
    cases hf : m.first with
    | none => exact absurd (NodeMap.seek_eq_none (k := k) hf trivial) (by simp [hk])
    | some it => exact (NodeMap.seek_eq_some hf).2.2 k v trivial hk

/-- The visitor changes the map. -/
theorem edit {e : Event γ κ ν} (h : Pass r g m₀ tr m p) (he : e.called = none)
    (hm : ∀ k, ¬ e.Touches k → m'.find k = m.find k) : Pass r g m₀ (tr ++ [e]) m' p where
  sorted := by
    rw [called_append (by simpa using he)]
    exact h.sorted
  reached := by
    rw [called_append (by simpa using he)]
    exact h.reached
  reading := h.reading
  left hp k v hk hd hn := by
    rw [hm k (hn e (by simp))]
    refine (h.left hp k v hk hd fun e' he' => hn e' (by simp [he'])).imp_left fun hc => ?_
    exact List.mem_append_left _ hc

/-- The loop moves on, and has been to `k`. -/
theorem pass_by (h : Pass r g m₀ tr m p) (hes : ∀ e ∈ es, e.called = none) {it : Cursor κ}
    (hp : p.reading = some g) (hreach : ∀ k, p.Reached k → k ≤ it.key)
    (hahead : ∀ k v, p.Ahead k → m₀.find k = some v → m.find k = some v → r.due g k v = true →
      it.key < k) :
    Pass r g m₀ (tr ++ es) m (.head g (m.after it.key)) where
  sorted := by
    rw [called_append hes]
    exact h.sorted
  reached := by
    rw [called_append hes]
    intro k hk
    cases ha : m.after it.key with
    | none => trivial
    | some c => exact (hreach k (h.reached k hk)).trans_lt (NodeMap.seek_eq_some ha).2.1
  reading := .inl rfl
  left _ k v hk hd hn := by
    rcases h.left hp k v hk hd fun e he => hn e (by simp [he]) with hc | ⟨hk', hf⟩
    · exact .inl (List.mem_append_left _ hc)
    · have hlt := hahead k v hk' hk hf hd
      refine .inr ⟨?_, hf⟩
      cases ha : m.after it.key with
      | none => exact absurd (NodeMap.seek_eq_none ha hlt) (by simp [hf])
      | some c => exact (NodeMap.seek_eq_some ha).2.2 k v hlt hf

/-- **One step of a pass.** -/
theorem move (h : Pass r g m₀ tr m p) (hm : Move r m p es m' p') :
    .finish ∈ es ∨ Pass r g m₀ (tr ++ es) m' p' := by
  cases hm with
  | set k v hp =>
      refine .inr (h.edit rfl fun j hj => NodeMap.find_set_of_ne ?_)
      exact fun e => hj e.symm
  | erase k hp =>
      refine .inr (h.edit rfl fun j hj => NodeMap.find_erase_of_ne ?_)
      exact fun e => hj e.symm
  | start => simpa [Pos.reading] using h.reading
  | finish => exact .inl (by simp)
  | call g' it v hit hv hd =>
      obtain rfl : g' = g := by simpa [Pos.reading] using h.reading
      refine .inr ⟨?_, ?_, .inl rfl, fun _ k w hk hd' hn => ?_⟩
      · rw [List.filterMap_append, List.pairwise_append]
        refine ⟨h.sorted, by simp [Event.called], fun k hk j hj => ?_⟩
        obtain rfl : j = it.key := by simpa [Event.called] using hj
        exact h.reached k hk
      · intro k hk
        rw [List.filterMap_append] at hk
        rcases List.mem_append.mp hk with hk | hk
        · exact (h.reached k hk).le
        · obtain rfl : k = it.key := by simpa [Event.called] using hk
          exact le_refl _
      · rcases h.left rfl k w hk hd' fun e he => hn e (by simp [he]) with hc | ⟨hle, hf⟩
        · exact .inl (List.mem_append_left _ hc)
        · rcases eq_or_lt_of_le (show it.key ≤ k from hle) with rfl | hlt
          · -- this is the visit of `k`
            cases hv.symm.trans hf
            exact .inl (by simp)
          · exact .inr ⟨hlt, (NodeMap.find_set_of_ne hlt.ne').trans hf⟩
  | skip g' it v hit hv hd =>
      obtain rfl : g' = g := by simpa [Pos.reading] using h.reading
      refine .inr (h.pass_by (by simp) rfl (fun k hk => le_of_lt hk) fun k w hle _ hf hd' => ?_)
      -- the entry at the cursor is not due, so it is not `k`
      refine lt_of_le_of_ne hle fun e => hd ?_
      subst e
      cases hv.symm.trans hf
      exact hd'
  | back g' it hit =>
      obtain rfl : g' = g := by simpa [Pos.reading] using h.reading
      exact .inr (h.pass_by (by simp [Event.called]) rfl (fun k hk => hk) fun k w hlt _ _ _ => hlt)
  | loseHead | loseBack | stop =>
      refine .inr ⟨?_, fun _ _ => trivial, by simp, fun hp => nomatch hp⟩
      rw [called_append (by simp [Event.called])]
      exact h.sorted

end Pass

/-- A run from the start of a pass is in that pass until it shows its end. -/
theorem pass_of_exec {g : γ} {m : NodeMap κ ν} {ls : List (Label γ κ ν)}
    (h : exec (step r) ⟨m, .head g m.first⟩ ls = some s)
    (hf : .finish ∉ trace (step r) (obs r) ⟨m, .head g m.first⟩ ls) :
    Pass r g m (trace (step r) (obs r) ⟨m, .head g m.first⟩ ls) s.map s.pos := by
  refine walk_ind (P := fun tr m' p => .finish ∉ tr → Pass r g m tr m' p)
    (fun _ => .start g m) ?_ h hf
  intro tr m₁ p es m₂ p' ih hm hf
  rw [List.mem_append, not_or] at hf
  exact ((ih hf.1).move hm).resolve_left hf.2

/-- The run behind the start of a pass. -/
theorem exec_at_start {s₀ : State γ κ ν} {ls : List (Label γ κ ν)} {pre post : List (Event γ κ ν)}
    {g : γ} (h : exec (step r) s₀ ls = some s)
    (e : trace (step r) (obs r) s₀ ls = pre ++ .start g :: post) :
    ∃ ls₁ ls₂ m, exec (step r) s₀ ls₁ = some ⟨m, .idle⟩ ∧ trace (step r) (obs r) s₀ ls₁ = pre ∧
      exec (step r) ⟨m, .head g m.first⟩ ls₂ = some s ∧
      trace (step r) (obs r) ⟨m, .head g m.first⟩ ls₂ = post := by
  obtain ⟨ls₁, l, ls₂, ⟨m, p⟩, ⟨m', p'⟩, rfl, hm, hl, h', htr, ho, htr'⟩ :=
    exec_at_event (obs_length_le r) h e
  have hmove := move_of_step hl
  rw [ho] at hmove
  cases hmove
  exact ⟨ls₁, ls₂, _, hm, htr, h', htr'⟩

/-- **The visits of a pass are in increasing order of the keys**, so no key is visited twice. -/
theorem calls_sorted {s₀ : State γ κ ν} {ls : List (Label γ κ ν)} {g : γ}
    {pre mid post : List (Event γ κ ν)} (h : exec (step r) s₀ ls = some s)
    (e : trace (step r) (obs r) s₀ ls = pre ++ .start g :: (mid ++ post)) (hf : .finish ∉ mid) :
    (mid.filterMap Event.called).Pairwise (· < ·) := by
  obtain ⟨-, ls₂, m, -, -, h', htr⟩ := exec_at_start h e
  obtain ⟨ls₃, ls₄, s', rfl, h₁, -, rfl, -⟩ := exec_split (obs_length_le r) h' htr
  exact (pass_of_exec h₁ hf).sorted

/-- **A pass that ends has visited every entry that was due when it began**, with the value it
had then, unless the entry was touched during the pass. -/
theorem calls_complete {ls : List (Label γ κ ν)} {g : γ} {pre mid post : List (Event γ κ ν)}
    {k : κ} {v : ν} (h : exec (step r) .new ls = some s)
    (e : trace (step r) (obs r) .new ls = pre ++ .start g :: (mid ++ .finish :: post))
    (hf : .finish ∉ mid) (hk : latest (Event.sets r k) pre = some v) (hd : r.due g k v = true)
    (hn : ∀ e ∈ mid, ¬ e.Touches k) : .call g k v ∈ mid := by
  obtain ⟨ls₁, ls₂, m, hm, rfl, h', htr⟩ := exec_at_start h e
  obtain ⟨ls₃, l, ls₄, ⟨m₁, p₁⟩, s₂, rfl, h₁, hl, -, rfl, ho, -⟩ :=
    exec_at_event (obs_length_le r) h' htr
  have hpass := pass_of_exec h₁ hf
  have hmove := move_of_step hl
  rw [ho] at hmove
  cases p₁ with
  | head g' it =>
      obtain rfl : g' = g := by simpa [Pos.reading] using hpass.reading
      refine (hpass.left rfl k v ((find_eq_latest hm k).trans hk) hd hn).resolve_right ?_
      generalize s₂.map = n, s₂.pos = p₂ at hmove
      cases hmove
      exact fun h => h.1
  | _ =>
      generalize s₂.map = n, s₂.pos = p₂ at hmove
      exact nomatch hmove

/-! ### Lost walks -/

/-- The cursor of the loop, and what became of its entry. -/
structure Tracked (tr : List (Event γ κ ν)) (m : NodeMap κ ν) (p : Pos γ κ) : Prop where
  head : ∀ g it, p = .head g (some it) → m.Valid it
  calling : ∀ g it, p = .calling g it → it.node < m.next ∧
    ∃ pre v mid, tr = pre ++ .call g it.key v :: mid ∧ (∀ e ∈ mid, e.IsEdit) ∧
      (m.Valid it ↔ .erase it.key ∉ mid)
  lost : p = .lost ↔ ErasesCurrent tr

namespace Tracked

variable {m m' : NodeMap κ ν} {tr : List (Event γ κ ν)} {p p' : Pos γ κ} {es : List (Event γ κ ν)}

/-- The map is changed from outside. -/
theorem edit {e : Event γ κ ν} (h : Tracked tr m p) (hp : p.Editable) (he : e.IsEdit)
    (hnext : m.next ≤ m'.next)
    (hit : ∀ it : Cursor κ, it.node < m.next →
      (m'.Valid it ↔ m.Valid it ∧ .erase it.key ≠ e)) : Tracked (tr ++ [e]) m' p where
  head g it hh := by
    subst hh
    exact hp.elim
  calling g it hc := by
    obtain ⟨hlt, pre, v, mid, rfl, hmid, hv⟩ := h.calling g it hc
    refine ⟨hlt.trans_le hnext, pre, v, mid ++ [e], by simp, ?_, ?_⟩
    · rw [List.forall_mem_append]
      exact ⟨hmid, by simpa using he⟩
    · rw [hit it hlt, hv]
      simp
  lost := by
    rw [h.lost, erasesCurrent_append]
    rw [List.mem_singleton]
    rintro rfl
    exact he

/-- The loop is where it holds no cursor, or a cursor to an entry of the map. -/
theorem of_valid (h : Tracked tr m p) (hp : p ≠ .lost) (hb : .back ∉ es) (hp' : p' ≠ .lost)
    (hc : ∀ g it, p' ≠ .calling g it) (hh : ∀ g it, p' = .head g (some it) → m.Valid it) :
    Tracked (tr ++ es) m p' where
  head := hh
  calling g it e := absurd e (hc g it)
  lost := by
    rw [erasesCurrent_append hb, ← h.lost]
    exact iff_of_false hp' hp

theorem move (h : Tracked tr m p) (hm : Move r m p es m' p') : Tracked (tr ++ es) m' p' := by
  cases hm with
  | set k v hp =>
      refine h.edit hp trivial NodeMap.next_le_set fun it hlt => ?_
      rw [NodeMap.valid_set hlt]
      simp
  | erase k hp =>
      refine h.edit hp trivial (le_refl _) fun it _ => ?_
      rw [NodeMap.valid_erase, and_comm]
      simp
  | start g =>
      refine h.of_valid nofun (by simp) nofun nofun fun g' it e => ?_
      injection e with _ e
      exact (NodeMap.seek_eq_some e).1
  | finish g => exact h.of_valid nofun (by simp) nofun nofun nofun
  | skip g it v hit hv hd =>
      refine h.of_valid nofun (by simp) nofun nofun fun g' c e => ?_
      injection e with _ e
      exact (NodeMap.seek_eq_some e).1
  | stop hp =>
      refine h.of_valid ?_ (by simp) nofun nofun nofun
      rintro rfl
      exact hp
  | call g it v hit hv hd =>
      refine ⟨nofun, ?_, ?_⟩
      · rintro g' c ⟨⟩
        refine ⟨hit.lt_next.trans_le NodeMap.next_le_set, tr, v, [], rfl, nofun, ?_⟩
        rw [NodeMap.valid_set hit.lt_next]
        exact iff_of_true hit List.not_mem_nil
      · rw [erasesCurrent_append (by simp), ← h.lost]
        exact iff_of_false nofun nofun
  | back g it hit =>
      -- the entry is there if and only if it was not erased since the call
      obtain ⟨-, pre, v, mid, rfl, hmid, hv⟩ := h.calling g it rfl
      refine ⟨?_, nofun, ?_⟩
      · intro g' c e
        injection e with _ e
        exact (NodeMap.seek_eq_some e).1
      · rw [erasesCurrent_back hmid, ← h.lost]
        exact iff_of_false nofun (not_or.mpr ⟨nofun, hv.mp hit⟩)
  | loseHead g it hit => exact absurd (h.head g it rfl) hit
  | loseBack g it hit =>
      obtain ⟨-, pre, v, mid, rfl, hmid, hv⟩ := h.calling g it rfl
      refine ⟨nofun, nofun, ?_⟩
      rw [erasesCurrent_back hmid]
      exact iff_of_true rfl (.inr (not_not.mp fun hk => hit (hv.mpr hk)))

end Tracked

theorem tracked_of_exec {m : NodeMap κ ν} {ls : List (Label γ κ ν)}
    (h : exec (step r) ⟨m, .idle⟩ ls = some s) :
    Tracked (trace (step r) (obs r) ⟨m, .idle⟩ ls) s.map s.pos := by
  have init : Tracked ([] : List (Event γ κ ν)) m .idle := by
    refine ⟨nofun, nofun, iff_of_false nofun ?_⟩
    rintro ⟨pre, mid, post, g, k, v, e, -⟩
    simp at e
  exact walk_ind (P := Tracked) init (fun _ _ _ _ _ _ hT hm => hT.move hm) h

/-- **A walk is lost** exactly when a visitor came back after the entry it was called for had been
erased, whatever was in the map at first, and whether or not the key is back. -/
theorem lost_iff {m : NodeMap κ ν} {ls : List (Label γ κ ν)}
    (h : exec (step r) ⟨m, .idle⟩ ls = some s) :
    s.pos = .lost ↔ ErasesCurrent (trace (step r) (obs r) ⟨m, .idle⟩ ls) := by
  exact (tracked_of_exec h).lost

/-! ### Passes that end -/

/-- The loop is in a pass, and the entry at its cursor is in the map. -/
def Holds (m : NodeMap κ ν) : Pos γ κ → Prop
  | .head _ none => True
  | .head _ (some it) | .calling _ it => m.Valid it
  | .idle | .lost | .stopped => False

/-- How many steps are left of the pass while the map is left alone. -/
def left (m : NodeMap κ ν) : Pos γ κ → Nat
  | .head _ none => 1
  | .head _ (some it) => 2 * (m.entries.keys.filter fun k => it.key ≤ k).card + 1
  | .calling _ it => 2 * (m.entries.keys.filter fun k => it.key < k).card + 2
  | .idle | .lost | .stopped => 0

/-- Behind `k` the loop is at an entry, or past the last. -/
theorem holds_after {m : NodeMap κ ν} {g : γ} {k : κ} :
    Holds m (.head g (m.after k)) ∧ left m (.head g (m.after k)) ≤
      2 * (m.entries.keys.filter fun j => k < j).card + 1 := by
  cases hc : m.after k with
  | none => exact ⟨trivial, Nat.le_add_left 1 _⟩
  | some c =>
      obtain ⟨hv, hlt, -⟩ := NodeMap.seek_eq_some hc
      refine ⟨hv, ?_⟩
      have hle : (m.entries.keys.filter fun j => c.key ≤ j).card ≤
          (m.entries.keys.filter fun j => k < j).card :=
        Finset.card_le_card (Finset.monotone_filter_right _ fun j _ hj => lt_of_lt_of_le hlt hj)
      rw [left]
      omega

/-- The entry at the cursor is one of those that are left. -/
theorem card_behind_lt {m : NodeMap κ ν} {it : Cursor κ} (h : m.Valid it) :
    (m.entries.keys.filter fun k => it.key < k).card <
      (m.entries.keys.filter fun k => it.key ≤ k).card := by
  refine Finset.card_lt_card
    ⟨Finset.monotone_filter_right _ fun k _ hk => le_of_lt hk, fun hsub => ?_⟩
  have hkey : it.key ∈ m.entries.keys := NodeMap.mem_keys_iff.mpr h.exists_find
  have hmem := hsub (Finset.mem_filter.mpr ⟨hkey, le_refl it.key⟩)
  exact lt_irrefl _ (Finset.mem_filter.mp hmem).2

/-- A visit writes to no entry that is left. -/
theorem behind_set {m : NodeMap κ ν} {k : κ} {v : ν} :
    ((m.set k v).entries.keys.filter fun j => k < j) = m.entries.keys.filter fun j => k < j := by
  ext j
  simp only [Finset.mem_filter, NodeMap.mem_keys_iff]
  refine and_congr_left fun hlt => ?_
  rw [NodeMap.find_set_of_ne hlt.ne']

/-- **A visit is a step towards the end of the pass.** -/
theorem visit_left {m : NodeMap κ ν} {g : γ} {it : Option (Cursor κ)} (h : Holds m (.head g it)) :
    ∃ s', step r ⟨m, .head g it⟩ .visit = some s' ∧ (s'.pos = .idle ∨ Holds s'.map s'.pos) ∧
      left s'.map s'.pos < left m (.head g it) := by
  cases it with
  | none => exact ⟨_, rfl, .inl rfl, Nat.zero_lt_one⟩
  | some it =>
      have hit : m.Valid it := h
      obtain ⟨v, hv⟩ := hit.exists_find
      have hd : m.deref it = some v := NodeMap.deref_eq_some.mpr ⟨hit, hv⟩
      have hlt := card_behind_lt hit
      by_cases hdue : r.due g it.key v = true
      · refine ⟨⟨m.set it.key (r.mark v), .calling g it⟩, ?_, .inr ?_, ?_⟩
        · simp [step, act, hd, hdue]
        · exact (NodeMap.valid_set hit.lt_next).mpr hit
        · show 2 * ((m.set it.key (r.mark v)).entries.keys.filter fun j => it.key < j).card + 2 <
            2 * (m.entries.keys.filter fun k => it.key ≤ k).card + 1
          rw [behind_set]
          omega
      · obtain ⟨hh, hle⟩ := holds_after (m := m) (g := g) (k := it.key)
        refine ⟨⟨m, .head g (m.after it.key)⟩, ?_, .inr hh, lt_of_le_of_lt hle ?_⟩
        · simp [step, act, hd, hdue, advance, hit]
        · rw [left]
          omega

/-- **So is the visitor that comes back**, when its entry is still there. -/
theorem back_left {m : NodeMap κ ν} {g : γ} {it : Cursor κ} (h : Holds m (.calling g it)) :
    ∃ s', step r ⟨m, .calling g it⟩ .back = some s' ∧ Holds s'.map s'.pos ∧
      left s'.map s'.pos < left m (.calling g it) := by
  have hit : m.Valid it := h
  obtain ⟨hh, hle⟩ := holds_after (m := m) (g := g) (k := it.key)
  refine ⟨⟨m, .head g (m.after it.key)⟩, by simp [step, act, advance, hit], hh, ?_⟩
  exact Nat.lt_succ_of_le hle

/-- **A pass comes to its end** when the visitors come back and leave the map alone, in a system
whose loop is the walk `w`: by the labels `visit`, for a turn of the loop, and `back`. -/
theorem pass_ends {σ α : Type*} (f : σ → α → Option σ) (w : σ → State γ κ ν) (visit back : α)
    (hvisit : ∀ t s' g it, (w t).pos = .head g it → step r (w t) .visit = some s' →
      ∃ t', f t visit = some t' ∧ w t' = s')
    (hback : ∀ t s' g it, (w t).pos = .calling g it → step r (w t) .back = some s' →
      ∃ t', f t back = some t' ∧ w t' = s')
    (t : σ) (h : (w t).pos = .idle ∨ Holds (w t).map (w t).pos) :
    ∃ ks t', (∀ k ∈ ks, k = visit ∨ k = back) ∧ exec f t ks = some t' ∧ (w t').pos = .idle := by
  have hstep : ∀ t, Holds (w t).map (w t).pos → ∃ k t', (k = visit ∨ k = back) ∧
      f t k = some t' ∧ ((w t').pos = .idle ∨ Holds (w t').map (w t').pos) ∧
      left (w t').map (w t').pos < left (w t).map (w t).pos := by
    intro t h
    cases hp : (w t).pos with
    | head g it =>
        have hw : w t = ⟨(w t).map, .head g it⟩ := by rw [← hp]
        rw [hp] at h
        obtain ⟨s', hs, hh, hlt⟩ := visit_left (r := r) h
        rw [← hw] at hs
        obtain ⟨t', hf, rfl⟩ := hvisit t s' g it hp hs
        exact ⟨visit, t', .inl rfl, hf, hh, hlt⟩
    | calling g it =>
        have hw : w t = ⟨(w t).map, .calling g it⟩ := by rw [← hp]
        rw [hp] at h
        obtain ⟨s', hs, hh, hlt⟩ := back_left (r := r) h
        rw [← hw] at hs
        obtain ⟨t', hf, rfl⟩ := hback t s' g it hp hs
        exact ⟨back, t', .inr rfl, hf, .inr hh, hlt⟩
    | _ =>
        rw [hp] at h
        exact h.elim
  -- on how many steps are left
  induction hn : left (w t).map (w t).pos using Nat.strong_induction_on generalizing t with
  | _ n ih =>
      rcases h with hidle | h
      · exact ⟨[], t, nofun, exec_nil t, hidle⟩
      · obtain ⟨k, t₁, hk, hf, h₁, hlt⟩ := hstep t h
        obtain ⟨ks, t', hks, he, hp⟩ := ih _ (hn ▸ hlt) t₁ h₁ rfl
        exact ⟨k :: ks, t', List.forall_mem_cons.mpr ⟨hk, hks⟩, exec_cons.mpr ⟨t₁, hf, he⟩, hp⟩

/-- **At the head of the loop the cursor is held**: an entry that goes while the visitor runs is
missed when the visitor is back. -/
theorem holds_of_exec {m : NodeMap κ ν} {ls : List (Label γ κ ν)} {g : γ}
    {it : Option (Cursor κ)} (h : exec (step r) ⟨m, .idle⟩ ls = some s)
    (hp : s.pos = .head g it) : Holds s.map s.pos := by
  rw [hp]
  cases it with
  | none => trivial
  | some it => exact (tracked_of_exec h).head g it hp

end walk

end Walk
