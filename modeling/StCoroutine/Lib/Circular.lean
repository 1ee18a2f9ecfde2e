import Mathlib.Data.List.Infix
import Mathlib.Data.Nat.ModEq
import Mathlib.Logic.Function.Basic

/-!
# Circular — a queue in the cells of a ring

A queue `q` lies in a ring of `sz` cells between a read index `r` and a write index `w`: its
`i`-th element is in cell `(r + i) % sz`, and the cell at `w` is free.  One cell stays free, so
`r = w` means that the queue is empty and `(w + 1) % sz = r` that it is full.

`Holds f sz r w q` is that relation, for a memory `f` of optional cells.  An insertion is two
steps, `Holds.store` (fill the free cell) and `Holds.publish` (advance the write index); a
removal is `Holds.front` (read the cell at `r`) and `Holds.advance`.  Between the two steps of an
insertion the queue is unchanged, which is what lets another thread read it there.
-/

set_option autoImplicit false

namespace Circular

variable {α : Type*}

/-- Positions less than a turn apart are different cells. -/
theorem add_mod_ne (sz r : Nat) {i j : Nat} (hij : i < j) (hj : j < i + sz) :
    (r + i) % sz ≠ (r + j) % sz := by
  intro h
  have hmod : i ≡ j [MOD sz] := Nat.ModEq.add_left_cancel' r h
  have hdvd : sz ∣ j - i := (Nat.modEq_iff_dvd' hij.le).mp hmod
  exact absurd (Nat.le_of_dvd (by omega) hdvd) (by omega)

/-- The queue `q` lies in the ring of `sz` cells, from `r` up to `w`. -/
structure Holds (f : Nat → Option α) (sz r w : Nat) (q : List α) : Prop where
  room : q.length < sz
  read_lt : r < sz
  write_eq : w = (r + q.length) % sz
  cell : ∀ i (h : i < q.length), f ((r + i) % sz) = some q[i]

namespace Holds

variable {f : Nat → Option α} {sz r w : Nat} {q : List α} {x : α}

theorem nil {f : Nat → Option α} (h : r < sz) : Holds f sz r r [] :=
  ⟨by simp only [List.length_nil]; omega, h, by simp [Nat.mod_eq_of_lt h], by simp⟩

theorem write_lt (h : Holds f sz r w q) : w < sz :=
  h.write_eq ▸ Nat.mod_lt _ (Nat.lt_of_le_of_lt (Nat.zero_le _) h.read_lt)

/-- The two indices meet exactly when the queue is empty. -/
theorem read_eq_write (h : Holds f sz r w q) : r = w ↔ q = [] := by
  constructor
  · intro e
    by_contra hq
    have hpos : 0 < q.length := List.length_pos_iff.mpr hq
    refine add_mod_ne sz r hpos (by have := h.room; omega) ?_
    rw [Nat.add_zero, Nat.mod_eq_of_lt h.read_lt, ← h.write_eq, e]
  · rintro rfl
    have hw := h.write_eq
    rwa [List.length_nil, Nat.add_zero, Nat.mod_eq_of_lt h.read_lt, eq_comm] at hw

/-- The write index is one cell behind the read index exactly when the queue is full. -/
theorem next_write_eq_read (h : Holds f sz r w q) :
    (w + 1) % sz = r ↔ ¬ q.length < sz - 1 := by
  have hroom := h.room
  have hw : (w + 1) % sz = (r + (q.length + 1)) % sz := by
    rw [h.write_eq, Nat.mod_add_mod, Nat.add_assoc]
  rw [hw]
  constructor
  · intro e hlt
    refine add_mod_ne sz r (i := 0) (j := q.length + 1) (by omega) (by omega) ?_
    rw [e, Nat.add_zero, Nat.mod_eq_of_lt h.read_lt]
  · intro hlt
    have e : q.length + 1 = sz := by omega
    rw [e, Nat.add_mod_right, Nat.mod_eq_of_lt h.read_lt]

/-- The distance from the read to the write index is the length of the queue. -/
theorem length_eq (h : Holds f sz r w q) : (w + sz - r) % sz = q.length := by
  have hroom := h.room
  have hr := h.read_lt
  have hw := h.write_eq
  rcases Nat.lt_or_ge (r + q.length) sz with hlt | hge
  · rw [Nat.mod_eq_of_lt hlt] at hw
    have e : w + sz - r = q.length + sz := by omega
    rw [e, Nat.add_mod_right, Nat.mod_eq_of_lt hroom]
  · rw [Nat.mod_eq_sub_mod hge, Nat.mod_eq_of_lt (by omega)] at hw
    have e : w + sz - r = q.length := by omega
    rw [e, Nat.mod_eq_of_lt hroom]

/-- The write index is no cell of the queue. -/
theorem write_ne (h : Holds f sz r w q) {i : Nat} (hi : i < q.length) : (r + i) % sz ≠ w := by
  rw [h.write_eq]
  exact add_mod_ne sz r hi (by have := h.room; omega)

/-- Filling the free cell does not change the queue. -/
theorem store (h : Holds f sz r w q) (y : Option α) :
    Holds (Function.update f w y) sz r w q :=
  ⟨h.room, h.read_lt, h.write_eq, fun i hi => by
    rw [Function.update_of_ne (h.write_ne hi), h.cell i hi]⟩

/-- Advancing the write index appends what the free cell holds. -/
theorem publish (h : Holds f sz r w q) (hx : f w = some x) (hroom : q.length < sz - 1) :
    Holds f sz r ((w + 1) % sz) (q ++ [x]) := by
  refine ⟨?_, h.read_lt, ?_, fun i hi => ?_⟩
  · rw [List.length_append, List.length_singleton]
    omega
  · rw [List.length_append, List.length_singleton, h.write_eq, Nat.mod_add_mod, Nat.add_assoc]
  · rcases Nat.lt_or_ge i q.length with hlt | hge
    · rw [List.getElem_append_left hlt, h.cell i hlt]
    · have e : i = q.length := by
        rw [List.length_append, List.length_singleton] at hi
        omega
      subst e
      rw [← h.write_eq, hx, List.getElem_append_right (Nat.le_refl _)]
      simp

/-- The cell at the read index holds the oldest element. -/
theorem front (h : Holds f sz r w (x :: q)) : f r = some x := by
  have := h.cell 0 (by simp)
  rwa [Nat.add_zero, Nat.mod_eq_of_lt h.read_lt] at this

/-- Advancing the read index removes the oldest element. -/
theorem advance (h : Holds f sz r w (x :: q)) : Holds f sz ((r + 1) % sz) w q := by
  have hroom := h.room
  rw [List.length_cons] at hroom
  refine ⟨by omega, Nat.mod_lt _ (by omega), ?_, fun i hi => ?_⟩
  · rw [h.write_eq, List.length_cons, Nat.mod_add_mod, Nat.add_assoc, Nat.add_comm 1]
  · have hc := h.cell (i + 1) (by rw [List.length_cons]; omega)
    rw [Nat.mod_add_mod, Nat.add_assoc, Nat.add_comm 1, hc]
    rfl

/-- The cell a removal frees may be overwritten. -/
theorem advance_update (h : Holds f sz r w (x :: q)) (y : Option α) :
    Holds (Function.update f r y) sz ((r + 1) % sz) w q := by
  obtain ⟨hroom, hr, hw, hc⟩ := h.advance
  refine ⟨hroom, hr, hw, fun i hi => ?_⟩
  rw [Function.update_of_ne ?_, hc i hi]
  rw [Nat.mod_add_mod, Nat.add_assoc]
  intro e
  have hlen := h.room
  rw [List.length_cons] at hlen
  refine add_mod_ne sz r (i := 0) (j := 1 + i) (by omega) (by omega) ?_
  rw [e, Nat.add_zero, Nat.mod_eq_of_lt h.read_lt]

end Holds

end Circular
