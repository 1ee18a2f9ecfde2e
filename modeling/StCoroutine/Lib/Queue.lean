import Mathlib.Data.List.Infix

/-!
# Queue — the law of a bounded first-in first-out queue

A history of insertions `enq x` and removals `deq x` is a run of a queue of capacity `cap` when
each insertion finds room and each removal takes the oldest element (`Run cap h q`, where `q` is
what the queue holds after `h`).

`Run.enqs_eq`: what was inserted is what was removed followed by what is held.  Nothing is lost,
repeated or reordered, and the two counts never differ by more than `cap` (`Run.length_le`).
-/

set_option autoImplicit false

namespace Queue

variable {α : Type*}

inductive Ev (α : Type*) where
  | enq (x : α)
  | deq (x : α)
  deriving DecidableEq

/-- The elements a history inserts, in order. -/
def enqs (h : List (Ev α)) : List α :=
  h.filterMap fun
    | .enq x => some x
    | .deq _ => none

/-- The elements a history removes, in order. -/
def deqs (h : List (Ev α)) : List α :=
  h.filterMap fun
    | .enq _ => none
    | .deq x => some x

@[simp] theorem enqs_nil : enqs ([] : List (Ev α)) = [] := rfl
@[simp] theorem deqs_nil : deqs ([] : List (Ev α)) = [] := rfl

@[simp] theorem enqs_append (h h' : List (Ev α)) : enqs (h ++ h') = enqs h ++ enqs h' :=
  List.filterMap_append
@[simp] theorem deqs_append (h h' : List (Ev α)) : deqs (h ++ h') = deqs h ++ deqs h' :=
  List.filterMap_append

@[simp] theorem enqs_enq (x : α) : enqs [.enq x] = [x] := rfl
@[simp] theorem enqs_deq (x : α) : enqs [.deq x] = [] := rfl
@[simp] theorem deqs_enq (x : α) : deqs [.enq x] = [] := rfl
@[simp] theorem deqs_deq (x : α) : deqs [.deq x] = [x] := rfl

/-- The histories of a queue of capacity `cap`, with what it holds after them. -/
inductive Run (cap : Nat) : List (Ev α) → List α → Prop where
  | nil : Run cap [] []
  | enq {h : List (Ev α)} {q : List α} (x : α) :
      Run cap h q → q.length < cap → Run cap (h ++ [.enq x]) (q ++ [x])
  | deq {h : List (Ev α)} {q : List α} {x : α} : Run cap h (x :: q) → Run cap (h ++ [.deq x]) q

namespace Run

variable {cap : Nat} {h : List (Ev α)} {q : List α}

/-- **First in, first out**: what was inserted is what was removed, then what is held. -/
theorem enqs_eq (H : Run cap h q) : enqs h = deqs h ++ q := by
  induction H with
  | nil => rfl
  | enq x _ _ ih => simp [ih]
  | deq _ ih => simp [ih]

theorem length_le (H : Run cap h q) : q.length ≤ cap := by
  induction H with
  | nil => exact Nat.zero_le _
  | enq x _ hroom _ =>
      rw [List.length_append, List.length_singleton]
      exact hroom
  | deq _ ih =>
      rw [List.length_cons] at ih
      omega

/-- What was removed is a prefix of what was inserted. -/
theorem deqs_prefix (H : Run cap h q) : deqs h <+: enqs h :=
  ⟨q, H.enqs_eq.symm⟩

/-- The insertions never run ahead of the removals by more than the capacity. -/
theorem length_sub_le (H : Run cap h q) : (enqs h).length - (deqs h).length ≤ cap := by
  rw [H.enqs_eq, List.length_append, Nat.add_sub_cancel_left]
  exact H.length_le

end Run

end Queue
