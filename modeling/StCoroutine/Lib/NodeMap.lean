import Mathlib.Data.Finmap
import Mathlib.Data.Finset.Max

/-!
# NodeMap — an ordered map whose entries are nodes

A map as node-based containers keep it: assigning to a key that is present writes to the node of
that key, assigning to one that is absent makes a new node, and erasing destroys the node.  A
cursor is a key together with a node, so that a cursor to an erased entry does not become valid
again when its key returns: the key then has another node (`valid_set`).

* `seek p`: a cursor to the least key in `p`; `seek_eq_some` and `seek_eq_none` say what it finds.
* `valid_set`, `valid_erase`: an assignment keeps every cursor, and an erasure ends exactly the
  cursors to the erased key.
-/

set_option autoImplicit false

variable {κ ν : Type*} [LinearOrder κ]

/-- An entry: the node it lives in, and the value. -/
structure Entry (ν : Type*) where
  node : Nat
  val : ν

/-- A map from `κ` to `ν`.  Nodes are numbered in the order they are made, and `next` is the
number of the next one. -/
@[ext] structure NodeMap (κ ν : Type*) [LinearOrder κ] where
  entries : Finmap fun _ : κ => Entry ν
  next : Nat
  fresh : ∀ k e, entries.lookup k = some e → e.node < next

/-- A reference to an entry. -/
structure Cursor (κ : Type*) where
  key : κ
  node : Nat
  deriving DecidableEq

namespace NodeMap

def empty : NodeMap κ ν := ⟨∅, 0, fun k e h => by simp at h⟩

/-- The value at `k`. -/
def find (m : NodeMap κ ν) (k : κ) : Option ν := (m.entries.lookup k).map Entry.val

/-- The node of `k`. -/
def node? (m : NodeMap κ ν) (k : κ) : Option Nat := (m.entries.lookup k).map Entry.node

/-- Assign `v` to `k`. -/
def set (m : NodeMap κ ν) (k : κ) (v : ν) : NodeMap κ ν where
  entries := m.entries.insert k ⟨(m.node? k).getD m.next, v⟩
  next := max m.next ((m.node? k).getD m.next + 1)
  fresh j e h := by
    by_cases hj : j = k
    · subst hj
      rw [Finmap.lookup_insert] at h
      cases h
      exact lt_max_of_lt_right (Nat.lt_succ_self _)
    · rw [Finmap.lookup_insert_of_ne _ hj] at h
      exact lt_max_of_lt_left (m.fresh j e h)

/-- Remove the entry of `k`. -/
def erase (m : NodeMap κ ν) (k : κ) : NodeMap κ ν where
  entries := m.entries.erase k
  next := m.next
  fresh j e h := by
    by_cases hj : j = k
    · rw [hj, Finmap.lookup_erase] at h
      cases h
    · rw [Finmap.lookup_erase_ne hj] at h
      exact m.fresh j e h

variable {m : NodeMap κ ν} {c : Cursor κ} {j k : κ} {v : ν}

/-! ### The values -/

@[simp] theorem find_empty : (empty : NodeMap κ ν).find k = none := by
  simp [empty, find]

@[simp] theorem find_set : (m.set k v).find k = some v := by
  simp [set, find]

theorem find_set_of_ne (h : j ≠ k) : (m.set k v).find j = m.find j := by
  simp only [set, find, Finmap.lookup_insert_of_ne _ h]

@[simp] theorem find_erase : (m.erase k).find k = none := by
  simp [erase, find]

theorem find_erase_of_ne (h : j ≠ k) : (m.erase k).find j = m.find j := by
  simp only [erase, find, Finmap.lookup_erase_ne h]

/-- Writing back the value that is there changes nothing. -/
theorem set_find (h : m.find k = some v) : m.set k v = m := by
  obtain ⟨e, he, rfl⟩ := Option.map_eq_some_iff.mp h
  have hn : (m.node? k).getD m.next = e.node := by simp [node?, he]
  ext1
  · refine Finmap.ext_lookup fun j => ?_
    by_cases hj : j = k
    · subst hj
      rw [set, Finmap.lookup_insert, he, hn]
    · rw [set, Finmap.lookup_insert_of_ne _ hj]
  · show max m.next ((m.node? k).getD m.next + 1) = m.next
    rw [hn]
    exact max_eq_left (m.fresh k e he)

/-! ### Cursors -/

/-- The entry `c` refers to is in the map. -/
def Valid (m : NodeMap κ ν) (c : Cursor κ) : Prop := m.node? c.key = some c.node

instance (m : NodeMap κ ν) (c : Cursor κ) : Decidable (m.Valid c) :=
  inferInstanceAs (Decidable (m.node? c.key = some c.node))

theorem Valid.lt_next (h : m.Valid c) : c.node < m.next := by
  obtain ⟨e, he, hn⟩ := Option.map_eq_some_iff.mp h
  exact hn ▸ m.fresh c.key e he

theorem Valid.exists_find (h : m.Valid c) : ∃ v, m.find c.key = some v := by
  obtain ⟨e, he, -⟩ := Option.map_eq_some_iff.mp h
  exact ⟨e.val, by rw [find, he, Option.map_some]⟩

/-- The value of the entry `c` refers to. -/
def deref (m : NodeMap κ ν) (c : Cursor κ) : Option ν := if m.Valid c then m.find c.key else none

theorem deref_eq_some : m.deref c = some v ↔ m.Valid c ∧ m.find c.key = some v := by
  rw [deref]
  split <;> simp_all

theorem deref_eq_none : m.deref c = none ↔ ¬ m.Valid c := by
  rw [deref]
  split
  · next h =>
      obtain ⟨v, hv⟩ := h.exists_find
      simp [h, hv]
  · next h => simp [h]

theorem next_le_set : m.next ≤ (m.set k v).next := le_max_left _ _

/-- **An assignment neither ends a cursor nor revives one.** -/
theorem valid_set (hc : c.node < m.next) : (m.set k v).Valid c ↔ m.Valid c := by
  by_cases hk : c.key = k
  · subst hk
    have hs : (m.set c.key v).node? c.key = some ((m.node? c.key).getD m.next) := by
      simp [set, node?]
    rw [Valid, Valid, hs]
    cases m.node? c.key with
    | none => simpa using (Nat.ne_of_lt hc).symm
    | some n => rfl
  · rw [Valid, Valid, set, node?, Finmap.lookup_insert_of_ne _ hk, node?]

/-- **An erasure ends exactly the cursors to its key.** -/
theorem valid_erase : (m.erase k).Valid c ↔ c.key ≠ k ∧ m.Valid c := by
  by_cases hk : c.key = k
  · subst hk
    simp [Valid, erase, node?]
  · rw [Valid, erase, node?, Finmap.lookup_erase_ne hk]
    exact (and_iff_right hk).symm

/-! ### Seeking -/

/-- A cursor to the least key in `p`. -/
def seek (m : NodeMap κ ν) (p : κ → Prop) [DecidablePred p] : Option (Cursor κ) :=
  ((m.entries.keys.filter p).min : Option κ).bind fun k => (m.node? k).map fun n => ⟨k, n⟩

section seek

variable {p : κ → Prop} [DecidablePred p]

theorem mem_keys_iff : k ∈ m.entries.keys ↔ ∃ v, m.find k = some v := by
  rw [Finmap.mem_keys, ← Finmap.lookup_isSome, Option.isSome_iff_exists]
  simp [find]

theorem seek_eq_some (h : m.seek p = some c) :
    m.Valid c ∧ p c.key ∧ ∀ k v, p k → m.find k = some v → c.key ≤ k := by
  obtain ⟨k, hk, h⟩ := Option.bind_eq_some_iff.mp h
  obtain ⟨n, hn, rfl⟩ := Option.map_eq_some_iff.mp h
  refine ⟨hn, (Finset.mem_filter.mp (Finset.mem_of_min hk)).2, fun j v hp hj => ?_⟩
  exact Finset.min_le_of_eq (Finset.mem_filter.mpr ⟨mem_keys_iff.mpr ⟨v, hj⟩, hp⟩) hk

theorem seek_eq_none (h : m.seek p = none) (hp : p k) : m.find k = none := by
  cases hk : m.find k with
  | none => rfl
  | some v =>
      have hmem := Finset.mem_filter.mpr ⟨mem_keys_iff.mpr ⟨v, hk⟩, hp⟩
      obtain ⟨l, hl⟩ := Finset.min_of_mem hmem
      obtain ⟨w, hw⟩ := mem_keys_iff.mp (Finset.mem_filter.mp (Finset.mem_of_min hl)).1
      obtain ⟨e, he, -⟩ := Option.map_eq_some_iff.mp hw
      exfalso
      rw [seek, show ((m.entries.keys.filter p).min : Option κ) = some l from hl] at h
      simp [node?, he] at h

end seek

/-- A cursor to the first entry. -/
def first (m : NodeMap κ ν) : Option (Cursor κ) := m.seek fun _ => True

/-- A cursor to the first entry behind `k`. -/
def after (m : NodeMap κ ν) (k : κ) : Option (Cursor κ) := m.seek fun j => k < j

end NodeMap
