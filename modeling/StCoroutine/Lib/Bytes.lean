import Mathlib.Algebra.Group.Int.Defs
import Mathlib.Algebra.Group.Nat.Defs
import Mathlib.Data.List.Nodup
import Mathlib.Logic.Function.Basic

/-!
# Bytes — words as bytes, and bytes in memory

* `byte`, `ofBytes`: the bytes of a word, the least significant first, and the word of some bytes;
  each undoes the other.
* `load`, `store`: a block of memory.  What is stored is loaded, what was loaded may be stored, and
  a store changes nothing outside its block.
* `assign`: a table filled from a block in a given order of its places.  Filling it and reading it
  in one order undo each other.
-/

set_option autoImplicit false

namespace Bytes

abbrev Byte := BitVec 8

/-! ### Words -/

/-- The byte `i` of a word, where `0` is the least significant. -/
def byte {w : Nat} (v : BitVec w) (i : Nat) : Byte := v.extractLsb' (8 * i) 8

/-- The word with the bytes `f 0`, …, `f (n - 1)`, the least significant first. -/
def ofBytes : (n : Nat) → (Nat → Byte) → BitVec (8 * n)
  | 0, _ => 0#0
  | n + 1, f => (f n ++ ofBytes n f).cast (by omega)

theorem getLsbD_ofBytes (n : Nat) (f : Nat → Byte) (j : Nat) :
    (ofBytes n f).getLsbD j = (decide (j < 8 * n) && (f (j / 8)).getLsbD (j % 8)) := by
  induction n with
  | zero => simp [ofBytes]
  | succ n ih =>
      rw [ofBytes, BitVec.getLsbD_cast, BitVec.getLsbD_append, ih]
      by_cases hj : j < 8 * n
      · simp [hj, show j < 8 * (n + 1) by omega]
      · by_cases hj' : j < 8 * (n + 1)
        · have hq : j / 8 = n := by omega
          have hr : j - 8 * n = j % 8 := by omega
          simp [hj, hj', hq, hr]
        · simp [hj, hj', show 8 ≤ j - 8 * n by omega]

theorem byte_ofBytes {n i : Nat} (f : Nat → Byte) (h : i < n) : byte (ofBytes n f) i = f i := by
  ext j hj
  have hq : (8 * i + j) / 8 = i := by omega
  have hr : (8 * i + j) % 8 = j := by omega
  rw [byte, BitVec.getElem_extractLsb', getLsbD_ofBytes, hq, hr, decide_eq_true (by omega),
    Bool.true_and, BitVec.getLsbD_eq_getElem hj]

theorem ofBytes_byte {n : Nat} (v : BitVec (8 * n)) : ofBytes n (byte v) = v := by
  ext j hj
  have hj8 : j % 8 < 8 := Nat.mod_lt _ (by decide)
  rw [← BitVec.getLsbD_eq_getElem, getLsbD_ofBytes, decide_eq_true hj, Bool.true_and, byte,
    BitVec.getLsbD_eq_getElem hj8, BitVec.getElem_extractLsb', Nat.div_add_mod,
    BitVec.getLsbD_eq_getElem hj]

theorem ofBytes_congr {n : Nat} {f g : Nat → Byte} (h : ∀ i < n, f i = g i) :
    ofBytes n f = ofBytes n g := by
  induction n with
  | zero => rfl
  | succ n ih =>
      rw [ofBytes, ofBytes, h n (Nat.lt_succ_self n), ih fun i hi => h i (Nat.lt_succ_of_lt hi)]

/-- A word below `2 ^ (8 * k)` has no bytes from `k` on. -/
theorem byte_eq_zero {w k i : Nat} {v : BitVec w} (hv : v.toNat < 2 ^ (8 * k)) (hi : k ≤ i) :
    byte v i = 0#8 := by
  refine BitVec.eq_of_toNat_eq ?_
  have hle : 2 ^ (8 * k) ≤ 2 ^ (8 * i) := Nat.pow_le_pow_right (by decide) (by omega)
  rw [byte, BitVec.extractLsb'_toNat, Nat.shiftRight_eq_div_pow, Nat.div_eq_of_lt (by omega)]
  rfl

/-! ### Memory -/

abbrev Mem := Int → Byte

/-- The `n` bytes from `a` on. -/
def load (m : Mem) (a : Int) (n : Nat) : List Byte := (List.range n).map fun i : Nat => m (a + i)

/-- The memory with `bs` from `a` on. -/
def store (m : Mem) (a : Int) : List Byte → Mem
  | [] => m
  | b :: bs => store (Function.update m a b) (a + 1) bs

section memory

variable {m m' : Mem} {a b : Int} {n : Nat} {bs cs : List Byte}

@[simp] theorem length_load : (load m a n).length = n := by
  simp [load]

@[simp] theorem load_zero : load m a 0 = [] := rfl

theorem load_succ : load m a (n + 1) = m a :: load m (a + 1) n := by
  simp only [load, List.range_succ_eq_map, List.map_cons, List.map_map]
  congr 1
  · simp
  · refine List.map_congr_left fun i _ => congrArg m ?_
    push_cast
    omega

theorem load_add (k n : Nat) : load m a (k + n) = load m a k ++ load m (a + k) n := by
  induction k generalizing a with
  | zero => simp
  | succ k ih =>
      rw [Nat.succ_add, load_succ, load_succ, ih, List.cons_append]
      congr 3
      push_cast
      omega

/-- A block depends on its own bytes only. -/
theorem load_congr (h : ∀ b, a ≤ b → b < a + n → m b = m' b) : load m a n = load m' a n := by
  refine List.map_congr_left fun i hi => h _ (by omega) ?_
  have := List.mem_range.mp hi
  omega

@[simp] theorem store_nil : store m a [] = m := rfl

theorem store_append : store m a (bs ++ cs) = store (store m a bs) (a + bs.length) cs := by
  induction bs generalizing m a with
  | nil => simp
  | cons c bs ih =>
      rw [List.cons_append, store, store, ih, List.length_cons]
      congr 1
      push_cast
      omega

/-- A store changes nothing outside its block. -/
theorem store_of_outside (h : b < a ∨ a + bs.length ≤ b) : store m a bs b = m b := by
  induction bs generalizing m a with
  | nil => rfl
  | cons c bs ih =>
      rw [List.length_cons] at h
      push_cast at h
      rw [store, ih (by omega), Function.update_of_ne (by omega)]

/-- A block that is stored does not depend on what was there. -/
theorem store_congr (h₁ : a ≤ b) (h₂ : b < a + bs.length) : store m a bs b = store m' a bs b := by
  induction bs generalizing m m' a with
  | nil =>
      simp at h₂
      omega
  | cons c bs ih =>
      rw [List.length_cons] at h₂
      push_cast at h₂
      rw [store, store]
      rcases Int.lt_or_eq_of_le h₁ with hlt | rfl
      · exact ih (by omega) (by omega)
      · rw [store_of_outside (by omega), store_of_outside (by omega), Function.update_self,
          Function.update_self]

/-- **What is stored is loaded.** -/
theorem load_store : load (store m a bs) a bs.length = bs := by
  induction bs generalizing m a with
  | nil => rfl
  | cons c bs ih =>
      rw [List.length_cons, load_succ, store, ih, store_of_outside (by omega),
        Function.update_self]

/-- **What was loaded may be stored.** -/
theorem store_load : store m a (load m a n) = m := by
  induction n generalizing a with
  | zero => rfl
  | succ n ih => rw [load_succ, store, Function.update_eq_self, ih]

end memory

/-! ### Tables -/

/-- The table `pp` with the bytes of a block at the places `ks`, one after the other. -/
def assign : List Nat → (Nat → Byte) → List Byte → Nat → Byte
  | k :: ks, pp, b :: bs => assign ks (Function.update pp k b) bs
  | _, pp, _ => pp

section tables

variable {ks : List Nat} {pp : Nat → Byte} {bs : List Byte} {i : Nat}

theorem assign_of_not_mem (h : i ∉ ks) : assign ks pp bs i = pp i := by
  induction ks generalizing pp bs with
  | nil => rfl
  | cons k ks ih =>
      rw [List.mem_cons, not_or] at h
      obtain ⟨hk, hks⟩ := h
      cases bs with
      | nil => rfl
      | cons b bs => rw [assign, ih hks, Function.update_of_ne hk]

/-- **A table that is read in an order is filled in that order.** -/
theorem assign_map (g : Nat → Byte) (h : i ∈ ks) : assign ks pp (ks.map g) i = g i := by
  induction ks generalizing pp with
  | nil => cases h
  | cons k ks ih =>
      rw [List.map_cons, assign]
      by_cases hi : i ∈ ks
      · exact ih hi
      · obtain rfl := (List.mem_cons.mp h).resolve_right hi
        rw [assign_of_not_mem hi, Function.update_self]

/-- **A table that is filled in an order is read in that order.** -/
theorem map_assign (hn : ks.Nodup) (hl : bs.length = ks.length) :
    ks.map (assign ks pp bs) = bs := by
  induction ks generalizing pp bs with
  | nil => exact (List.length_eq_zero_iff.mp hl).symm
  | cons k ks ih =>
      obtain ⟨hk, hks⟩ := List.nodup_cons.mp hn
      cases bs with
      | nil => cases hl
      | cons b bs =>
          rw [List.map_cons, assign, ih hks (Nat.succ.inj hl), assign_of_not_mem hk,
            Function.update_self]

end tables

end Bytes
