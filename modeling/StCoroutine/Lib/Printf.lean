import StCoroutine.Lib.Bytes
import Mathlib.Data.List.TakeDrop

/-!
# Printf — formatted output into a buffer

`snprintf` writes what fits of a text, and a zero byte behind it, and returns the length of the
whole text.  A buffer that is filled by such calls, each where the text so far ends, holds what
fits of all the texts together (`holds_snprintf`).
-/

set_option autoImplicit false

namespace Printf
open Bytes

/-- A number as a `size_t`. -/
def sizeT (z : Int) : Nat := (z % 2 ^ 64).toNat

/-- `snprintf` of `text` to `a`, with room for `cap` bytes: the memory, and what it returns. -/
def snprintf (m : Mem) (a : Int) (cap : Nat) (text : List Byte) : Mem × Int :=
  (if cap = 0 then m else store m a (text.take (cap - 1) ++ [0]), text.length)

theorem sizeT_eq {z : Int} (h₁ : 0 ≤ z) (h₂ : z < 2 ^ 64) : (sizeT z : Int) = z := by
  rw [sizeT, Int.emod_eq_of_lt h₁ h₂, Int.toNat_of_nonneg h₁]

/-- The buffer of `cap` bytes at `a` holds what fits of `text`. -/
def Holds (m : Mem) (a : Int) (cap : Nat) (text : List Byte) : Prop :=
  load m a (min text.length (cap - 1)) = text.take (cap - 1)

section buffer

variable {m : Mem} {a : Int} {cap : Nat} {text : List Byte}

theorem holds_nil : Holds m a cap [] := by
  simp [Holds]

/-- The front of a block that is stored. -/
theorem load_store_append (bs cs : List Byte) :
    load (store m a (bs ++ cs)) a bs.length = bs := by
  have h : load (store m a (bs ++ cs)) a (bs ++ cs).length = bs ++ cs := load_store
  rw [List.length_append, load_add] at h
  exact (List.append_inj h length_load).1

/-- **Formatting more text** where the text so far ends. -/
theorem holds_snprintf (h : Holds m a cap text) (hcap : text.length < cap) (more : List Byte) :
    Holds (snprintf m (a + text.length) (cap - text.length) more).1 a cap (text ++ more) := by
  have hroom : cap - text.length ≠ 0 := by omega
  have hle : text.length ≤ cap - 1 := by omega
  have hmin : min (text ++ more).length (cap - 1) =
      text.length + (more.take (cap - text.length - 1)).length := by
    rw [List.length_append, List.length_take]
    omega
  rw [Holds, Nat.min_eq_left hle, List.take_of_length_le hle] at h
  -- what is in front of the new text is not touched
  have hfront : ∀ bs, load (store m (a + text.length) bs) a text.length = text := by
    intro bs
    have hsame : load (store m (a + text.length) bs) a text.length = load m a text.length :=
      load_congr fun b _ hb => store_of_outside (.inl hb)
    rw [hsame, h]
  rw [Holds, snprintf, if_neg hroom, hmin, load_add, hfront, load_store_append, List.take_append,
    List.take_of_length_le hle, Nat.sub_right_comm]

/-- The first bytes of what a buffer holds. -/
theorem Holds.load_take (h : Holds m a cap text) {n : Nat} (hn : n ≤ text.length)
    (hcap : n < cap) : load m a n = text.take n := by
  obtain ⟨k, hk⟩ := Nat.exists_eq_add_of_le (show n ≤ min text.length (cap - 1) by omega)
  rw [Holds, hk, load_add] at h
  have hlen : (load m a n).length = n := length_load
  have ht := congrArg (List.take n) h
  rwa [List.take_left' hlen, List.take_take, Nat.min_eq_left (by omega)] at ht

end buffer

end Printf
