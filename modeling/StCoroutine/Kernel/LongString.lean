import StCoroutine.Kernel.Bounds

/-!
# Kernel — strings of any length

`write_string` checks the length of its string as an `int` and copies all of it.  An `int` holds
the length modulo `2 ^ 32` (`int_natCast_mod`): a string of `2 ^ 32` bytes or more passes for a
short one, and is copied when that much is left (`writeString_safe_iff`).  The statement is about
every buffer that any calls make of a new one, with `set_size` among them and strings of any
length, so that the position may already be behind the end.
-/

set_option autoImplicit false

namespace StCoroutine.Kernel
open Bytes Lts

/-- What an `int` holds of a length. -/
theorem int_natCast_mod (n : Nat) :
    int n = if n % 2 ^ 32 < 2 ^ 31 then ((n % 2 ^ 32 : Nat) : Int)
      else ((n % 2 ^ 32 : Nat) : Int) - 2 ^ 32 := by
  rw [int, Int.bmod_def]
  split <;> split <;> omega

namespace SrsBuffer

/-- What a user does with a buffer. -/
inductive Use where
  | call (c : Call)
  | setSize (v : BitVec 32)

/-- The buffer afterwards; a failed assertion ends the program. -/
def use (s : SrsBuffer) : Use → Option SrsBuffer
  | .call c => step s c
  | .setSize v => some { s with nbBytes := v.toInt }

/-- The bytes that `require` finds left; none when the position is behind the end. -/
def room (s : SrsBuffer) : Int := s.nbBytes - (s.p - s.bytes)

/-- The size is an `int`, and the position is not before the bytes. -/
structure Placed (s : SrsBuffer) : Prop where
  size_lt : s.nbBytes < 2 ^ 31
  lower : s.bytes ≤ s.p

section placed

variable {s : SrsBuffer} {n : Int}

/-- The method, when it goes through, leaves the buffer placed. -/
def Places {α : Type} (x : Op α) (s : SrsBuffer) : Prop :=
  ∀ r s', run x s = (some r, s') → s'.Placed

/-- A method that checks for its bytes and does not move back. -/
theorem Checks.places {α : Type} {x : Op α} {r : SrsBuffer → α} {t : SrsBuffer → SrsBuffer}
    (hx : Checks x n r t) (ht : 0 ≤ n → (t s).nbBytes = s.nbBytes ∧ (t s).bytes = s.bytes ∧
      s.p ≤ (t s).p) (h : s.Placed) : Places x s := by
  intro a s' e
  obtain ⟨hr, -, rfl⟩ := hx.passed.mp e
  obtain ⟨hnb, hb, hp⟩ := ht (require_eq_true.mp hr).1
  exact ⟨hnb ▸ h.size_lt, hb ▸ Int.le_trans h.lower hp⟩

theorem Reads.places {α : Type} {x : Op α} {f : List Byte → α} (hx : Reads x n f)
    (h : s.Placed) : Places x s := by
  have hc : Checks x n (fun s => f (load s.mem s.p n.toNat)) (·.advance n) := hx
  exact hc.places (fun hn => ⟨rfl, rfl, Int.le_add_of_nonneg_right hn⟩) h

theorem Writes.places {x : Op Unit} {bs : List Byte} (hx : Writes x n bs) (h : s.Placed) :
    Places x s := by
  have hc : Checks x n (fun _ => ()) (·.write bs) := hx
  exact hc.places (fun _ => ⟨rfl, rfl, Int.le_add_of_nonneg_right (Int.natCast_nonneg _)⟩) h

theorem skip_places (h : s.Placed) : Places (skip n) s := by
  intro r s' e
  obtain ⟨mem, rfl, h₁, -⟩ := skip_moves r s' e
  exact ⟨h.size_lt, h₁⟩

theorem call_places (h : s.Placed) (c : Call) : Places c.op s := by
  cases c with
  | read f => exact f.read_reads.places h
  | readString len => exact (readString_reads len).places h
  | readBytes size => exact (readBytes_reads size).places h
  | write f value => exact (f.write_writes value).places h
  | writeString value =>
      have hw : Writes (writeString value) (int value.length) value := run_writeString value
      exact hw.places h
  | writeBytes data size => exact (writeBytes_writes data size).places h
  | skip size => exact skip_places h

/-- A buffer stays placed, over every run. -/
theorem placed_of_exec {b : Int} {nn : BitVec 32} {mem : Mem} {us : List Use}
    (h : exec use (new b nn.toInt mem) us = some s) : s.Placed := by
  refine exec_inv ⟨BitVec.toInt_lt, Int.le_refl b⟩ ?_ h
  intro s u s' hs hu
  cases u with
  | call c =>
      simp only [use, step] at hu
      split at hu
      · next e =>
          cases hu
          exact call_places hs c _ _ e
      · cases hu
  | setSize v =>
      cases hu
      exact ⟨BitVec.toInt_lt, hs.lower⟩

/-- A string of less than `2 ^ 32` bytes that passes the check fits. -/
theorem Placed.fits {L : Nat} (h : s.Placed) (hL : L < 2 ^ 32)
    (hr : s.require (int L) = true) : (L : Int) ≤ s.left := by
  obtain ⟨h₁, h₂⟩ := require_eq_true.mp hr
  have hlower := h.lower
  have hsize := h.size_lt
  have hleft : s.left = s.nbBytes - (s.p - s.bytes) := by
    rw [left, int_of_lt (by omega) (by omega)]
  rw [int_natCast_mod, Nat.mod_eq_of_lt hL] at h₁ h₂
  split at h₁ <;> omega

/-- A longer one passes the check when its length modulo `2 ^ 32` is left. -/
theorem Placed.passes_iff {L : Nat} (h : s.Placed) :
    s.require (int L) = true ↔ (L % 2 ^ 32 : Nat) ≤ s.room := by
  have hlower := h.lower
  have hsize := h.size_lt
  rw [require_eq_true, int_natCast_mod, room]
  split <;> omega

/-- No buffer has room for a string of `2 ^ 32` bytes. -/
theorem Placed.left_lt (h : s.Placed) (hroom : 0 ≤ s.room) : s.left < 2 ^ 31 := by
  have hlower := h.lower
  have hsize := h.size_lt
  unfold room at hroom
  rw [left, int_of_lt (by omega) (by omega)]
  omega

end placed

/-- **When a string is written inside the buffer.**  In every buffer that any calls make of a new
one, `write_string` fails its assertion and changes nothing or has the bytes of its string left,
exactly when the string is shorter than `2 ^ 32` bytes or its length modulo `2 ^ 32` is more than
the buffer has room for. -/
theorem writeString_safe_iff {b : Int} {nn : BitVec 32} {mem : Mem} {us : List Use}
    {s : SrsBuffer} (h : exec use (new b nn.toInt mem) us = some s) (value : List Byte) :
    (run (writeString value) s = (none, s) ∨ (value.length : Int) ≤ s.left) ↔
      value.length < 2 ^ 32 ∨ s.room < (value.length % 2 ^ 32 : Nat) := by
  have hp := placed_of_exec h
  have hfail : run (writeString value) s = (none, s) ↔ ¬ s.require (int value.length) = true := by
    rw [run_writeString]
    split
    · next hr => simp [hr]
    · next hr => simp [hr]
  rw [hfail, hp.passes_iff, Int.not_le]
  constructor
  · rintro (hroom | hleft)
    · exact .inr hroom
    · by_cases hroom : 0 ≤ s.room
      · have := hp.left_lt hroom
        exact .inl (by omega)
      · exact .inr (by omega)
  · rintro (hL | hroom)
    · by_cases hr : s.require (int value.length) = true
      · exact .inr (hp.fits hL hr)
      · rw [hp.passes_iff, Int.not_le] at hr
        exact .inl hr
    · exact .inl hroom

/-- Two of four bytes are left: a string of three is refused, one of two has its bytes. -/
theorem writeString_safe_two_left :
    ∃ s, exec use (new 7 (4 : BitVec 32).toInt fun _ => 0) [.call (.write .b2 0x1234)] = some s ∧
      (run (writeString [1, 2, 3]) s = (none, s) ∨ 3 ≤ s.left) ∧
      (run (writeString [1, 2]) s = (none, s) ∨ 2 ≤ s.left) := by
  obtain ⟨s, h⟩ : ∃ s,
      exec use (new 7 (4 : BitVec 32).toInt fun _ => 0) [.call (.write .b2 0x1234)] = some s :=
    ⟨_, rfl⟩
  exact ⟨s, h, (writeString_safe_iff h [1, 2, 3]).mpr (.inl (by decide)),
    (writeString_safe_iff h [1, 2]).mpr (.inl (by decide))⟩

/-- A string of `2 ^ 32` bytes goes into a buffer of four. -/
theorem long_string_passes :
    ∃ value : List Byte, value.length = 2 ^ 32 ∧
      ¬ (run (writeString value) (new 7 4 fun _ => 0) = (none, new 7 4 fun _ => 0) ∨
        (value.length : Int) ≤ (new 7 4 fun _ => 0).left) := by
  obtain ⟨value, hlen⟩ : ∃ value : List Byte, value.length = 2 ^ 32 :=
    ⟨List.replicate (2 ^ 32) 0, List.length_replicate⟩
  have hr : (new 7 4 fun _ => 0).require (int value.length) = true := by
    rw [hlen]
    decide
  refine ⟨value, hlen, ?_⟩
  rintro (hfail | hleft)
  · rw [run_writeString, if_pos hr] at hfail
    cases hfail
  · rw [hlen] at hleft
    exact absurd hleft (by decide)

end SrsBuffer
end StCoroutine.Kernel
