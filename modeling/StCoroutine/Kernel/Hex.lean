import StCoroutine.Kernel.Buffer

/-!
# Kernel — bytes in hexadecimal

`srs_data_to_hex`, `srs_data_to_hex_lowercase` and `srs_hex_to_data` of `srs_kernel_utility.cpp`.
A pointer is `NULL` or a block of its own, and a loop has the number of its rounds that are left.

The writers have a table of the digits, and the reader has ranges of characters: `Table` is what
the two need to know of each other.

* `hex_to_data_spec`: what is read, and when it is read to the end.
* `hex_roundtrip`: reading undoes writing, and writing undoes reading but for the case.
-/

set_option autoImplicit false

namespace StCoroutine.Kernel

open Bytes

def srsFromHexChar (c : Byte) : Byte :=
  if 0x30#8 ≤ c ∧ c ≤ 0x39#8 then c - 0x30#8
  else if 0x61#8 ≤ c ∧ c ≤ 0x66#8 then c - 0x61#8 + 10#8
  else if 0x41#8 ≤ c ∧ c ≤ 0x46#8 then c - 0x41#8 + 10#8
  else -1#8

/-- The loop of the writers. -/
def toHexLoop (hexTable : List Byte) (src : Mem) : Nat → Int → Mem → Mem
  | 0, _, des => des
  | n + 1, i, des =>
    let des := Function.update des (int (i * 2)) (hexTable.getD (src i >>> 4).toNat 0#8)
    let des := Function.update des (int (i * 2 + 1)) (hexTable.getD (src i &&& 0x0F#8).toNat 0#8)
    toHexLoop hexTable src n (i + 1) des

/-- The writers. -/
def dataToHex (hexTable : List Byte) (des src : Option Mem) (len : Int) : Option Mem :=
  match src, des with
  | some src, some des => if len = 0 then none else some (toHexLoop hexTable src len.toNat 0 des)
  | _, _ => none

def srsDataToHex : Option Mem → Option Mem → Int → Option Mem :=
  dataToHex [0x30, 0x31, 0x32, 0x33, 0x34, 0x35, 0x36, 0x37, 0x38, 0x39, 0x41, 0x42, 0x43, 0x44,
    0x45, 0x46]

def srsDataToHexLowercase : Option Mem → Option Mem → Int → Option Mem :=
  dataToHex [0x30, 0x31, 0x32, 0x33, 0x34, 0x35, 0x36, 0x37, 0x38, 0x39, 0x61, 0x62, 0x63, 0x64,
    0x65, 0x66]

/-- The loop of the reader: what it returns, and the bytes. -/
def toDataLoop (p : Mem) (size : Int) : Nat → Int → Mem → Int × Mem
  | 0, _, data => (size / 2, data)
  | n + 1, i, data =>
    let a := srsFromHexChar (p (int (i * 2)))
    if a = -1#8 then (-1, data)
    else
      let b := srsFromHexChar (p (int (i * 2 + 1)))
      if b = -1#8 then (-1, data)
      else toDataLoop p size n (i + 1) (Function.update data i (a <<< 4 ||| b))

def srsHexToData (data p : Mem) (size : Int) : Int × Mem :=
  if size ≤ 0 ∨ size % 2 = 1 then (-1, data) else toDataLoop p size (size / 2).toNat 0 data

/-! ### Digits -/

def IsHexDigit (c : Byte) : Prop :=
  0x30#8 ≤ c ∧ c ≤ 0x39#8 ∨ 0x41#8 ≤ c ∧ c ≤ 0x46#8 ∨ 0x61#8 ≤ c ∧ c ≤ 0x66#8

instance : DecidablePred IsHexDigit := fun c =>
  inferInstanceAs (Decidable (0x30#8 ≤ c ∧ c ≤ 0x39#8 ∨ 0x41#8 ≤ c ∧ c ≤ 0x46#8 ∨
    0x61#8 ≤ c ∧ c ≤ 0x66#8))

def upper (c : Byte) : Byte := if 0x61#8 ≤ c ∧ c ≤ 0x7A#8 then c - 0x20#8 else c

def lower (c : Byte) : Byte := if 0x41#8 ≤ c ∧ c ≤ 0x5A#8 then c + 0x20#8 else c

/-- A table of the digits, in the case that `fold` turns them into. -/
structure Table (hexTable : List Byte) (fold : Byte → Byte) : Prop where
  isHexDigit : ∀ x < 16#8, IsHexDigit (hexTable.getD x.toNat 0#8)
  fromHexChar : ∀ x < 16#8, srsFromHexChar (hexTable.getD x.toNat 0#8) = x
  fold : ∀ c, IsHexDigit c → hexTable.getD (srsFromHexChar c).toNat 0#8 = fold c

theorem table_upper : Table [0x30, 0x31, 0x32, 0x33, 0x34, 0x35, 0x36, 0x37, 0x38, 0x39, 0x41, 0x42,
    0x43, 0x44, 0x45, 0x46] upper where
  isHexDigit := by decide +kernel
  fromHexChar := by decide +kernel
  fold := by decide +kernel

theorem table_lower : Table [0x30, 0x31, 0x32, 0x33, 0x34, 0x35, 0x36, 0x37, 0x38, 0x39, 0x61, 0x62,
    0x63, 0x64, 0x65, 0x66] lower where
  isHexDigit := by decide +kernel
  fromHexChar := by decide +kernel
  fold := by decide +kernel

/-- The reader's `-1` is no digit's value, and every other character has it. -/
theorem fromHexChar_eq_iff : ∀ c, srsFromHexChar c = -1#8 ↔ ¬ IsHexDigit c := by decide +kernel

theorem fromHexChar_lt : ∀ c, IsHexDigit c → srsFromHexChar c < 16#8 := by decide +kernel

/-! ### Halves of a byte -/

theorem toNat_high (b : Byte) : (b >>> 4).toNat = b.toNat / 16 := by
  rw [BitVec.toNat_ushiftRight, Nat.shiftRight_eq_div_pow]

theorem toNat_low (b : Byte) : (b &&& 0x0F#8).toNat = b.toNat % 16 := by
  rw [BitVec.toNat_and]
  exact Nat.and_two_pow_sub_one_eq_mod b.toNat 4

theorem high_lt (b : Byte) : b >>> 4 < 16#8 := by
  rw [BitVec.lt_def, toNat_high]
  exact Nat.div_lt_of_lt_mul b.isLt

theorem low_lt (b : Byte) : b &&& 0x0F#8 < 16#8 := by
  rw [BitVec.lt_def, toNat_low]
  exact Nat.mod_lt _ (by decide)

section halves

variable {x y : Byte} (hx : x < 16#8) (hy : y < 16#8)
include hx hy

/-- The number that two digits are. -/
theorem toNat_halves : (x <<< 4 ||| y).toNat = 16 * x.toNat + y.toNat := by
  rw [BitVec.lt_def] at hx hy
  have hshift : x.toNat <<< 4 % 2 ^ 8 = x.toNat <<< 4 := by
    rw [Nat.shiftLeft_eq]
    exact Nat.mod_eq_of_lt (Nat.mul_lt_mul_of_pos_right hx (by decide))
  rw [BitVec.toNat_or, BitVec.toNat_shiftLeft, hshift, ← Nat.shiftLeft_add_eq_or_of_lt hy,
    Nat.shiftLeft_eq, Nat.mul_comm]

theorem high_halves : (x <<< 4 ||| y) >>> 4 = x := by
  refine BitVec.eq_of_toNat_eq ?_
  have hlt : y.toNat < 16 := hy
  rw [toNat_high, toNat_halves hx hy]
  omega

theorem low_halves : (x <<< 4 ||| y) &&& 0x0F#8 = y := by
  refine BitVec.eq_of_toNat_eq ?_
  have hlt : y.toNat < 16 := hy
  rw [toNat_low, toNat_halves hx hy]
  omega

end halves

theorem halves (b : Byte) : (b >>> 4) <<< 4 ||| b &&& 0x0F#8 = b := by
  refine BitVec.eq_of_toNat_eq ?_
  rw [toNat_halves (high_lt b) (low_lt b), toNat_high, toNat_low]
  exact Nat.div_add_mod b.toNat 16

/-! ### The loops -/

section loops

variable (hexTable : List Byte) (src p : Mem)

/-- **The writers' loop** writes the two digits of each byte, and nothing else. -/
theorem toHexLoop_spec (n : Nat) {i : Int} (hi : 0 ≤ i) (hn : 2 * (i + n) < 2 ^ 31) (des : Mem) :
    (∀ j, i ≤ j → j < i + n →
      toHexLoop hexTable src n i des (2 * j) = hexTable.getD (src j >>> 4).toNat 0#8 ∧
        toHexLoop hexTable src n i des (2 * j + 1) = hexTable.getD (src j &&& 0x0F#8).toNat 0#8) ∧
      ∀ a, a < 2 * i ∨ 2 * (i + n) ≤ a → toHexLoop hexTable src n i des a = des a := by
  induction n generalizing i des with
  | zero => exact ⟨fun j h₁ h₂ => by omega, fun a _ => rfl⟩
  | succ n ih =>
      obtain ⟨hin, hout⟩ := ih (i := i + 1) (by omega) (by push_cast at hn; omega)
        (Function.update (Function.update des (2 * i) (hexTable.getD (src i >>> 4).toNat 0#8))
          (2 * i + 1) (hexTable.getD (src i &&& 0x0F#8).toNat 0#8))
      rw [toHexLoop, int_of_lt (by omega) (by push_cast at hn; omega),
        int_of_lt (by omega) (by push_cast at hn; omega), Int.mul_comm i 2]
      push_cast
      constructor
      · intro j h₁ h₂
        rcases Int.lt_or_eq_of_le h₁ with hlt | rfl
        · exact hin j (by omega) (by omega)
        · -- the rounds that are left are behind what this one writes
          rw [hout _ (.inl (by omega)), hout _ (.inl (by omega)), Function.update_self,
            Function.update_of_ne (by omega), Function.update_self]
          exact ⟨rfl, rfl⟩
      · intro a ha
        rw [hout a (by omega), Function.update_of_ne (by omega), Function.update_of_ne (by omega)]

/-- **The reader's loop** puts the digits together, when all characters are digits. -/
theorem toDataLoop_spec (size : Int) (n : Nat) {i : Int} (hi : 0 ≤ i) (hn : 2 * (i + n) < 2 ^ 31)
    (data : Mem) (hdigit : ∀ j, 2 * i ≤ j → j < 2 * (i + n) → IsHexDigit (p j)) :
    ∃ data', toDataLoop p size n i data = (size / 2, data') ∧
      (∀ j, i ≤ j → j < i + n →
        data' j = srsFromHexChar (p (2 * j)) <<< 4 ||| srsFromHexChar (p (2 * j + 1))) ∧
      ∀ a, a < i ∨ i + n ≤ a → data' a = data a := by
  induction n generalizing i data with
  | zero => exact ⟨data, rfl, fun j h₁ h₂ => by omega, fun a _ => rfl⟩
  | succ n ih =>
      push_cast at hn hdigit
      have ha := hdigit (2 * i) (by omega) (by omega)
      have hb := hdigit (2 * i + 1) (by omega) (by omega)
      obtain ⟨data', hloop, hin, hout⟩ := ih (i := i + 1) (by omega) (by omega)
        (Function.update data i
          (srsFromHexChar (p (2 * i)) <<< 4 ||| srsFromHexChar (p (2 * i + 1))))
        fun j h₁ h₂ => hdigit j (by omega) (by omega)
      refine ⟨data', ?_, fun j h₁ h₂ => ?_, fun a ha => ?_⟩
      · rw [toDataLoop, int_of_lt (by omega) (by omega), int_of_lt (by omega) (by omega),
          Int.mul_comm i 2]
        dsimp only
        rw [if_neg (mt (fromHexChar_eq_iff _).mp (not_not_intro ha)),
          if_neg (mt (fromHexChar_eq_iff _).mp (not_not_intro hb))]
        exact hloop
      · push_cast at h₂
        rcases Int.lt_or_eq_of_le h₁ with hlt | rfl
        · exact hin j (by omega) (by omega)
        · rw [hout i (.inl (by omega)), Function.update_self]
      · push_cast at ha
        rw [hout a (by omega), Function.update_of_ne (by omega)]

/-- The reader's loop fails at a character that is no digit. -/
theorem toDataLoop_fails {p : Mem} {size : Int} (n : Nat) {i j : Int} (hi : 0 ≤ i)
    (hn : 2 * (i + n) < 2 ^ 31) (data : Mem) (h₁ : 2 * i ≤ j) (h₂ : j < 2 * (i + n))
    (hj : ¬ IsHexDigit (p j)) :
    (toDataLoop p size n i data).1 = -1 := by
  induction n generalizing i data with
  | zero => omega
  | succ n ih =>
      push_cast at hn h₂
      rw [toDataLoop, int_of_lt (by omega) (by omega), int_of_lt (by omega) (by omega),
        Int.mul_comm i 2]
      dsimp only
      split
      · rfl
      · next ha =>
          split
          · rfl
          · next hb =>
              rw [fromHexChar_eq_iff, not_not] at ha hb
              refine ih (by omega) (by omega) _ ?_ (by omega)
              rcases Int.lt_or_le j (2 * (i + 1)) with hlt | hle
              · -- the two characters of this round are digits
                obtain rfl | rfl : j = 2 * i ∨ j = 2 * i + 1 := by omega
                · exact absurd ha hj
                · exact absurd hb hj
              · exact hle

end loops

/-! ### The functions -/

section functions

variable {hexTable : List Byte} {fold : Byte → Byte} (des src data p : Mem) {n size : Int}

/-- **What is written**: the digits of the bytes. -/
theorem dataToHex_spec (hexTable : List Byte) (h₀ : 0 < n) (hn : 2 * n < 2 ^ 31) :
    ∃ hex, dataToHex hexTable (some des) (some src) n = some hex ∧ ∀ j, 0 ≤ j → j < n →
      hex (2 * j) = hexTable.getD (src j >>> 4).toNat 0#8 ∧
        hex (2 * j + 1) = hexTable.getD (src j &&& 0x0F#8).toNat 0#8 := by
  obtain ⟨k, rfl⟩ := Int.eq_ofNat_of_zero_le (Int.le_of_lt h₀)
  have hspec := toHexLoop_spec hexTable src k (Int.le_refl 0) (by omega) des
  rw [Int.zero_add] at hspec
  exact ⟨_, if_neg (Int.ne_of_gt h₀), hspec.1⟩

/-- **What is read**, if every character is a digit and there are two for each byte. -/
theorem hex_to_data_spec (hs : size < 2 ^ 31) (h₀ : 0 < size) (heven : size % 2 = 0)
    (hdigit : ∀ j, 0 ≤ j → j < size → IsHexDigit (p j)) :
    ∃ data', srsHexToData data p size = (size / 2, data') ∧ ∀ j, 0 ≤ j → j < size / 2 →
      data' j = srsFromHexChar (p (2 * j)) <<< 4 ||| srsFromHexChar (p (2 * j + 1)) := by
  have hk : ((size / 2).toNat : Int) = size / 2 := Int.toNat_of_nonneg (by omega)
  obtain ⟨data', hloop, hread, -⟩ := toDataLoop_spec p size (size / 2).toNat
    (Int.le_refl 0) (by omega) data fun j h₁ h₂ => hdigit j (by omega) (by omega)
  refine ⟨data', ?_, fun j h₁ h₂ => hread j h₁ (by omega)⟩
  rw [srsHexToData, if_neg (by omega), hloop]

/-- **When it is read**: the reader returns a length for digits in pairs, and for nothing else. -/
theorem hex_to_data_nonneg_iff (hs : size < 2 ^ 31) :
    0 ≤ (srsHexToData data p size).1 ↔
      0 < size ∧ size % 2 = 0 ∧ ∀ j, 0 ≤ j → j < size → IsHexDigit (p j) := by
  constructor
  · intro h
    by_cases hsize : size ≤ 0 ∨ size % 2 = 1
    · rw [srsHexToData, if_pos hsize] at h
      exact absurd h (show ¬ (0 : Int) ≤ -1 by decide)
    · refine ⟨by omega, by omega, fun j h₁ h₂ => ?_⟩
      by_contra hj
      have hk : ((size / 2).toNat : Int) = size / 2 := Int.toNat_of_nonneg (by omega)
      rw [srsHexToData, if_neg hsize, toDataLoop_fails (size / 2).toNat (Int.le_refl 0) (by omega)
        data (by omega) (by omega) hj] at h
      exact absurd h (show ¬ (0 : Int) ≤ -1 by decide)
  · rintro ⟨h₀, heven, hdigit⟩
    obtain ⟨data', hread, -⟩ := hex_to_data_spec data p hs h₀ heven hdigit
    rw [hread]
    exact Int.ediv_nonneg (Int.le_of_lt h₀) (by decide)

/-- **Reading undoes writing.** -/
theorem Table.read_write (h : Table hexTable fold) (h₀ : 0 < n) (hn : 2 * n < 2 ^ 31) :
    ∃ hex data', dataToHex hexTable (some des) (some src) n = some hex ∧
      srsHexToData data hex (2 * n) = (n, data') ∧ ∀ i, 0 ≤ i → i < n → data' i = src i := by
  obtain ⟨hex, hwrite, hhex⟩ := dataToHex_spec des src hexTable h₀ hn
  have hdigit : ∀ j, 0 ≤ j → j < 2 * n → IsHexDigit (hex j) := by
    intro j h₁ h₂
    obtain ⟨hhigh, hlow⟩ := hhex (j / 2) (by omega) (by omega)
    obtain hj | hj : j = 2 * (j / 2) ∨ j = 2 * (j / 2) + 1 := by omega
    · rw [hj, hhigh]
      exact h.isHexDigit _ (high_lt _)
    · rw [hj, hlow]
      exact h.isHexDigit _ (low_lt _)
  obtain ⟨data', hread, hdata⟩ := hex_to_data_spec data hex hn (by omega) (by omega) hdigit
  have hhalf : 2 * n / 2 = n := Int.mul_ediv_cancel_left n (by decide)
  rw [hhalf] at hread hdata
  refine ⟨hex, data', hwrite, hread, fun i h₁ h₂ => ?_⟩
  obtain ⟨hhigh, hlow⟩ := hhex i h₁ h₂
  rw [hdata i h₁ h₂, hhigh, hlow, h.fromHexChar _ (high_lt _), h.fromHexChar _ (low_lt _), halves]

/-- **Writing undoes reading**, in the case of the table. -/
theorem Table.write_read (h : Table hexTable fold) (hs : size < 2 ^ 31)
    (hread : 0 ≤ (srsHexToData data p size).1) :
    2 * (srsHexToData data p size).1 = size ∧
      ∃ hex, dataToHex hexTable (some des) (some (srsHexToData data p size).2)
        (srsHexToData data p size).1 = some hex ∧ ∀ j, 0 ≤ j → j < size → hex j = fold (p j) := by
  obtain ⟨h₀, heven, hdigit⟩ := (hex_to_data_nonneg_iff data p hs).mp hread
  obtain ⟨data', hdata, hbytes⟩ := hex_to_data_spec data p hs h₀ heven hdigit
  obtain ⟨hex, hwrite, hhex⟩ := dataToHex_spec (n := size / 2) des data' hexTable (by omega)
    (by omega)
  rw [hdata]
  refine ⟨by dsimp only; omega, hex, hwrite, fun j h₁ h₂ => ?_⟩
  obtain ⟨hhigh, hlow⟩ := hhex (j / 2) (by omega) (by omega)
  rw [hbytes (j / 2) (by omega) (by omega)] at hhigh hlow
  have ha := fromHexChar_lt _ (hdigit (2 * (j / 2)) (by omega) (by omega))
  have hb := fromHexChar_lt _ (hdigit (2 * (j / 2) + 1) (by omega) (by omega))
  rw [high_halves ha hb] at hhigh
  rw [low_halves ha hb] at hlow
  obtain hj | hj : j = 2 * (j / 2) ∨ j = 2 * (j / 2) + 1 := by omega
  · rw [hj, hhigh]
    exact h.fold _ (hdigit _ (by omega) (by omega))
  · rw [hj, hlow]
    exact h.fold _ (hdigit _ (by omega) (by omega))

end functions

/-- **Bytes in hexadecimal**: the reader gives back what either writer has written, it reads the
strings that are made of digits in pairs and no others, and what it has read is written as it was,
in the case of the writer. -/
theorem hex_roundtrip :
    (∀ toHex ∈ [srsDataToHex, srsDataToHexLowercase], ∀ (des src data : Mem) (n : Int),
      0 < n → 2 * n < 2 ^ 31 → ∃ hex data', toHex (some des) (some src) n = some hex ∧
        srsHexToData data hex (2 * n) = (n, data') ∧ ∀ i, 0 ≤ i → i < n → data' i = src i) ∧
      ∀ (data p : Mem) (size : Int), size < 2 ^ 31 →
        (0 ≤ (srsHexToData data p size).1 ↔
          0 < size ∧ size % 2 = 0 ∧ ∀ j, 0 ≤ j → j < size → IsHexDigit (p j)) ∧
        (0 ≤ (srsHexToData data p size).1 →
          ∀ t ∈ [(srsDataToHex, upper), (srsDataToHexLowercase, lower)], ∀ des,
            2 * (srsHexToData data p size).1 = size ∧
              ∃ hex, t.1 (some des) (some (srsHexToData data p size).2)
                (srsHexToData data p size).1 = some hex ∧
                ∀ j, 0 ≤ j → j < size → hex j = t.2 (p j)) := by
  refine ⟨fun toHex ht des src data n h₀ hn => ?_, fun data p size hs =>
    ⟨hex_to_data_nonneg_iff data p hs, fun hread t ht des => ?_⟩⟩
  · rcases List.mem_pair.mp ht with rfl | rfl
    · exact table_upper.read_write des src data h₀ hn
    · exact table_lower.read_write des src data h₀ hn
  · rcases List.mem_pair.mp ht with rfl | rfl
    · exact table_upper.write_read des data p hs hread
    · exact table_lower.write_read des data p hs hread

/-- `f3 3f`, written in lower case and read, and `f3`, read and written in upper case. -/
theorem hex_roundtrip_two :
    (∃ hex data', srsDataToHexLowercase (some fun _ => 0)
        (some fun i => if i = 0 then 0xF3 else 0x3F) 2 = some hex ∧
      srsHexToData (fun _ => 0) hex (2 * 2) = (2, data') ∧
        ∀ i, 0 ≤ i → i < 2 → data' i = (fun i => if i = 0 then 0xF3 else 0x3F : Mem) i) ∧
      0 ≤ (srsHexToData (fun _ => 0) (fun i => if i = 0 then 0x66 else 0x33) 2).1 ∧
        2 * (srsHexToData (fun _ => 0) (fun i => if i = 0 then 0x66 else 0x33) 2).1 = 2 := by
  have hlong : 0 ≤ (srsHexToData (fun _ => 0) (fun i => if i = 0 then 0x66 else 0x33) 2).1 := by
    decide
  exact ⟨hex_roundtrip.1 _ (.tail _ (.head _)) _ _ _ 2 (by decide) (by decide), hlong,
    ((hex_roundtrip.2 _ _ 2 (by decide)).2 hlong _ (.head _) fun _ => 0).1⟩

end StCoroutine.Kernel
