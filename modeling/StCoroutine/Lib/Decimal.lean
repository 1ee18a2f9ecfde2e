import Mathlib.Data.List.Basic

/-!
# Decimal — numbers in decimal, with separators between them

A text made of decimal numbers and characters that are no digits can be read in one way: a digit
is not the separator, so the first separator is the one that ends the first number.

`digits` are the characters of a number as bytes, and `value` reads them back.
-/

set_option autoImplicit false

namespace Decimal

variable {α : Type*}

/-- The first separator of a list is at one place. -/
theorem append_cons_inj {c : α} {x y z w : List α} (hx : c ∉ x) (hy : c ∉ y) :
    x ++ c :: z = y ++ c :: w ↔ x = y ∧ z = w := by
  constructor
  · intro h
    induction x generalizing y with
    | nil =>
        cases y with
        | nil => exact ⟨rfl, (List.cons.inj h).2⟩
        | cons b y =>
            obtain ⟨rfl, -⟩ := List.cons.inj h
            exact absurd List.mem_cons_self hy
    | cons a x ih =>
        cases y with
        | nil =>
            obtain ⟨rfl, -⟩ := List.cons.inj h
            exact absurd List.mem_cons_self hx
        | cons b y =>
            obtain ⟨rfl, htl⟩ := List.cons.inj h
            obtain ⟨rfl, rfl⟩ := ih (mt (List.mem_cons_of_mem a) hx)
              (mt (List.mem_cons_of_mem a) hy) htl
            exact ⟨rfl, rfl⟩
  · rintro ⟨rfl, rfl⟩
    rfl

theorem toDigits_inj {m n : Nat} : Nat.toDigits 10 m = Nat.toDigits 10 n ↔ m = n := by
  constructor
  · intro h
    have hread := congrArg (fun l => Nat.ofDigitChars 10 l 0) h
    simpa using hread
  · rintro rfl
    rfl

variable {c : Char} {m n : Nat} {l l' : List Char}

theorem not_mem_toDigits (hc : c.isDigit = false) : c ∉ Nat.toDigits 10 n := by
  intro h
  rw [Nat.isDigit_of_mem_toDigits (by decide) (by decide) h] at hc
  cases hc

/-- **A number and what comes after the separator** are both read off the text. -/
theorem toDigits_append_inj (hc : c.isDigit = false) :
    Nat.toDigits 10 m ++ c :: l = Nat.toDigits 10 n ++ c :: l' ↔ m = n ∧ l = l' := by
  rw [append_cons_inj (not_mem_toDigits hc) (not_mem_toDigits hc), toDigits_inj]

/-! ### Bytes -/

/-- The digits of a number, as the bytes of their characters. -/
def digits (n : Nat) : List UInt8 := (Nat.toDigits 10 n).map fun c => UInt8.ofNat c.toNat

def isDigit (c : UInt8) : Bool := 48 ≤ c && c ≤ 57

/-- What a text of digits stands for. -/
def value (s : List UInt8) : Nat := s.foldl (fun n c => 10 * n + (c.toNat - 48)) 0

theorem digits_ne_nil : digits n ≠ [] := by
  rw [digits, ne_eq, List.map_eq_nil_iff]
  exact Nat.toDigits_ne_nil

theorem toNat_byte (hc : c.isDigit = true) : (UInt8.ofNat c.toNat).toNat = c.toNat := by
  have hle : c.toNat ≤ 57 := (Char.isDigit_iff_toNat.mp hc).2
  exact UInt8.toNat_ofNat_of_lt' (Nat.lt_of_le_of_lt hle (by decide))

theorem isDigit_of_mem {d : UInt8} (h : d ∈ digits n) : isDigit d = true := by
  obtain ⟨c, hc, rfl⟩ := List.mem_map.mp h
  have hdigit := Nat.isDigit_of_mem_toDigits (by decide) (by decide) hc
  have hbyte := toNat_byte hdigit
  rw [Char.isDigit_iff_toNat] at hdigit
  rw [isDigit, Bool.and_eq_true, decide_eq_true_eq, decide_eq_true_eq, UInt8.le_iff_toNat_le,
    UInt8.le_iff_toNat_le, hbyte]
  exact hdigit

/-- **The digits of a number** stand for it. -/
theorem value_digits (n : Nat) : value (digits n) = n := by
  have hread : ∀ l : List Char, (∀ c ∈ l, c.isDigit = true) → ∀ m,
      (l.map fun c => UInt8.ofNat c.toNat).foldl (fun n d => 10 * n + (d.toNat - 48)) m =
        Nat.ofDigitChars 10 l m := by
    intro l
    induction l with
    | nil => exact fun _ _ => Nat.ofDigitChars_nil.symm
    | cons c l ih =>
        intro hl m
        rw [List.map_cons, List.foldl_cons, toNat_byte (hl c List.mem_cons_self),
          Nat.ofDigitChars_cons]
        exact ih (fun d hd => hl d (List.mem_cons_of_mem c hd)) _
  rw [value, digits, hread _ fun c hc => Nat.isDigit_of_mem_toDigits (by decide) (by decide) hc]
  exact Nat.ofDigitChars_ten_toDigits

end Decimal
