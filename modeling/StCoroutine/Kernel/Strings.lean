import StCoroutine.Lib.Search

/-!
# Kernel — replacing and splitting

`srs_string_replace` and `srs_string_split` of `srs_kernel_utility.cpp`.  A string is the list of
its characters, and a loop has `fuel` for the tests of its condition: `none` is a loop that has not
come to its end by then.  Positions come from `find`, so none is past the end of the string.

`srs_string_replace` edits the string it searches, and goes on behind what it has put there, so that
it searches the rest of the original; the pieces of the original are what `srs_string_split` cuts.

* `string_replace_terminates_iff`: it comes to an end unless an empty string is to be replaced by
  one that is not.
* `string_replace_eq_split`: it joins the pieces of the split with the new string.
-/

set_option autoImplicit false

namespace StCoroutine.Kernel

open Search

/-- The loop of `srs_string_replace`. -/
def replaceLoop (oldStr newStr : List UInt8) : Nat → List UInt8 → Nat → Option (List UInt8)
  | 0, _, _ => none
  | fuel + 1, ret, pos =>
    match find oldStr ret pos with
    | none => some ret
    | some pos =>
      let ret := replace ret pos oldStr.length newStr
      replaceLoop oldStr newStr fuel ret (pos + newStr.length)

def srsStringReplace (fuel : Nat) (str oldStr newStr : List UInt8) : Option (List UInt8) :=
  let ret := str
  if oldStr = newStr then some ret else replaceLoop oldStr newStr fuel ret 0

/-- The loop of `srs_string_split`, and its last element. -/
def splitLoop (s seperator : List UInt8) :
    Nat → List (List UInt8) → Nat → Option Nat → Option (List (List UInt8))
  | 0, _, _, _ => none
  | _ + 1, result, posBegin, none => some (result ++ [substr s posBegin s.length])
  | fuel + 1, result, posBegin, some posSeperator =>
    let result := result ++ [substr s posBegin (posSeperator - posBegin)]
    let posBegin := posSeperator + seperator.length
    splitLoop s seperator fuel result posBegin (find seperator s posBegin)

def srsStringSplit (fuel : Nat) (s seperator : List UInt8) : Option (List (List UInt8)) :=
  if seperator = [] then some [s] else splitLoop s seperator fuel [] 0 (find seperator s 0)

section loops

variable {str oldStr newStr s : List UInt8} {ps : List (List UInt8)}

/-- **The loop of the replacement**, with `done` in front of the pieces that are left. -/
theorem replaceLoop_eq (h : Pieces oldStr s ps) (done : List UInt8) {fuel : Nat}
    (hfuel : ps.length ≤ fuel) :
    replaceLoop oldStr newStr fuel (done ++ s) done.length =
      some (done ++ newStr.intercalate ps) := by
  induction h generalizing done fuel with
  | last h =>
      obtain ⟨fuel, rfl⟩ := Nat.exists_eq_add_of_le' hfuel
      rw [List.length_singleton, replaceLoop, find_append, h, List.intercalate_singleton]
      rfl
  | @cut pre rest ps h hrest ih =>
      rw [List.length_cons] at hfuel
      obtain ⟨fuel, rfl⟩ := Nat.exists_eq_add_of_le' hfuel
      -- what is searched next is the rest of the original, behind what was put in
      have hput : replace (done ++ (pre ++ oldStr ++ rest)) (done ++ pre).length oldStr.length
          newStr = done ++ pre ++ newStr ++ rest := by
        rw [← List.append_assoc, ← List.append_assoc]
        exact replace_append
      rw [← Nat.add_assoc, replaceLoop, find_append_of_indexOf h]
      dsimp only
      rw [hput, ← List.length_append, ih _ (by omega),
        List.intercalate_cons_of_ne_nil hrest.ne_nil]
      simp only [List.append_assoc]

/-- **The loop of the split**, with `done` in front of the pieces that are left. -/
theorem splitLoop_eq (h : Pieces oldStr s ps) (done : List UInt8) (result : List (List UInt8))
    {fuel : Nat} (hfuel : ps.length ≤ fuel) :
    splitLoop (done ++ s) oldStr fuel result done.length (find oldStr (done ++ s) done.length) =
      some (result ++ ps) := by
  induction h generalizing done result fuel with
  | last h =>
      obtain ⟨fuel, rfl⟩ := Nat.exists_eq_add_of_le' hfuel
      rw [List.length_singleton, find_append, h, Option.map_none, splitLoop,
        substr_rest (by simp)]
  | @cut pre rest ps h hrest ih =>
      rw [List.length_cons] at hfuel
      obtain ⟨fuel, rfl⟩ := Nat.exists_eq_add_of_le' hfuel
      have hpiece : substr (done ++ (pre ++ oldStr ++ rest)) done.length
          ((done ++ pre).length - done.length) = pre := by
        rw [List.length_append, Nat.add_sub_cancel_left, List.append_assoc pre, ← List.append_assoc]
        exact substr_append
      have htext : done ++ (pre ++ oldStr ++ rest) = done ++ pre ++ oldStr ++ rest := by
        simp only [List.append_assoc]
      rw [← Nat.add_assoc, find_append_of_indexOf h, splitLoop]
      rw [hpiece, htext, ← List.length_append, ih _ _ (by omega), List.append_assoc,
        List.singleton_append]

/-- An empty pattern is found wherever the search goes on. -/
theorem replaceLoop_nil (done s : List UInt8) (fuel : Nat) :
    replaceLoop [] newStr fuel (done ++ s) done.length = none := by
  induction fuel generalizing done with
  | zero => rfl
  | succ fuel ih =>
      rw [replaceLoop, find_append, indexOf_nil]
      have hput : replace (done ++ s) done.length 0 newStr = done ++ newStr ++ s := by
        have hput : replace (done ++ [] ++ s) done.length [].length newStr = done ++ newStr ++ s :=
          replace_append
        rwa [List.append_nil] at hput
      simp only [Option.map_some, Nat.add_zero, List.length_nil]
      rw [hput, ← List.length_append]
      exact ih _

end loops

/-! ### Every string -/

/-- **`srs_string_replace` terminates** exactly when the old string is not empty, or the new one is
empty too: an empty string is found again behind every insertion. -/
theorem string_replace_terminates_iff (str oldStr newStr : List UInt8) :
    (∃ fuel ret, srsStringReplace fuel str oldStr newStr = some ret) ↔
      oldStr ≠ [] ∨ newStr = [] := by
  constructor
  · rintro ⟨fuel, ret, h⟩
    by_contra hnot
    obtain ⟨hold, hnew⟩ := not_or.mp hnot
    rw [not_not] at hold
    subst hold
    rw [srsStringReplace, if_neg (Ne.symm hnew), ← List.nil_append str] at h
    exact nomatch (replaceLoop_nil [] str fuel).symm.trans h
  · intro h
    by_cases heq : oldStr = newStr
    · exact ⟨0, str, if_pos heq⟩
    · have hold : oldStr ≠ [] := by
        rcases h with hold | rfl
        · exact hold
        · exact heq
      obtain ⟨ps, hps⟩ := exists_pieces hold str
      refine ⟨ps.length, newStr.intercalate ps, ?_⟩
      rw [srsStringReplace, if_neg heq]
      exact replaceLoop_eq hps [] (le_refl _)

/-- Nothing is found in front of `a` for ever. -/
theorem string_replace_runs_on :
    ¬∀ str oldStr newStr, ∃ fuel ret, srsStringReplace fuel str oldStr newStr = some ret := by
  intro H
  obtain ⟨fuel, ret, h⟩ := H [97] [] [98]
  exact nomatch (replaceLoop_nil [] [97] fuel).symm.trans h

/-- **Replacing is joining what is split**: with enough fuel both come to an end, and the string
with the replacements is the pieces of the split with the new string between them. -/
theorem string_replace_eq_split (str newStr : List UInt8) {oldStr : List UInt8}
    (hold : oldStr ≠ []) : ∃ pieces enough, ∀ fuel, enough ≤ fuel →
      srsStringSplit fuel str oldStr = some pieces ∧
        srsStringReplace fuel str oldStr newStr = some (newStr.intercalate pieces) := by
  obtain ⟨ps, hps⟩ := exists_pieces hold str
  refine ⟨ps, ps.length, fun fuel hfuel => ⟨?_, ?_⟩⟩
  · rw [srsStringSplit, if_neg hold]
    exact splitLoop_eq hps [] [] hfuel
  · rw [srsStringReplace]
    split
    · next heq => rw [← heq, hps.intercalate]
    · exact replaceLoop_eq hps [] hfuel

/-- `aa` in `aaaab`, with a new string that has `aa` in it. -/
theorem string_replace_eq_split_overlapping : ∃ pieces enough, ∀ fuel, enough ≤ fuel →
    srsStringSplit fuel [97, 97, 97, 97, 98] [97, 97] = some pieces ∧
      srsStringReplace fuel [97, 97, 97, 97, 98] [97, 97] [97, 97, 99] =
        some (List.intercalate [97, 97, 99] pieces) :=
  string_replace_eq_split [97, 97, 97, 97, 98] [97, 97, 99] (by decide)

example : srsStringReplace 9 [97, 97, 97, 97, 98] [97, 97] [97, 97, 99] =
    some [97, 97, 99, 97, 97, 99, 98] := by decide

end StCoroutine.Kernel
