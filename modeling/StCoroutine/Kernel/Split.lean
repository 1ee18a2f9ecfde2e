import StCoroutine.Kernel.Strings
import StCoroutine.Lib.Scan

/-!
# Kernel — splitting at one separator and at several

The two overloads of `srs_string_split`.  The one with a vector asks `srs_string_min_match` for the
separator that comes first in what is left, with the first of the vector where several do, and cuts
the string down behind it; it keeps the last piece only when that is not empty.

* `string_split_spec`: the pieces at one separator give the string back and have it nowhere.
* `string_split_vector_singleton`: both overloads agree but for a last piece that is empty.
* `string_split_vector_conserves_iff`: the overload with a vector loses no text, unless the vector
  is empty and the string is not: `srs_string_min_match` returns the whole string then, and the
  loop takes it for a separator.
* `string_split_vector_eq_scan`: it is a scanner that goes over the string once.
-/

set_option autoImplicit false

namespace StCoroutine.Kernel

open Search

/-! ### The overload with a vector -/

/-- The loop of `srs_string_min_match`, with the separators that are left. -/
def minMatchLoop (str : List UInt8) :
    List (List UInt8) → Option Nat → List UInt8 → List UInt8
  | [], _, matched => matched
  | seperator :: seperators, minPos, matched =>
    match find seperator str 0 with
    | none => minMatchLoop str seperators minPos matched
    | some pos =>
      if minPos.all (pos < ·) then minMatchLoop str seperators (some pos) seperator
      else minMatchLoop str seperators minPos matched

def srsStringMinMatch (str : List UInt8) (seperators : List (List UInt8)) : List UInt8 :=
  if seperators = [] then str else minMatchLoop str seperators none []

/-- The loop of `srs_string_split` with a vector, and its last element. -/
def splitVectorLoop (seperators : List (List UInt8)) :
    Nat → List (List UInt8) → List UInt8 → Option (List (List UInt8))
  | 0, _, _ => none
  | fuel + 1, arr, s =>
    let seperator := srsStringMinMatch s seperators
    let done := if s = [] then arr else arr ++ [s]
    if seperator = [] then some done
    else
      match find seperator s 0 with
      | none => some done
      | some pos =>
        splitVectorLoop seperators fuel (arr ++ [substr s 0 pos])
          (substr s (pos + seperator.length) s.length)

def srsStringSplitVector (fuel : Nat) (str : List UInt8) (seperators : List (List UInt8)) :
    Option (List (List UInt8)) :=
  splitVectorLoop seperators fuel [] str

/-! ### `srs_string_min_match` -/

section minMatch

variable {str matched sep : List UInt8} {seps done : List (List UInt8)} {minPos : Option Nat}
  {pos : Nat}

/-- What the loop has after the separators `done`: nothing, or the first of those that are found at
the least position. -/
inductive Best (str : List UInt8) (done : List (List UInt8)) : Option Nat → List UInt8 → Prop where
  | unfound (h : ∀ p ∈ done, indexOf p str = none) : Best str done none []
  | found {pos : Nat} {matched : List UInt8}
      (hmin : ∀ p ∈ done, ∀ k, indexOf p str = some k → pos ≤ k)
      (hfirst : done.find? (fun p => indexOf p str = some pos) = some matched) :
      Best str done (some pos) matched

/-- A separator that is not found before the best one changes nothing. -/
theorem Best.keep (h : Best str done minPos matched)
    (hsep : ∀ k, indexOf sep str = some k → ∃ pos, minPos = some pos ∧ pos ≤ k) :
    Best str (done ++ [sep]) minPos matched := by
  cases h with
  | unfound h =>
      refine .unfound fun p hp => ?_
      rcases List.mem_append.mp hp with hp | hp
      · exact h p hp
      · rw [List.mem_singleton.mp hp]
        refine Option.eq_none_iff_forall_ne_some.mpr fun k hk => ?_
        obtain ⟨pos, hpos, -⟩ := hsep k hk
        cases hpos
  | found hmin hfirst =>
      refine .found (fun p hp k hk => ?_) ?_
      · rcases List.mem_append.mp hp with hp | hp
        · exact hmin p hp k hk
        · rw [List.mem_singleton.mp hp] at hk
          obtain ⟨pos, hpos, hle⟩ := hsep k hk
          cases hpos
          exact hle
      · rw [List.find?_append, hfirst, Option.some_or]

/-- A separator that is found before all of them is the best one. -/
theorem Best.take (h : Best str done minPos matched) (hsep : indexOf sep str = some pos)
    (hlt : ∀ k, minPos = some k → pos < k) : Best str (done ++ [sep]) (some pos) sep := by
  have hdone : ∀ p ∈ done, ∀ k, indexOf p str = some k → pos < k := by
    intro p hp k hk
    cases h with
    | unfound h => exact nomatch (h p hp).symm.trans hk
    | found hmin hfirst => exact Nat.lt_of_lt_of_le (hlt _ rfl) (hmin p hp k hk)
  refine .found (fun p hp k hk => ?_) ?_
  · rcases List.mem_append.mp hp with hp | hp
    · exact Nat.le_of_lt (hdone p hp k hk)
    · rw [List.mem_singleton.mp hp, hsep] at hk
      cases hk
      exact le_refl pos
  · have hnone : done.find? (fun p => indexOf p str = some pos) = none :=
      List.find?_eq_none.mpr fun p hp hat =>
        Nat.lt_irrefl pos (hdone p hp pos (of_decide_eq_true hat))
    rw [List.find?_append, hnone, Option.none_or]
    exact List.find?_cons_of_pos (decide_eq_true hsep)

/-- **The loop of `srs_string_min_match`** ends with the best of all separators. -/
theorem minMatchLoop_spec (h : Best str done minPos matched) :
    ∃ minPos', Best str (done ++ seps) minPos' (minMatchLoop str seps minPos matched) := by
  induction seps generalizing done minPos matched with
  | nil =>
      rw [List.append_nil]
      exact ⟨minPos, h⟩
  | cons sep seps ih =>
      have happ : done ++ sep :: seps = done ++ [sep] ++ seps := by simp
      rw [happ, minMatchLoop, find_zero]
      cases hsep : indexOf sep str with
      | none => exact ih (h.keep fun k hk => nomatch hsep.symm.trans hk)
      | some pos =>
          dsimp only
          split
          · next hall =>
              refine ih (h.take hsep fun k hk => ?_)
              rw [hk, Option.all_some] at hall
              exact of_decide_eq_true hall
          · next hall =>
              refine ih (h.keep fun k hk => ?_)
              cases hsep.symm.trans hk
              cases minPos with
              | none => exact absurd rfl hall
              | some m => exact ⟨m, rfl, Nat.not_lt.mp fun hlt => hall (decide_eq_true hlt)⟩

/-- **`srs_string_min_match`** of a vector that is not empty. -/
theorem minMatch_spec (hseps : seps ≠ []) :
    ∃ minPos, Best str seps minPos (srsStringMinMatch str seps) := by
  rw [srsStringMinMatch, if_neg hseps]
  have hstart : Best str [] none [] := .unfound fun p hp => absurd hp List.not_mem_nil
  exact minMatchLoop_spec hstart

end minMatch

/-! ### One round of the loop -/

section loop

variable {s pre sep rest : List UInt8} {seps arr : List (List UInt8)}

theorem splitVectorLoop_done (h : srsStringMinMatch s seps = []) (fuel : Nat) :
    splitVectorLoop seps (fuel + 1) arr s = some (arr ++ if s = [] then [] else [s]) := by
  rw [splitVectorLoop, if_pos h]
  split <;> simp

/-- The string is cut down behind the separator. -/
theorem splitVectorLoop_cut (h : srsStringMinMatch (pre ++ sep ++ rest) seps = sep)
    (hsep : sep ≠ []) (hat : indexOf sep (pre ++ sep ++ rest) = some pre.length) (fuel : Nat) :
    splitVectorLoop seps (fuel + 1) arr (pre ++ sep ++ rest) =
      splitVectorLoop seps fuel (arr ++ [pre]) rest := by
  have hpiece : substr (pre ++ sep ++ rest) 0 pre.length = pre := by
    rw [List.append_assoc, substr_front]
  have hrest : substr (pre ++ sep ++ rest) (pre.length + sep.length) (pre ++ sep ++ rest).length =
      rest := by
    rw [← List.length_append]
    refine substr_rest ?_
    simp only [List.length_append]
    omega
  rw [splitVectorLoop, h, if_neg hsep, find_zero, hat]
  dsimp only
  rw [hpiece, hrest]

/-- What the loop does next, with a vector that is not empty: it ends with what is left, when no
separator is found or an empty one is the best, or it cuts at the best one. -/
theorem round_cases (hseps : seps ≠ []) (s : List UInt8) :
    (srsStringMinMatch s seps = [] ∧
        ((∀ p ∈ seps, indexOf p s = none) ∨ [] ∈ seps)) ∨
      ∃ pre sep rest, s = pre ++ sep ++ rest ∧ sep ∈ seps ∧ sep ≠ [] ∧
        srsStringMinMatch s seps = sep ∧ indexOf sep s = some pre.length ∧
        Leftmost seps pre sep rest := by
  obtain ⟨minPos, h⟩ : ∃ minPos, Best s seps minPos (srsStringMinMatch s seps) :=
    minMatch_spec hseps
  generalize srsStringMinMatch s seps = sep at h
  cases h with
  | unfound h => exact .inl ⟨rfl, .inl h⟩
  | @found pos _ hmin hfirst =>
      have hmem := List.mem_of_find?_eq_some hfirst
      have hat : indexOf sep s = some pos := by
        simpa using List.find?_some hfirst
      by_cases hsep : sep = []
      · subst hsep
        exact .inl ⟨rfl, .inr hmem⟩
      · obtain ⟨pre, rest, rfl, rfl, hleft⟩ := leftmost_of_find hmin hfirst
        exact .inr ⟨pre, sep, rest, rfl, hmem, hsep, rfl, hat, hleft⟩

/-- What is left behind a separator is shorter. -/
theorem length_rest_lt (hsep : sep ≠ []) : rest.length < (pre ++ sep ++ rest).length := by
  have hpos := List.length_pos_of_ne_nil hsep
  simp only [List.length_append]
  omega

end loop

/-! ### No text is lost -/

/-- The pieces with the separators between them, as far as there are some. -/
def interleave : List (List UInt8) → List (List UInt8) → List UInt8
  | [], _ => []
  | piece :: pieces, [] => piece ++ interleave pieces []
  | piece :: pieces, sep :: seps => piece ++ sep ++ interleave pieces seps

/-- Separators of the vector, one between any two pieces and at most one behind the last, give the
string back. -/
def Conserved (seps pieces : List (List UInt8)) (str : List UInt8) : Prop :=
  ∃ used, (∀ sep ∈ used, sep ∈ seps) ∧ used.length ≤ pieces.length ∧
    pieces.length ≤ used.length + 1 ∧ interleave pieces used = str

section conserved

variable {str pre sep rest : List UInt8} {seps pieces arr : List (List UInt8)}

/-- What is left is the last piece, if it is not empty. -/
theorem conserved_last (s : List UInt8) : Conserved seps (if s = [] then [] else [s]) s := by
  refine ⟨[], fun sep hsep => absurd hsep List.not_mem_nil, Nat.zero_le _, ?_, ?_⟩
  · split <;> simp
  · split
    · next hs => rw [hs, interleave]
    · rw [interleave, interleave, List.append_nil]

theorem Conserved.cut (h : Conserved seps pieces rest) (hsep : sep ∈ seps) (pre : List UInt8) :
    Conserved seps (pre :: pieces) (pre ++ sep ++ rest) := by
  obtain ⟨used, hused, hle, hge, he⟩ := h
  refine ⟨sep :: used, fun p hp => ?_, Nat.succ_le_succ hle, Nat.succ_le_succ hge, ?_⟩
  · rcases List.mem_cons.mp hp with rfl | hp
    · exact hsep
    · exact hused p hp
  · rw [interleave, he]

/-- **The loop loses no text**, with a vector that is not empty. -/
theorem splitVectorLoop_conserves (hseps : seps ≠ []) (str : List UInt8) :
    ∃ pieces, Conserved seps pieces str ∧ ∀ fuel arr, str.length < fuel →
      splitVectorLoop seps fuel arr str = some (arr ++ pieces) := by
  induction hn : str.length using Nat.strongRecOn generalizing str with
  | ind n ih =>
      rcases round_cases hseps str with ⟨h, -⟩ | ⟨pre, sep, rest, rfl, hmem, hsep, h, hat, -⟩
      · refine ⟨_, conserved_last str, fun fuel arr hfuel => ?_⟩
        obtain ⟨fuel, rfl⟩ := Nat.exists_eq_add_of_lt hfuel
        exact splitVectorLoop_done h _
      · have hlt : rest.length < (pre ++ sep ++ rest).length := length_rest_lt hsep
        obtain ⟨pieces, hpieces, hloop⟩ := ih rest.length (hn ▸ hlt) rest rfl
        refine ⟨pre :: pieces, hpieces.cut hmem pre, fun fuel arr hfuel => ?_⟩
        obtain ⟨fuel, rfl⟩ := Nat.exists_eq_add_one_of_ne_zero (Nat.ne_zero_of_lt hfuel)
        rw [splitVectorLoop_cut h hsep hat, hloop fuel _ (by omega), List.append_assoc,
          List.singleton_append]

/-- With an empty vector the whole string is cut out, behind an empty piece. -/
theorem splitVectorLoop_nil (hstr : str ≠ []) (fuel : Nat) :
    splitVectorLoop [] (fuel + 2) [] str = some [[]] := by
  have hat : indexOf str ([] ++ str ++ []) = some 0 := by
    rw [indexOf_eq_some_iff, List.drop_zero, List.append_nil]
    exact ⟨Nat.zero_le _, List.prefix_refl str, fun k hk => absurd hk (Nat.not_lt_zero k)⟩
  have hcut : splitVectorLoop [] (fuel + 2) [] ([] ++ str ++ []) =
      splitVectorLoop [] (fuel + 1) ([] ++ [[]]) [] :=
    splitVectorLoop_cut (by rw [srsStringMinMatch, if_pos rfl, List.nil_append, List.append_nil])
      hstr hat (fuel + 1)
  rw [List.nil_append, List.append_nil] at hcut
  rw [hcut, splitVectorLoop_done (if_pos rfl), if_pos rfl, List.append_nil, List.nil_append]

/-- There is no separator to put behind it. -/
theorem not_conserved_nil (hstr : str ≠ []) : ¬ Conserved [] [[]] str := by
  rintro ⟨used, hused, -, -, he⟩
  obtain rfl := List.eq_nil_iff_forall_not_mem.mpr fun sep hsep =>
    absurd (hused sep hsep) List.not_mem_nil
  exact hstr he.symm

end conserved

/-! ### The scanner -/

section scanner

variable {str : List UInt8} {seps : List (List UInt8)}

/-- The pieces without the last one, when that is empty. -/
def withoutEmptyLast (pieces : List (List UInt8)) : List (List UInt8) :=
  if pieces.getLast? = some [] then pieces.dropLast else pieces

theorem withoutEmptyLast_singleton (s : List UInt8) :
    withoutEmptyLast [s] = if s = [] then [] else [s] := by
  simp [withoutEmptyLast]

theorem withoutEmptyLast_cons {pieces : List (List UInt8)} (h : pieces ≠ []) (p : List UInt8) :
    withoutEmptyLast (p :: pieces) = p :: withoutEmptyLast pieces := by
  obtain ⟨q, ps, rfl⟩ := List.exists_cons_of_ne_nil h
  rw [withoutEmptyLast, withoutEmptyLast, List.getLast?_cons_cons, List.dropLast_cons_cons]
  split <;> rfl

/-- **The loop is the scanner**, with separators that are not empty. -/
theorem splitVectorLoop_eq_scan (hseps : seps ≠ []) (hne : ∀ sep ∈ seps, sep ≠ []) {fuel : Nat}
    (arr : List (List UInt8)) (hfuel : str.length < fuel) :
    splitVectorLoop seps fuel arr str =
      some (arr ++ withoutEmptyLast (scan seps 0 [] str)) := by
  induction hn : str.length using Nat.strongRecOn generalizing str fuel arr with
  | ind n ih =>
      obtain ⟨fuel, rfl⟩ := Nat.exists_eq_add_one_of_ne_zero (Nat.ne_zero_of_lt hfuel)
      rcases round_cases hseps str with ⟨h, hnone⟩ | ⟨pre, sep, rest, rfl, -, hsep, h, hat, hleft⟩
      · have hnot := hnone.resolve_right fun hmem => hne [] hmem rfl
        rw [splitVectorLoop_done h, scan_of_none (fun k _ => firstAt_of_none hnot k) [],
          List.nil_append, withoutEmptyLast_singleton]
      · have hlt : rest.length < (pre ++ sep ++ rest).length := length_rest_lt hsep
        rw [splitVectorLoop_cut h hsep hat, ih rest.length (hn ▸ hlt) _ (by omega) rfl,
          scan_leftmost hsep hleft, withoutEmptyLast_cons (scan_ne_nil 0), List.append_assoc,
          List.singleton_append, List.nil_append]

end scanner

/-! ### Every string -/

/-- **The split at one separator** comes to an end, its pieces with the separator between them give
the string, none of them has it inside, and there is one more than occurrences that do not reach
into each other. -/
theorem string_split_spec (s : List UInt8) {seperator : List UInt8} (hsep : seperator ≠ []) :
    ∃ pieces enough, (∀ fuel, enough ≤ fuel → srsStringSplit fuel s seperator = some pieces) ∧
      seperator.intercalate pieces = s ∧ (∀ piece ∈ pieces, ¬ seperator <:+: piece) ∧
      pieces.length = occurrences seperator 0 s + 1 := by
  obtain ⟨ps, hps⟩ := exists_pieces hsep s
  refine ⟨ps, ps.length, fun fuel hfuel => ?_, hps.intercalate, hps.not_infix hsep, ?_⟩
  · rw [srsStringSplit, if_neg hsep]
    exact splitLoop_eq hps [] [] hfuel
  · rw [← hps.scan_eq hsep, length_scan]

/-- `aa` in `aaaab`, an occurrence next to another. -/
theorem string_split_spec_adjacent : ∃ pieces enough,
    (∀ fuel, enough ≤ fuel → srsStringSplit fuel [97, 97, 97, 97, 98] [97, 97] = some pieces) ∧
      List.intercalate [97, 97] pieces = [97, 97, 97, 97, 98] ∧
      (∀ piece ∈ pieces, ¬ [97, 97] <:+: piece) ∧ pieces.length = 3 :=
  string_split_spec [97, 97, 97, 97, 98] (by decide)

/-- **The overload with a vector is a scanner** that goes over the string once, cuts at the first
separator of the vector that occurs where it is, and leaves out a last piece that is empty. -/
theorem string_split_vector_eq_scan (str : List UInt8) {seperators : List (List UInt8)}
    (hseps : seperators ≠ []) (hne : ∀ sep ∈ seperators, sep ≠ []) : ∃ enough, ∀ fuel,
      enough ≤ fuel → srsStringSplitVector fuel str seperators =
        some (withoutEmptyLast (scan seperators 0 [] str)) := by
  refine ⟨str.length + 1, fun fuel hfuel => ?_⟩
  rw [srsStringSplitVector, splitVectorLoop_eq_scan hseps hne [] hfuel, List.nil_append]

/-- `ab` and `a` in `babca`: the first of the vector is cut out where both occur. -/
theorem string_split_vector_eq_scan_two : ∃ enough, ∀ fuel, enough ≤ fuel →
    srsStringSplitVector fuel [98, 97, 98, 99, 97] [[97, 98], [97]] = some [[98], [99]] :=
  string_split_vector_eq_scan [98, 97, 98, 99, 97] (List.cons_ne_nil _ _) (by decide)

/-- **The two overloads**: with a vector of one separator the pieces are those at the separator,
without the last one when that is empty. -/
theorem string_split_vector_singleton (s : List UInt8) {seperator : List UInt8}
    (hsep : seperator ≠ []) : ∃ pieces enough, ∀ fuel, enough ≤ fuel →
      srsStringSplit fuel s seperator = some pieces ∧
        srsStringSplitVector fuel s [seperator] = some (withoutEmptyLast pieces) := by
  obtain ⟨ps, hps⟩ := exists_pieces hsep s
  refine ⟨ps, ps.length + s.length + 1, fun fuel hfuel => ⟨?_, ?_⟩⟩
  · rw [srsStringSplit, if_neg hsep]
    exact splitLoop_eq hps [] [] (by omega)
  · have hne : ∀ sep ∈ [seperator], sep ≠ [] := by
      intro sep hmem
      rwa [List.mem_singleton.mp hmem]
    rw [srsStringSplitVector, splitVectorLoop_eq_scan (List.cons_ne_nil _ _) hne [] (by omega),
      hps.scan_eq hsep, List.nil_append]

theorem string_split_vector_singleton_last : ∃ pieces enough, ∀ fuel, enough ≤ fuel →
    srsStringSplit fuel [97, 44, 98] [44] = some pieces ∧
      srsStringSplitVector fuel [97, 44, 98] [[44]] = some (withoutEmptyLast pieces) :=
  string_split_vector_singleton [97, 44, 98] (by decide)

/-- The empty string has one piece at a comma, and none at a vector with a comma. -/
theorem string_split_overloads_differ :
    ¬∀ s seperator : List UInt8, seperator ≠ [] → ∃ pieces enough, ∀ fuel, enough ≤ fuel →
      srsStringSplit fuel s seperator = some pieces ∧
        srsStringSplitVector fuel s [seperator] = some pieces := by
  intro H
  obtain ⟨pieces, enough, h⟩ := H [] [44] (by decide)
  obtain ⟨h₁, h₂⟩ := h (enough + 1) (Nat.le_succ enough)
  cases h₁
  cases h₂

/-- **The overload with a vector loses no text** exactly when the vector or the string is not empty:
with an empty vector the whole string is taken for a separator. -/
theorem string_split_vector_conserves_iff (str : List UInt8) (seperators : List (List UInt8)) :
    (∃ pieces enough, (∀ fuel, enough ≤ fuel →
        srsStringSplitVector fuel str seperators = some pieces) ∧
      Conserved seperators pieces str) ↔ seperators ≠ [] ∨ str = [] := by
  constructor
  · rintro ⟨pieces, enough, hsplit, hcons⟩
    by_contra hnot
    obtain ⟨hempty, hstr⟩ := not_or.mp hnot
    rw [not_not] at hempty
    subst hempty
    have hpieces := hsplit (enough + 2) (Nat.le_add_right _ _)
    rw [srsStringSplitVector, splitVectorLoop_nil hstr] at hpieces
    cases hpieces
    exact not_conserved_nil hstr hcons
  · intro h
    by_cases hseps : seperators = []
    · obtain rfl := h.resolve_left (not_not.mpr hseps)
      refine ⟨[], 1, fun fuel hfuel => ?_, conserved_last []⟩
      obtain ⟨fuel, rfl⟩ := Nat.exists_eq_add_of_le' hfuel
      rw [srsStringSplitVector, splitVectorLoop_done (if_pos hseps), if_pos rfl, List.append_nil]
    · obtain ⟨pieces, hcons, hloop⟩ := splitVectorLoop_conserves hseps str
      exact ⟨pieces, str.length + 1, fun fuel hfuel => hloop fuel [] hfuel, hcons⟩

/-- The text `a` is lost. -/
theorem string_split_vector_loses :
    ¬∀ (str : List UInt8) (seperators : List (List UInt8)),
      ∃ pieces enough, (∀ fuel, enough ≤ fuel →
        srsStringSplitVector fuel str seperators = some pieces) ∧
      Conserved seperators pieces str := by
  intro H
  obtain ⟨pieces, enough, hsplit, hcons⟩ := H [97] []
  have hpieces := hsplit (enough + 2) (Nat.le_add_right _ _)
  rw [srsStringSplitVector, splitVectorLoop_nil (List.cons_ne_nil _ _)] at hpieces
  cases hpieces
  exact not_conserved_nil (List.cons_ne_nil _ _) hcons

end StCoroutine.Kernel
