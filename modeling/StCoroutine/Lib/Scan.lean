import Mathlib.Data.List.Find
import StCoroutine.Lib.Search

/-!
# Scan — cutting a text in one pass

A scanner goes over a text from left to right.  Where one of its patterns occurs it cuts, with the
first of them that does, and goes on behind it; otherwise it moves on by one element.

* `scan`: the pieces between the cuts, with those that are empty.
* `Leftmost`: a pattern is the one that the scanner comes to first; `scan_leftmost` cuts there.
* `leftmost_of_find`: so is the one that a search for each pattern of its own finds first.
* `Pieces.scan_eq`: the pieces at one pattern are those of its scanner; `length_scan` counts them.
-/

set_option autoImplicit false

namespace Search

variable {α : Type*} [DecidableEq α]

/-- The first of the patterns that occurs at the start of `s`. -/
def firstAt (pats : List (List α)) (s : List α) : Option (List α) := pats.find? fun pat => pat <+: s

/-- The scanner, with the elements left of the pattern it is in and the piece so far. -/
def scan (pats : List (List α)) : Nat → List α → List α → List (List α)
  | _, piece, [] => [piece]
  | skip + 1, piece, _ :: s => scan pats skip piece s
  | 0, piece, c :: s =>
    match firstAt pats (c :: s) with
    | some pat => piece :: scan pats (pat.length - 1) [] s
    | none => scan pats 0 (piece ++ [c]) s

/-- How often the pattern occurs when no occurrence reaches into the one before; `skip` elements
are left of that. -/
def occurrences (pat : List α) : Nat → List α → Nat
  | _, [] => 0
  | skip + 1, _ :: s => occurrences pat skip s
  | 0, c :: s =>
    if pat <+: c :: s then occurrences pat (pat.length - 1) s + 1 else occurrences pat 0 s

variable {pats : List (List α)} {pat pre rest s t piece : List α} {ps : List (List α)} {n : Nat}

/-- `pat` is the first of the patterns that occur where the first of them occurs. -/
structure Leftmost (pats : List (List α)) (pre pat rest : List α) : Prop where
  here : firstAt pats (pat ++ rest) = some pat
  before : ∀ k < pre.length, firstAt pats ((pre ++ pat ++ rest).drop k) = none

theorem scan_ne_nil (skip : Nat) : scan pats skip piece s ≠ [] := by
  fun_induction scan pats skip piece s with
  | case1 => exact List.cons_ne_nil _ _
  | case2 _ _ _ _ ih => exact ih
  | case3 => exact List.cons_ne_nil _ _
  | case4 _ _ _ _ ih => exact ih

/-- The scanner moves over the rest of a pattern. -/
theorem scan_skip : scan pats t.length piece (t ++ s) = scan pats 0 piece s := by
  induction t with
  | nil => rfl
  | cons c t ih =>
      rw [List.length_cons, List.cons_append, scan]
      exact ih

/-- **The scanner cuts** at the pattern it comes to first. -/
theorem scan_leftmost (hpat : pat ≠ []) (h : Leftmost pats pre pat rest) (piece : List α) :
    scan pats 0 piece (pre ++ pat ++ rest) = (piece ++ pre) :: scan pats 0 [] rest := by
  induction pre generalizing piece with
  | nil =>
      obtain ⟨c, t, rfl⟩ := List.exists_cons_of_ne_nil hpat
      have hhere := h.here
      rw [List.cons_append] at hhere
      rw [List.nil_append, List.cons_append, scan, hhere, List.append_nil]
      exact congrArg _ scan_skip
  | cons c pre ih =>
      have hfirst := h.before 0 (Nat.succ_pos _)
      have htail : Leftmost pats pre pat rest :=
        ⟨h.here, fun k hk => h.before (k + 1) (Nat.succ_lt_succ hk)⟩
      rw [List.drop_zero, List.cons_append, List.cons_append] at hfirst
      rw [List.cons_append, List.cons_append, scan, hfirst]
      dsimp only
      rw [ih htail, List.append_assoc, List.singleton_append]

/-- Where no pattern occurs there is one piece. -/
theorem scan_of_none (h : ∀ k < s.length, firstAt pats (s.drop k) = none) (piece : List α) :
    scan pats 0 piece s = [piece ++ s] := by
  induction s generalizing piece with
  | nil => rw [scan, List.append_nil]
  | cons c s ih =>
      have hfirst := h 0 (Nat.succ_pos _)
      rw [List.drop_zero] at hfirst
      rw [scan, hfirst]
      dsimp only
      rw [ih fun k hk => h (k + 1) (Nat.succ_lt_succ hk), List.append_assoc, List.singleton_append]

/-- **A search for each pattern of its own** comes to the same: the first of those that are found
at the least position is the one that the scanner comes to. -/
theorem leftmost_of_find (hmin : ∀ p ∈ pats, ∀ k, indexOf p s = some k → n ≤ k)
    (hpat : pats.find? (fun p => indexOf p s = some n) = some pat) :
    ∃ pre rest, s = pre ++ pat ++ rest ∧ pre.length = n ∧ Leftmost pats pre pat rest := by
  have hfound : indexOf pat s = some n := by
    simpa using List.find?_some hpat
  obtain ⟨pre, rest, rfl, rfl⟩ := indexOf_split hfound
  refine ⟨pre, rest, rfl, rfl, ?_, fun k hk => ?_⟩
  · -- to occur at the least position and to be found there are the same
    rw [← hpat]
    refine List.find?_congr fun p hp => decide_eq_decide.mpr ?_
    have hdrop : (pre ++ pat ++ rest).drop pre.length = pat ++ rest := by
      rw [List.append_assoc, List.drop_left]
    rw [← hdrop]
    constructor
    · intro hat
      obtain ⟨k, hk, hfirst⟩ := exists_indexOf_le hat
      rw [hfirst, Nat.le_antisymm hk (hmin p hp k hfirst)]
    · exact fun hfirst => (indexOf_eq_some_iff.mp hfirst).2.1
  · -- a pattern that occurs before would have been found before
    refine List.find?_eq_none.mpr fun p hp hat => ?_
    obtain ⟨m, hm, hfirst⟩ := exists_indexOf_le (of_decide_eq_true hat)
    exact absurd (hmin p hp m hfirst) (Nat.not_le.mpr (Nat.lt_of_le_of_lt hm hk))

/-- Patterns that are not empty and not found occur nowhere. -/
theorem firstAt_of_none (hnot : ∀ p ∈ pats, indexOf p s = none) (k : Nat) :
    firstAt pats (s.drop k) = none := by
  refine List.find?_eq_none.mpr fun p hp hat => ?_
  exact indexOf_eq_none_iff.mp (hnot p hp)
    ((of_decide_eq_true hat).isInfix.trans (List.drop_suffix k s).isInfix)

/-! ### One pattern -/

theorem firstAt_singleton : firstAt [pat] s = if pat <+: s then some pat else none := by
  simp only [firstAt, List.find?_cons, List.find?_nil]
  split <;> simp_all

/-- **The pieces at one pattern** are what its scanner makes of the text. -/
theorem Pieces.scan_eq (hpat : pat ≠ []) (h : Pieces pat s ps) : scan [pat] 0 [] s = ps := by
  induction h with
  | last h =>
      refine scan_of_none (fun k _ => firstAt_of_none (fun p hp => ?_) k) []
      rwa [List.mem_singleton.mp hp]
  | @cut pre rest ps h hrest ih =>
      obtain ⟨-, hat, hbefore⟩ := indexOf_eq_some_iff.mp h
      have hleft : Leftmost [pat] pre pat rest := by
        refine ⟨?_, fun k hk => ?_⟩
        · rw [firstAt_singleton, if_pos (List.prefix_append pat rest)]
        · rw [firstAt_singleton, if_neg (hbefore k hk)]
      rw [scan_leftmost hpat hleft, List.nil_append, ih]

/-- **There is one piece more** than there are occurrences. -/
theorem length_scan (skip : Nat) (piece s : List α) :
    (scan [pat] skip piece s).length = occurrences pat skip s + 1 := by
  fun_induction scan [pat] skip piece s with
  | case1 => simp [occurrences]
  | case2 _ _ _ _ ih => rw [ih, occurrences]
  | case3 piece c s p hp ih =>
      rw [firstAt_singleton, Option.ite_none_right_eq_some] at hp
      obtain ⟨hat, he⟩ := hp
      cases he
      rw [List.length_cons, ih, occurrences, if_pos hat]
  | case4 piece c s hp ih =>
      rw [firstAt_singleton, ite_eq_right_iff, imp_iff_not nofun] at hp
      rw [ih, occurrences, if_neg hp]

end Search
