import StCoroutine.Kernel.Directory

/-!
# Kernel — the names in a path

`srs_path_basename`, `srs_path_filename` and `srs_path_filext` of `srs_kernel_utility.cpp`.  The
first cuts at the last slash, the other two at the last dot, of whatever they are given.

* `filename_append_filext`: at one and the same string the two cuts at the dot fit.
* `basename_eq_iff`: the extension of a path is that of its last component, unless the last dot is
  in the name of a directory.
-/

set_option autoImplicit false

namespace StCoroutine.Kernel

open Search

def dot : UInt8 := 46

/-- `srs_path_basename`. -/
def srsPathBasename (path : List UInt8) : List UInt8 :=
  match lastIndexOf [slash] path with
  | some pos => if path.length = 1 then path else substr path (pos + 1) path.length
  | none => path

/-- `srs_path_filename`. -/
def srsPathFilename (path : List UInt8) : List UInt8 :=
  match lastIndexOf [dot] path with
  | some pos => substr path 0 pos
  | none => path

/-- `srs_path_filext`. -/
def srsPathFilext (path : List UInt8) : List UInt8 :=
  match lastIndexOf [dot] path with
  | some pos => substr path pos path.length
  | none => []

/-! ### What the cuts give -/

section cuts

variable {p dir name pre ext : List UInt8}

theorem basename_of_not_mem (h : slash ∉ p) : srsPathBasename p = p := by
  rw [srsPathBasename, lastIndexOf_single_eq_none_iff.mpr h]

/-- The base name is what is behind the last slash, in every path but the root. -/
theorem basename_slash (h : slash ∉ name) (hroot : dir ++ slash :: name ≠ [slash]) :
    srsPathBasename (dir ++ slash :: name) = name := by
  have hlen : (dir ++ slash :: name).length ≠ 1 := by
    intro h1
    obtain ⟨c, hc⟩ := List.length_eq_one_iff.mp h1
    have hmem : slash ∈ [c] := hc ▸ List.mem_append_right dir List.mem_cons_self
    rw [← List.mem_singleton.mp hmem] at hc
    exact hroot hc
  rw [srsPathBasename, lastIndexOf_single h]
  dsimp only
  rw [if_neg hlen, substr_behind]

theorem filename_of_not_mem (h : dot ∉ p) : srsPathFilename p = p := by
  rw [srsPathFilename, lastIndexOf_single_eq_none_iff.mpr h]

theorem filext_of_not_mem (h : dot ∉ p) : srsPathFilext p = [] := by
  rw [srsPathFilext, lastIndexOf_single_eq_none_iff.mpr h]

theorem filename_dot (h : dot ∉ ext) : srsPathFilename (pre ++ dot :: ext) = pre := by
  rw [srsPathFilename, lastIndexOf_single h]
  exact substr_front

theorem filext_dot (h : dot ∉ ext) : srsPathFilext (pre ++ dot :: ext) = dot :: ext := by
  rw [srsPathFilext, lastIndexOf_single h]
  refine substr_rest ?_
  rw [List.length_append]
  exact Nat.le_add_left _ _

/-- **The two cuts at the dot** give the string back. -/
theorem filename_append_filext (p : List UInt8) : srsPathFilename p ++ srsPathFilext p = p := by
  by_cases h : dot ∈ p
  · obtain ⟨pre, ext, rfl, hext⟩ := exists_last h
    rw [filename_dot hext, filext_dot hext]
  · rw [filename_of_not_mem h, filext_of_not_mem h, List.append_nil]

theorem filext_eq_nil_iff : srsPathFilext p = [] ↔ dot ∉ p := by
  constructor
  · intro he h
    obtain ⟨pre, ext, rfl, hext⟩ := exists_last h
    rw [filext_dot hext] at he
    cases he
  · exact filext_of_not_mem

/-- The extension is that of a last part that has one. -/
theorem filext_append (h : dot ∈ name) : srsPathFilext (dir ++ name) = srsPathFilext name := by
  obtain ⟨pre, ext, rfl, hext⟩ := exists_last h
  rw [← List.append_assoc, filext_dot hext, filext_dot hext]

theorem filext_slash :
    srsPathFilext name = srsPathFilext (dir ++ slash :: name) ↔ (dot ∈ dir → dot ∈ name) := by
  by_cases hdot : dot ∈ name
  · refine iff_of_true ?_ fun _ => hdot
    have hslash : srsPathFilext ([slash] ++ name) = srsPathFilext name := filext_append hdot
    rw [filext_append (List.mem_cons_of_mem _ hdot)]
    exact hslash.symm
  · -- the component has no extension, and the path has that of a directory, if there is one
    have hne : dot ≠ slash := by decide
    rw [filext_of_not_mem hdot, eq_comm, filext_eq_nil_iff, List.mem_append, List.mem_cons]
    simp only [hne, hdot, or_false, imp_false]

end cuts

/-- **The extension of a path is that of its last component**, exactly when no dot is before the
last slash or there is one behind it, too. -/
theorem basename_eq_iff (p : List UInt8) :
    srsPathBasename p = srsPathFilename (srsPathBasename p) ++ srsPathFilext p ↔
      ∀ dir name, p = dir ++ slash :: name → slash ∉ name → dot ∈ dir → dot ∈ name := by
  have hext : srsPathBasename p = srsPathFilename (srsPathBasename p) ++ srsPathFilext p ↔
      srsPathFilext (srsPathBasename p) = srsPathFilext p := by
    nth_rewrite 1 [← filename_append_filext (srsPathBasename p)]
    exact List.append_cancel_left_eq _ _ _ |>.to_iff
  rw [hext]
  by_cases hs : slash ∈ p
  · obtain ⟨dir, name, rfl, hname⟩ := exists_last hs
    have hcond : (∀ dir' name', dir ++ slash :: name = dir' ++ slash :: name' → slash ∉ name' →
        dot ∈ dir' → dot ∈ name') ↔ (dot ∈ dir → dot ∈ name) := by
      constructor
      · intro h
        exact h dir name rfl hname
      · intro h dir' name' he hname'
        obtain ⟨rfl, rfl⟩ := last_unique he hname hname'
        exact h
    rw [hcond]
    by_cases hroot : dir ++ slash :: name = [slash]
    · rw [hroot]
      refine iff_of_true rfl fun hdot => ?_
      have hmem : dot ∈ [slash] := hroot ▸ List.mem_append_left _ hdot
      exact absurd hmem (by decide)
    · rw [basename_slash hname hroot]
      exact filext_slash
  · rw [basename_of_not_mem hs]
    refine iff_of_true rfl fun dir name he => absurd ?_ hs
    rw [he]
    exact List.mem_append_right _ List.mem_cons_self

/-- The extension of `a.b/c` is `.b/c`, and its base name is `c`. -/
theorem dotted_directory :
    srsPathFilext [97, 46, 98, 47, 99] = [46, 98, 47, 99] ∧
      srsPathBasename [97, 46, 98, 47, 99] ≠
        srsPathFilename (srsPathBasename [97, 46, 98, 47, 99]) ++
          srsPathFilext [97, 46, 98, 47, 99] := by
  decide

end StCoroutine.Kernel
