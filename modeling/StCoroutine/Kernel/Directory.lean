import Mathlib.Data.List.TakeWhile
import StCoroutine.Kernel.Error
import StCoroutine.Lib.Search

/-!
# Kernel — creating directories

`srs_path_exists`, `srs_do_create_dir_recursively` and `srs_create_dir_recursively` of
`srs_kernel_utility.cpp`, in a file system of directories only.  The logs are left out.

A function that changes the file system returns the new one.  The parent of a directory is
created first, and it is what is before the last slash: for a directory under the root, this is not
the root but the empty path.

* `create_spec`: the directories that are created, when the recursion does not come to the root.
* `create_dir_recursively_iff`: when the path and what is above it is created.
-/

set_option autoImplicit false

namespace StCoroutine.Kernel

open Search

def slash : UInt8 := 47

/-! ### The file system -/

/-- The directory that a path is in: the root for `/x`, and `.` without a slash. -/
def parentOf (path : List UInt8) : List UInt8 :=
  match lastIndexOf [slash] path with
  | none => [46]
  | some 0 => [slash]
  | some pos => substr path 0 pos

/-- The directories that exist.  The root and the current directory are among them. -/
structure FileSystem where
  isDir : List UInt8 → Bool
  root : isDir [slash] = true
  cwd : isDir [46] = true
  empty : isDir [] = false

inductive Errno where
  | EEXIST
  | ENOENT
  deriving DecidableEq, Repr

namespace FileSystem

/-- The file system with one more directory. -/
def add (fs : FileSystem) (path : List UInt8) (h : path ≠ []) : FileSystem where
  isDir q := fs.isDir q || decide (q = path)
  root := by rw [fs.root, Bool.true_or]
  cwd := by rw [fs.cwd, Bool.true_or]
  empty := by rw [fs.empty, Bool.false_or, decide_eq_false h.symm]

theorem isDir_add {fs : FileSystem} {path : List UInt8} (h : path ≠ []) (q : List UInt8) :
    (fs.add path h).isDir q = true ↔ fs.isDir q = true ∨ q = path := by
  rw [add, Bool.or_eq_true, decide_eq_true_iff]

/-- `mkdir`: its `errno`, which is `none` if it succeeds. -/
def mkdir (fs : FileSystem) (path : List UInt8) : Option Errno × FileSystem :=
  if h : path = [] then (some .ENOENT, fs)
  else if fs.isDir path then (some .EEXIST, fs)
  else if fs.isDir (parentOf path) then (none, fs.add path h)
  else (some .ENOENT, fs)

end FileSystem

/-! ### The functions -/

/-- `c_str()`: a string ends at its first `NUL`. -/
def cStr (s : List UInt8) : List UInt8 := s.takeWhile (· ≠ 0)

/-- `srs_path_exists`. -/
def srsPathExists (fs : FileSystem) (path : List UInt8) : Bool := fs.isDir (cStr path)

/-- The end of `srs_do_create_dir_recursively`: the current directory is created. -/
def createCurrentDir (fs : FileSystem) (dir : List UInt8) : Int × FileSystem :=
  match fs.mkdir (cStr dir) with
  | (some errno, fs) =>
    if errno = .EEXIST then (ERROR_SYSTEM_DIR_EXISTS, fs) else (ERROR_SYSTEM_CREATE_DIR, fs)
  | (none, fs) => (ERROR_SUCCESS, fs)

/-- `srs_do_create_dir_recursively`. -/
def srsDoCreateDirRecursively (fs : FileSystem) (dir : List UInt8) : Int × FileSystem :=
  if srsPathExists fs dir then (ERROR_SYSTEM_DIR_EXISTS, fs)
  else
    match _h : lastIndexOf [slash] dir with
    | some pos =>
      let parent := substr dir 0 pos
      let (ret, fs) := srsDoCreateDirRecursively fs parent
      if ret ≠ ERROR_SUCCESS ∧ ret ≠ ERROR_SYSTEM_DIR_EXISTS then (ret, fs)
      else createCurrentDir fs dir
    | none => createCurrentDir fs dir
termination_by dir.length
decreasing_by
  obtain ⟨pre, rest, hdir, rfl⟩ := lastIndexOf_split _h
  rw [hdir, List.append_assoc, substr_front, List.length_append, List.length_append,
    List.length_singleton]
  omega

/-- `srs_create_dir_recursively`, when the allocator returns `a` for its error. -/
def srsCreateDirRecursively (fs : FileSystem) (a : Nat) (dir : List UInt8) :
    SrsError × FileSystem :=
  let (ret, fs) := srsDoCreateDirRecursively fs dir
  if ret = ERROR_SYSTEM_DIR_EXISTS ∨ ret = ERROR_SUCCESS then (none, fs)
  else
    let text := String.ofList ((cStr dir).map fun c => Char.ofNat c.toNat)
    (SrsError.new a ret ("create dir " ++ text), fs)

/-! ### Paths -/

/-- The name of a directory in its parent. -/
structure FileName where
  text : List UInt8
  ne_nil : text ≠ []
  slash_not_mem : slash ∉ text
  nul_not_mem : 0 ∉ text

/-- A path: the names of its components, from the root or the current directory on. -/
inductive Path where
  | root
  | cwd
  | child (parent : Path) (name : FileName)

namespace Path

/-- How a path is written. -/
def text : Path → List UInt8
  | root => [slash]
  | cwd => [46]
  | child root name => slash :: name.text
  | child cwd name => name.text
  | child (child parent name') name => (child parent name').text ++ slash :: name.text

/-- The path and what is above it. -/
def ancestors : Path → List Path
  | root => [root]
  | cwd => [cwd]
  | child parent name => child parent name :: parent.ancestors

/-- The first component of a path. -/
def first : Path → Path
  | root => root
  | cwd => cwd
  | child root name => child root name
  | child cwd name => child cwd name
  | child (child parent name') _ => (child parent name').first

/-- The path is from the root. -/
def Absolute : Path → Prop
  | root => True
  | cwd => False
  | child parent _ => parent.Absolute

theorem nul_not_mem_text (p : Path) : 0 ∉ p.text := by
  induction p with
  | root => decide
  | cwd => decide
  | child parent name ih =>
      cases parent with
      | root => exact List.not_mem_cons_of_ne_of_not_mem (by decide) name.nul_not_mem
      | cwd => exact name.nul_not_mem
      | child parent name' =>
          rw [text, List.mem_append, not_or]
          exact ⟨ih, List.not_mem_cons_of_ne_of_not_mem (by decide) name.nul_not_mem⟩

theorem cStr_text (p : Path) : cStr p.text = p.text := by
  refine List.takeWhile_eq_self_iff.mpr fun c hc => decide_eq_true ?_
  rintro rfl
  exact nul_not_mem_text p hc

theorem text_ne_nil (p : Path) : p.text ≠ [] := by
  cases p with
  | root => exact List.cons_ne_nil _ _
  | cwd => exact List.cons_ne_nil _ _
  | child parent name =>
      cases parent with
      | root => exact List.cons_ne_nil _ _
      | cwd => exact name.ne_nil
      | child parent name' => exact List.append_ne_nil_of_right_ne_nil _ (List.cons_ne_nil _ _)

/-- Where the last slash of a path is. -/
theorem lastIndexOf_text (parent : Path) (name : FileName) :
    lastIndexOf [slash] (child parent name).text =
      match parent with
      | root => some 0
      | cwd => none
      | child parent name' => some (child parent name').text.length := by
  cases parent with
  | root =>
      have hlast : lastIndexOf [slash] ([] ++ slash :: name.text) = some [].length :=
        lastIndexOf_single name.slash_not_mem
      exact hlast
  | cwd => exact lastIndexOf_single_eq_none_iff.mpr name.slash_not_mem
  | child parent name' => exact lastIndexOf_single name.slash_not_mem

theorem parentOf_text (parent : Path) (name : FileName) :
    parentOf (child parent name).text = parent.text := by
  rw [parentOf, lastIndexOf_text]
  cases parent with
  | root => rfl
  | cwd => rfl
  | child parent name' =>
      dsimp only
      cases hlen : (child parent name').text.length with
      | zero => exact absurd (List.length_eq_zero_iff.mp hlen) (text_ne_nil _)
      | succ n =>
          show substr (child (child parent name') name).text 0 (n + 1) = (child parent name').text
          rw [← hlen, text, substr_front]

/-! #### What is above a path -/

theorem ancestors_trans {d e p : Path} (h₁ : d ∈ e.ancestors) (h₂ : e ∈ p.ancestors) :
    d ∈ p.ancestors := by
  induction p with
  | root => exact List.mem_singleton.mp h₂ ▸ h₁
  | cwd => exact List.mem_singleton.mp h₂ ▸ h₁
  | child parent name ih =>
      rcases List.mem_cons.mp h₂ with rfl | h₂
      · exact h₁
      · exact List.mem_cons_of_mem _ (ih h₂)

theorem first_mem_ancestors (p : Path) : p.first ∈ p.ancestors := by
  induction p with
  | root => exact List.mem_cons_self
  | cwd => exact List.mem_cons_self
  | child parent name ih =>
      cases parent with
      | root => exact List.mem_cons_self
      | cwd => exact List.mem_cons_self
      | child parent name' => exact List.mem_cons_of_mem _ ih

/-- What is above a directory has a shorter path, but for where the path starts. -/
theorem length_lt_of_mem_ancestors {d parent : Path} (name : FileName) (h : d ∈ parent.ancestors) :
    d = root ∨ d = cwd ∨ d.text.length < (child parent name).text.length := by
  induction parent generalizing name with
  | root => exact .inl (List.mem_singleton.mp h)
  | cwd => exact .inr (.inl (List.mem_singleton.mp h))
  | child parent name' ih =>
      have hlt : (child parent name').text.length <
          (child (child parent name') name).text.length := by
        rw [text, List.length_append, List.length_cons]
        omega
      rcases List.mem_cons.mp h with rfl | h
      · exact .inr (.inr hlt)
      · rcases ih name' h with h | h | h
        · exact .inl h
        · exact .inr (.inl h)
        · exact .inr (.inr (h.trans hlt))

/-- A directory that is not there is none of those above a path that is. -/
theorem text_ne_of_mem_ancestors {fs : FileSystem} {d parent : Path} {name : FileName}
    (h : d ∈ parent.ancestors) (hd : ¬ fs.isDir d.text = true) :
    d.text ≠ (child parent name).text := by
  rcases length_lt_of_mem_ancestors name h with rfl | rfl | hlt
  · exact absurd fs.root hd
  · exact absurd fs.cwd hd
  · exact fun heq => Nat.ne_of_lt hlt (congrArg List.length heq)

end Path

/-! ### The recursion -/

section recursion

variable {fs : FileSystem} {dir : List UInt8}

theorem do_of_exists (h : srsPathExists fs dir = true) :
    srsDoCreateDirRecursively fs dir = (ERROR_SYSTEM_DIR_EXISTS, fs) := by
  rw [srsDoCreateDirRecursively, if_pos h]

theorem do_of_no_slash (h : srsPathExists fs dir = false) (hpos : lastIndexOf [slash] dir = none) :
    srsDoCreateDirRecursively fs dir = createCurrentDir fs dir := by
  rw [srsDoCreateDirRecursively, if_neg (by rw [h]; exact Bool.false_ne_true)]
  split
  · next pos hat => cases hpos.symm.trans hat
  · rfl

theorem do_of_slash (h : srsPathExists fs dir = false) {pos : Nat}
    (hpos : lastIndexOf [slash] dir = some pos) :
    srsDoCreateDirRecursively fs dir =
      let (ret, fs) := srsDoCreateDirRecursively fs (substr dir 0 pos)
      if ret ≠ ERROR_SUCCESS ∧ ret ≠ ERROR_SYSTEM_DIR_EXISTS then (ret, fs)
      else createCurrentDir fs dir := by
  rw [srsDoCreateDirRecursively, if_neg (by rw [h]; exact Bool.false_ne_true)]
  split
  · next pos' hat =>
      cases hpos.symm.trans hat
      rfl
  · next hat => cases hpos.symm.trans hat

/-- There is no parent of a directory under the root for the recursion. -/
theorem do_nil :
    srsDoCreateDirRecursively fs [] = (ERROR_SYSTEM_CREATE_DIR, fs) := by
  have hpath : srsPathExists fs [] = false := fs.empty
  rw [do_of_no_slash hpath rfl]
  rfl

/-- A path that does not exist: what is done for what is before its last slash comes first. -/
theorem do_of_missing {parent : Path} {name : FileName}
    (h : ¬ fs.isDir (Path.child parent name).text = true) :
    srsDoCreateDirRecursively fs (Path.child parent name).text =
      match parent with
      | .root => (ERROR_SYSTEM_CREATE_DIR, fs)
      | .cwd => createCurrentDir fs (Path.child .cwd name).text
      | .child parent name' =>
        let (ret, fs) := srsDoCreateDirRecursively fs (Path.child parent name').text
        if ret ≠ ERROR_SUCCESS ∧ ret ≠ ERROR_SYSTEM_DIR_EXISTS then (ret, fs)
        else createCurrentDir fs (Path.child (.child parent name') name).text := by
  have hpath : srsPathExists fs (Path.child parent name).text = false := by
    rw [srsPathExists, Path.cStr_text, Bool.eq_false_iff]
    exact h
  have hlast := Path.lastIndexOf_text parent name
  cases parent with
  | root =>
      have hsub : substr (Path.child .root name).text 0 0 = [] := rfl
      rw [do_of_slash hpath hlast, hsub, do_nil]
      rfl
  | cwd => exact do_of_no_slash hpath hlast
  | child parent name' =>
      have hsub : substr (Path.child (.child parent name') name).text 0
          (Path.child parent name').text.length = (Path.child parent name').text := by
        rw [substr, List.drop_zero, Path.text, List.take_left]
      rw [do_of_slash hpath hlast, hsub]

end recursion

/-- Creating a directory in one that exists. -/
theorem createCurrentDir_spec {fs : FileSystem} {p : Path}
    (h : fs.isDir (parentOf p.text) = true) :
    ((createCurrentDir fs p.text).1 = ERROR_SUCCESS ∨
      (createCurrentDir fs p.text).1 = ERROR_SYSTEM_DIR_EXISTS) ∧
      ∀ q, (createCurrentDir fs p.text).2.isDir q = true ↔ fs.isDir q = true ∨ q = p.text := by
  rw [createCurrentDir, p.cStr_text, FileSystem.mkdir, dif_neg p.text_ne_nil]
  by_cases hex : fs.isDir p.text = true
  · rw [if_pos hex]
    refine ⟨.inr rfl, fun q => (or_iff_left_of_imp ?_).symm⟩
    rintro rfl
    exact hex
  · rw [if_neg hex, if_pos h]
    exact ⟨.inl rfl, fs.isDir_add p.text_ne_nil⟩

/-- The directories that are created for a path: those above it, up to one that exists. -/
def missing (fs : FileSystem) : Path → List Path
  | .root => []
  | .cwd => []
  | .child parent name =>
    if fs.isDir (Path.child parent name).text then []
    else .child parent name :: missing fs parent

/-- What has been done for a path. -/
structure Created (fs : FileSystem) (p : Path) (r : Int × FileSystem) : Prop where
  ret : r.1 = ERROR_SUCCESS ∨ r.1 = ERROR_SYSTEM_DIR_EXISTS
  isDir : ∀ q, r.2.isDir q = true ↔ fs.isDir q = true ∨ ∃ d ∈ missing fs p, q = d.text

theorem created_of_exists {fs : FileSystem} {p : Path} (h : fs.isDir p.text = true)
    (hp : missing fs p = []) : Created fs p (srsDoCreateDirRecursively fs p.text) := by
  rw [do_of_exists (by rw [srsPathExists, p.cStr_text, h])]
  refine ⟨.inr rfl, fun q => (or_iff_left_of_imp ?_).symm⟩
  rintro ⟨d, hd, -⟩
  rw [hp] at hd
  cases hd

/-- A path for which everything has been done exists. -/
theorem Created.exists {fs : FileSystem} {p : Path} {r : Int × FileSystem} (h : Created fs p r) :
    r.2.isDir p.text = true := by
  rw [h.isDir]
  cases p with
  | root => exact .inl fs.root
  | cwd => exact .inl fs.cwd
  | child parent name =>
      rw [missing]
      split
      · next hex => exact .inl hex
      · exact .inr ⟨_, List.mem_cons_self, rfl⟩

/-- **What is created**, below a first component that exists. -/
theorem create_spec {fs : FileSystem} (p : Path)
    (hfirst : p.Absolute → fs.isDir p.first.text = true) :
    Created fs p (srsDoCreateDirRecursively fs p.text) := by
  induction p with
  | root => exact created_of_exists fs.root rfl
  | cwd => exact created_of_exists fs.cwd rfl
  | child parent name ih =>
      by_cases hex : fs.isDir (Path.child parent name).text = true
      · exact created_of_exists hex (if_pos hex)
      · have hmiss : missing fs (.child parent name) = .child parent name :: missing fs parent :=
          if_neg hex
        rw [do_of_missing hex]
        cases parent with
        | root => exact absurd (hfirst trivial) hex
        | cwd =>
            have hparent : fs.isDir (parentOf (Path.child .cwd name).text) = true := by
              rw [Path.parentOf_text]
              exact fs.cwd
            obtain ⟨hret, hdir⟩ := createCurrentDir_spec hparent
            refine ⟨hret, fun q => ?_⟩
            rw [hdir, hmiss, missing, List.exists_mem_cons_iff]
            simp
        | child parent name' =>
            have hcreated := ih hfirst
            dsimp only
            generalize srsDoCreateDirRecursively fs (Path.child parent name').text = r at hcreated ⊢
            obtain ⟨ret, fs₁⟩ := r
            have hgo : ¬ (ret ≠ ERROR_SUCCESS ∧ ret ≠ ERROR_SYSTEM_DIR_EXISTS) :=
              fun h => hcreated.ret.elim h.1 h.2
            have hparent :
                fs₁.isDir (parentOf (Path.child (.child parent name') name).text) = true := by
              rw [Path.parentOf_text]
              exact hcreated.exists
            obtain ⟨hret, hdir⟩ := createCurrentDir_spec hparent
            dsimp only
            rw [if_neg hgo]
            refine ⟨hret, fun q => ?_⟩
            rw [hdir, hcreated.isDir, hmiss, List.exists_mem_cons_iff, or_assoc,
              or_comm (a := q = _)]

/-! ### What does not go through -/

theorem isDir_of_createCurrentDir {fs : FileSystem} {p : Path} {q : List UInt8}
    (h : (createCurrentDir fs p.text).2.isDir q = true) (hq : q ≠ p.text) :
    fs.isDir q = true := by
  rw [createCurrentDir, p.cStr_text, FileSystem.mkdir, dif_neg p.text_ne_nil] at h
  split_ifs at h with hex hparent
  · exact h
  · exact (fs.isDir_add p.text_ne_nil q).mp h |>.resolve_right hq
  · exact h

/-- **A first component under the root** is never created. -/
theorem first_not_created {fs : FileSystem} {p : Path} (habs : p.Absolute)
    (h : ¬ fs.isDir p.first.text = true) :
    ¬ (srsDoCreateDirRecursively fs p.text).2.isDir p.first.text = true := by
  induction p with
  | root => exact absurd fs.root h
  | cwd => exact habs.elim
  | child parent name ih =>
      by_cases hex : fs.isDir (Path.child parent name).text = true
      · rwa [do_of_exists (by rw [srsPathExists, Path.cStr_text, hex])]
      · rw [do_of_missing hex]
        cases parent with
        | root => exact h
        | cwd => exact habs.elim
        | child parent name' =>
            have hrest := ih habs h
            dsimp only
            generalize srsDoCreateDirRecursively fs (Path.child parent name').text = r at hrest ⊢
            obtain ⟨ret, fs₁⟩ := r
            dsimp only
            split
            · exact hrest
            · intro hnew
              refine hrest (isDir_of_createCurrentDir hnew ?_)
              exact Path.text_ne_of_mem_ancestors (Path.first_mem_ancestors _) h

/-! ### Every path -/

section above

variable {fs : FileSystem} {p : Path}

theorem missing_subset {d : Path} (h : d ∈ missing fs p) : d ∈ p.ancestors := by
  induction p with
  | root => cases h
  | cwd => cases h
  | child parent name ih =>
      rw [missing] at h
      split at h
      · cases h
      · rcases List.mem_cons.mp h with rfl | h
        · exact List.mem_cons_self
        · exact List.mem_cons_of_mem _ (ih h)

/-- Below a directory that is there, nothing above it is missing. -/
theorem exists_or_missing
    (h : ∀ e ∈ p.ancestors, fs.isDir e.text = true → ∀ d ∈ e.ancestors, fs.isDir d.text = true) :
    ∀ d ∈ p.ancestors, fs.isDir d.text = true ∨ d ∈ missing fs p := by
  induction p with
  | root =>
      intro d hd
      exact .inl (List.mem_singleton.mp hd ▸ fs.root)
  | cwd =>
      intro d hd
      exact .inl (List.mem_singleton.mp hd ▸ fs.cwd)
  | child parent name ih =>
      intro d hd
      rw [missing]
      split
      · next hex => exact .inl (h _ List.mem_cons_self hex d hd)
      · rcases List.mem_cons.mp hd with rfl | hd
        · exact .inr List.mem_cons_self
        · refine (ih (fun e he => h e (List.mem_cons_of_mem _ he)) d hd).imp_right ?_
          exact List.mem_cons_of_mem _

/-- Where all that was not there is created, nothing was missing above what was. -/
theorem above_of_created (h : ∀ d ∈ p.ancestors,
    fs.isDir d.text = true ∨ ∃ m ∈ missing fs p, d.text = m.text) :
    ∀ e ∈ p.ancestors, fs.isDir e.text = true → ∀ d ∈ e.ancestors, fs.isDir d.text = true := by
  induction p with
  | root =>
      intro e he _ d hd
      rw [List.mem_singleton.mp he] at hd
      exact List.mem_singleton.mp hd ▸ fs.root
  | cwd =>
      intro e he _ d hd
      rw [List.mem_singleton.mp he] at hd
      exact List.mem_singleton.mp hd ▸ fs.cwd
  | child parent name ih =>
      intro e he hdir d hd
      by_cases hex : fs.isDir (Path.child parent name).text = true
      · obtain h | ⟨m, hm, -⟩ := h d (Path.ancestors_trans hd he)
        · exact h
        · rw [missing, if_pos hex] at hm
          cases hm
      · rcases List.mem_cons.mp he with rfl | he
        · exact absurd hdir hex
        · refine ih (fun d hd => ?_) e he hdir d hd
          by_contra hnot
          obtain ⟨hno, hnomiss⟩ := not_or.mp hnot
          obtain ⟨m, hm, heq⟩ := (h d (List.mem_cons_of_mem _ hd)).resolve_left hno
          rw [missing, if_neg hex] at hm
          rcases List.mem_cons.mp hm with rfl | hm
          · exact Path.text_ne_of_mem_ancestors hd hno heq
          · exact hnomiss ⟨m, hm, heq⟩

end above

theorem createDir_eq (fs : FileSystem) (a : Nat) (dir : List UInt8) :
    ((srsCreateDirRecursively fs a dir).1 = none ↔
      (srsDoCreateDirRecursively fs dir).1 = ERROR_SYSTEM_DIR_EXISTS ∨
        (srsDoCreateDirRecursively fs dir).1 = ERROR_SUCCESS) ∧
      (srsCreateDirRecursively fs a dir).2 = (srsDoCreateDirRecursively fs dir).2 := by
  rw [srsCreateDirRecursively]
  obtain ⟨ret, fs'⟩ := srsDoCreateDirRecursively fs dir
  dsimp only
  split
  · next h => exact ⟨iff_of_true rfl h, rfl⟩
  · next h => exact ⟨iff_of_false (SrsError.new_ne_none _ _ _) h, rfl⟩

/-- The path and what is above it are there, and nothing else that was not there before. -/
def CreatesPath (fs : FileSystem) (a : Nat) (p : Path) : Prop :=
  (srsCreateDirRecursively fs a p.text).1 = none ∧
    (∀ d ∈ p.ancestors, (srsCreateDirRecursively fs a p.text).2.isDir d.text = true) ∧
      ∀ q, (srsCreateDirRecursively fs a p.text).2.isDir q = true →
        fs.isDir q = true ∨ ∃ d ∈ p.ancestors, q = d.text

/-- **Creating directories** succeeds, with the path and what is above it there and nothing else,
if and only if the first component of an absolute path was there, and everything that is above what
was there. -/
theorem create_dir_recursively_iff (fs : FileSystem) (a : Nat) (p : Path) :
    CreatesPath fs a p ↔ (p.Absolute → fs.isDir p.first.text = true) ∧
      ∀ e ∈ p.ancestors, fs.isDir e.text = true → ∀ d ∈ e.ancestors, fs.isDir d.text = true := by
  obtain ⟨hret, hfs⟩ := createDir_eq fs a p.text
  rw [CreatesPath, hret, hfs]
  constructor
  · rintro ⟨-, hdirs, -⟩
    have hfirst : p.Absolute → fs.isDir p.first.text = true := by
      intro habs
      by_contra hno
      exact first_not_created habs hno (hdirs _ p.first_mem_ancestors)
    exact ⟨hfirst, above_of_created fun d hd => ((create_spec p hfirst).isDir _).mp (hdirs d hd)⟩
  · rintro ⟨hfirst, habove⟩
    have hcreated := create_spec p hfirst
    refine ⟨hcreated.ret.symm, fun d hd => ?_, fun q hq => ?_⟩
    · rw [hcreated.isDir]
      exact (exists_or_missing habove d hd).imp_right fun hm => ⟨d, hm, rfl⟩
    · refine ((hcreated.isDir q).mp hq).imp_right ?_
      rintro ⟨d, hd, rfl⟩
      exact ⟨d, missing_subset hd, rfl⟩

/-- `/a` cannot be created where there is nothing but the root. -/
theorem create_dir_recursively_under_root : ¬∀ fs a p, CreatesPath fs a p := by
  intro H
  let fs : FileSystem := ⟨fun q => decide (q = [slash] ∨ q = [46]), rfl, rfl, rfl⟩
  let p : Path := .child .root ⟨[97], by decide, by decide, by decide⟩
  have h := (H fs 0 p).2.1 p List.mem_cons_self
  rw [(createDir_eq fs 0 p.text).2] at h
  exact first_not_created (p := p) trivial (by decide) h

end StCoroutine.Kernel
