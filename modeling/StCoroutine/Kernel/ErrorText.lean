import StCoroutine.Kernel.Directory
import StCoroutine.Lib.Decimal
import StCoroutine.Lib.Linked
import StCoroutine.Lib.Lts

/-!
# Kernel — what an error says

`SrsCplxError` of `srs_kernel_error.cpp`, with all its fields: the errors are objects in memory, an
error points to the one it wraps, and its description and its summary are printed once and kept in
the object.  `Kernel/Error.lean` has what the rest of the program looks at.

A `Value` is what an error is meant to be: a code and the notes of its creation, under the notes of
every wrap.  Objects and values are matched address by address (`Matches`): same code, same notes,
the pointer at the value below, and a text that was kept is the one that would be printed.  Every
call keeps that (`step_spec`), so that every run of calls says what the values say
(`errors_spec`), whatever was printed before, and a copy says what the original says at every
depth.  Without their places the values are the errors of `Kernel/Error.lean` (`build_error`).

A function returns `none` when a loop has not ended after `fuel` objects, or a pointer points to
nothing.
-/

set_option autoImplicit false

namespace StCoroutine.Kernel.ErrorText
open Linked Lts

/-! ### The objects -/

/-- The members of an `SrsCplxError`. -/
structure Object where
  code : Int
  wrapped : Option Nat
  msg : List UInt8
  func : List UInt8
  file : List UInt8
  line : Int
  cid : List UInt8
  rerrno : Int
  desc : List UInt8
  summary : List UInt8

/-- `SrsCplxError::SrsCplxError`. -/
def Object.new : Object := ⟨ERROR_SUCCESS, none, [], [], [], 0, [], 0, [], []⟩

/-- The objects in memory, in the order of their creation. -/
abbrev Heap := List Object

/-- What `create` and `wrap` are given and find: the place in the source, `errno`, the text that the
format and its arguments make, and the id of the context, if there is one. -/
structure Site where
  func : List UInt8
  file : List UInt8
  line : Int
  errno : Int
  text : List UInt8
  context : Option (List UInt8)

/-- The string in `buffer[4096]` after `vsnprintf`. -/
def Site.buffer (s : Site) : List UInt8 := cStr (s.text.take 4095)

/-- What `create` and `wrap` make of a new object. -/
def Object.made (s : Site) (code : Int) (wrapped : Option Nat) : Object :=
  { Object.new with
    func := cStr s.func, file := cStr s.file, line := s.line, code := code, rerrno := s.errno,
    msg := s.buffer, wrapped := wrapped, cid := s.context.getD Object.new.cid }

/-- `SrsCplxError::create`. -/
def create (h : Heap) (s : Site) (code : Int) : Nat × Heap :=
  (h.length, h ++ [.made s code none])

/-- `SrsCplxError::wrap`: without an error to wrap, the code is the one of a new object. -/
def wrap (h : Heap) (s : Site) (v : Option Nat) : Option (Nat × Heap) :=
  match v with
  | some a => (h[a]?).map fun o => (h.length, h ++ [.made s o.code v])
  | none => some (h.length, h ++ [.made s Object.new.code v])

/-- `SrsCplxError::copy`: the new object is there before what it wraps is copied. -/
def copy : Nat → Heap → Option Nat → Option (Option Nat × Heap)
  | _, h, none => some (none, h)
  | 0, _, some _ => none
  | fuel + 1, h, some src => do
    let err := h.length
    let o ← h[src]?
    let (wrapped, h) ← copy fuel (h ++ [{ Object.new with code := o.code }]) o.wrapped
    let o ← h[src]?
    return (some err, h.modify err fun e =>
      { e with wrapped := wrapped, msg := o.msg, func := o.func, file := o.file, line := o.line,
               cid := o.cid, rerrno := o.rerrno, desc := o.desc })

/-! ### The texts -/

def lit (s : String) : List UInt8 := s.toList.map fun c => UInt8.ofNat c.toNat

/-- `ss << z`. -/
def decimal (z : Int) : List UInt8 :=
  if z < 0 then lit "-" ++ Decimal.digits z.natAbs else Decimal.digits z.natAbs

/-- `ss << endl`. -/
def endl : List UInt8 := lit "\n"

/-- What an object keeps of its creation. -/
structure Note where
  msg : List UInt8
  func : List UInt8
  file : List UInt8
  line : Int
  cid : List UInt8
  rerrno : Int

namespace Note

def message (n : Note) : List UInt8 := lit " : " ++ n.msg

def thread (pid : Int) (n : Note) : List UInt8 :=
  lit "thread [" ++ decimal pid ++ lit "][" ++ cStr n.cid ++ lit "]: " ++ n.func ++
    lit "() [" ++ n.file ++ lit ":" ++ decimal n.line ++ lit "]" ++ lit "[errno=" ++
    decimal n.rerrno ++ lit "]"

end Note

namespace Object

def note (o : Object) : Note := ⟨o.msg, o.func, o.file, o.line, o.cid, o.rerrno⟩

def message (o : Object) : List UInt8 := o.note.message

/-- The line of an object, which is ended when there is a next one. -/
def thread (pid : Int) (o : Object) : List UInt8 :=
  o.note.thread pid ++ if o.wrapped.isSome then endl else []

end Object

/-- `SrsCplxError::description`. -/
def description (fuel : Nat) (pid : Int) (h : Heap) (this : Nat) :
    Option (List UInt8 × Heap) := do
  let o ← h[this]?
  if o.desc = [] then
    let ss := lit "code=" ++ decimal o.code
    let ss ← gather Object.wrapped h Object.message fuel (some this) ss
    let ss := ss ++ endl
    let ss ← gather Object.wrapped h (Object.thread pid) fuel (some this) ss
    return (ss, h.set this { o with desc := ss })
  else return (o.desc, h)

/-- `SrsCplxError::summary`. -/
def summary (fuel : Nat) (h : Heap) (this : Nat) : Option (List UInt8 × Heap) := do
  let o ← h[this]?
  if o.summary = [] then
    let ss ← gather Object.wrapped h Object.message fuel (some this) []
    return (ss, h.set this { o with summary := ss })
  else return (o.summary, h)

/-- `srs_error_desc`. -/
def srsErrorDesc (fuel : Nat) (pid : Int) (h : Heap) (err : Option Nat) :
    Option (List UInt8 × Heap) :=
  match err with
  | some this => description fuel pid h this
  | none => some (lit "Success", h)

/-- `srs_error_summary`. -/
def srsErrorSummary (fuel : Nat) (h : Heap) (err : Option Nat) : Option (List UInt8 × Heap) :=
  match err with
  | some this => summary fuel h this
  | none => some (lit "Success", h)

/-- `srs_error_code`. -/
def srsErrorCode (h : Heap) (err : Option Nat) : Option Int :=
  match err with
  | some this => (h[this]?).map (·.code)
  | none => some ERROR_SUCCESS

/-! ### What an error is -/

def Site.note (s : Site) : Note :=
  ⟨s.buffer, cStr s.func, cStr s.file, s.line, s.context.getD [], s.errno⟩

/-- An error: created with a code, or wrapped around another. -/
inductive Value where
  | root (code : Int) (note : Note)
  | wrapping (note : Note) (wrapped : Value)

namespace Value

/-- **The code** is the one that was given to the creation, under all wraps. -/
def code : Value → Int
  | root code _ => code
  | wrapping _ wrapped => wrapped.code

def note : Value → Note
  | root _ note => note
  | wrapping note _ => note

def wrapped : Value → Option Value
  | root _ _ => none
  | wrapping _ wrapped => some wrapped

/-- The errors from the outermost wrap to the root. -/
def chain : Value → List Value
  | root code note => [root code note]
  | wrapping note wrapped => wrapping note wrapped :: wrapped.chain

/-- **The summary** lists the messages of the chain. -/
def summary (v : Value) : List UInt8 := v.chain.flatMap fun w => w.note.message

/-- **The description**: the code and the summary, and a line for each error of the chain. -/
def description (pid : Int) (v : Value) : List UInt8 :=
  lit "code=" ++ decimal v.code ++ v.summary ++ endl ++
    endl.intercalate (v.chain.map fun w => w.note.thread pid)

end Value

/-- What a user does with the errors made so far, given by their addresses. -/
inductive Op where
  | create (s : Site) (code : Int)
  | wrap (s : Site) (v : Nat)
  | copy (src : Nat)
  | description (err : Nat)
  | summary (err : Nat)

/-- The objects afterwards. -/
def step (fuel : Nat) (pid : Int) (h : Heap) : Op → Option Heap
  | .create s code => some (create h s code).2
  | .wrap s v => (wrap h s (some v)).map Prod.snd
  | .copy src => (copy fuel h (some src)).map Prod.snd
  | .description err => (srsErrorDesc fuel pid h (some err)).map Prod.snd
  | .summary err => (srsErrorSummary fuel h (some err)).map Prod.snd

/-- The text that is returned. -/
def texts (fuel : Nat) (pid : Int) (h : Heap) : Op → List (List UInt8)
  | .description err => ((srsErrorDesc fuel pid h (some err)).map Prod.fst).toList
  | .summary err => ((srsErrorSummary fuel h (some err)).map Prod.fst).toList
  | _ => []

/-- The errors afterwards: a copy is the same error again, and so is what it wraps. -/
def build (vs : List Value) : Op → Option (List Value)
  | .create s code => some (vs ++ [.root code s.note])
  | .wrap s v => (vs[v]?).map fun w => vs ++ [.wrapping s.note w]
  | .copy src => (vs[src]?).map fun v => vs ++ v.chain
  | .description err | .summary err => (vs[err]?).map fun _ => vs

/-- The text that is meant. -/
def said (pid : Int) (vs : List Value) : Op → List (List UInt8)
  | .description err => ((vs[err]?).map (Value.description pid)).toList
  | .summary err => ((vs[err]?).map Value.summary).toList
  | _ => []

/-! ### The chain of an error -/

namespace Value

variable {v w : Value} {vs : List Value}

theorem chain_eq (v : Value) : v.chain = v :: (v.wrapped.map chain).getD [] := by
  cases v <;> rfl

theorem chain_ne_nil (v : Value) : v.chain ≠ [] := by
  rw [chain_eq]
  exact List.cons_ne_nil _ _

theorem chain_head (v : Value) : v.chain[0]? = some v := by
  rw [chain_eq]
  rfl

/-- An error of the chain has a chain that is not longer. -/
theorem length_chain_le (h : w ∈ v.chain) : w.chain.length ≤ v.chain.length := by
  induction v with
  | root code note =>
      rw [List.mem_singleton.mp h]
  | wrapping note v ih =>
      rcases List.mem_cons.mp h with rfl | h
      · exact le_refl _
      · exact (ih h).trans (Nat.le_succ _)

end Value

/-! ### Objects and errors -/

/-- The pointer is `NULL`, or at the error. -/
abbrev Points (vs : List Value) : Option Nat → Option Value → Prop :=
  Option.Rel fun a v => vs[a]? = some v

/-- The object `o` is the error `v`, where `vs` are the errors at all addresses. -/
structure Matches (pid : Int) (vs : List Value) (o : Object) (v : Value) : Prop where
  code : o.code = v.code
  note : o.note = v.note
  wrapped : Points vs o.wrapped v.wrapped
  desc : o.desc = [] ∨ o.desc = v.description pid
  summary : o.summary = [] ∨ o.summary = v.summary

/-- The objects `h` are the errors `vs`. -/
def Stores (pid : Int) (h : Heap) (vs : List Value) : Prop := List.Forall₂ (Matches pid vs) h vs

section stores

variable {pid : Int} {h : Heap} {vs ws : List Value} {os : List Object} {o : Object} {v : Value}
  {a fuel : Nat}

theorem Matches.append (hm : Matches pid vs o v) (ws : List Value) :
    Matches pid (vs ++ ws) o v := by
  have hrel := hm.wrapped
  refine ⟨hm.code, hm.note, ?_, hm.desc, hm.summary⟩
  generalize o.wrapped = p at hrel ⊢
  generalize v.wrapped = q at hrel ⊢
  cases hrel with
  | none => exact .none
  | some ha => exact .some (lookup_append ha)

theorem Matches.null {code : Int} {n : Note} (hm : Matches pid vs o (.root code n)) :
    o.wrapped = none := by
  have hrel := hm.wrapped
  cases hw : o.wrapped with
  | none => rfl
  | some b =>
      rw [hw] at hrel
      cases hrel

theorem Matches.points {n : Note} (hm : Matches pid vs o (.wrapping n v)) :
    ∃ b, o.wrapped = some b ∧ vs[b]? = some v := by
  have hrel := hm.wrapped
  cases hw : o.wrapped with
  | none =>
      rw [hw] at hrel
      cases hrel
  | some b =>
      rw [hw] at hrel
      cases hrel with
      | some hb => exact ⟨b, rfl, hb⟩

/-- New objects are behind the old ones. -/
theorem Stores.append (hs : Stores pid h vs) (hn : List.Forall₂ (Matches pid (vs ++ ws)) os ws) :
    Stores pid (h ++ os) (vs ++ ws) :=
  List.rel_append (hs.imp fun _ _ hm => hm.append ws) hn

theorem Stores.length_eq (hs : Stores pid h vs) : h.length = vs.length := List.Forall₂.length_eq hs

/-- **The objects of a chain** are met one after the other. -/
theorem Stores.chain (hs : Stores pid h vs) (hv : vs[a]? = some v) :
    ∃ os, Chain Object.wrapped h (some a) os ∧ List.Forall₂ (Matches pid vs) os v.chain := by
  induction v generalizing a with
  | root code note =>
      obtain ⟨o, ho, hm⟩ := forall₂_lookup hs hv
      exact ⟨[o], .cons ho (hm.null ▸ .nil), .cons hm .nil⟩
  | wrapping note w ih =>
      obtain ⟨o, ho, hm⟩ := forall₂_lookup hs hv
      obtain ⟨b, hw, hb⟩ := hm.points
      obtain ⟨os, hc, hos⟩ := ih hb
      exact ⟨o :: os, .cons ho (hw ▸ hc), .cons hm hos⟩

/-- The messages of the objects are those of the errors. -/
theorem flatMap_message {us : List Value} (hos : List.Forall₂ (Matches pid vs) os us) :
    os.flatMap Object.message = us.flatMap fun w => w.note.message := by
  induction hos with
  | nil => rfl
  | cons hm _ ih =>
      rw [List.flatMap_cons, List.flatMap_cons, ih, Object.message, hm.note]

/-- The lines of the objects, each but the last one ended, are those of the errors with line ends
between them. -/
theorem flatMap_thread (hos : List.Forall₂ (Matches pid vs) os v.chain) :
    os.flatMap (Object.thread pid) = endl.intercalate (v.chain.map fun w => w.note.thread pid) := by
  induction v generalizing os with
  | root code note =>
      obtain ⟨o, os', hm, hnil, rfl⟩ := List.forall₂_cons_right_iff.mp hos
      cases hnil
      have hlast : o.thread pid = o.note.thread pid := by
        rw [Object.thread, hm.null]
        exact List.append_nil _
      rw [Value.chain, List.flatMap_singleton, List.map_singleton, List.intercalate_singleton,
        hlast, hm.note]
  | wrapping note w ih =>
      obtain ⟨o, os', hm, hos', rfl⟩ := List.forall₂_cons_right_iff.mp hos
      obtain ⟨b, hb, -⟩ := hm.points
      have hline : o.thread pid = o.note.thread pid ++ endl := by
        rw [Object.thread, hb]
        rfl
      have hne : (w.chain.map fun w => w.note.thread pid) ≠ [] :=
        mt List.map_eq_nil_iff.mp w.chain_ne_nil
      rw [Value.chain, List.flatMap_cons, ih hos', List.map_cons,
        List.intercalate_cons_of_ne_nil hne, hline, hm.note]

/-! ### The texts of an object -/

/-- **A description** is that of the error, kept or not. -/
theorem description_spec (hs : Stores pid h vs) (hv : vs[a]? = some v)
    (hfuel : v.chain.length ≤ fuel) :
    ∃ h', description fuel pid h a = some (v.description pid, h') ∧ Stores pid h' vs := by
  obtain ⟨o, ho, hm⟩ := forall₂_lookup hs hv
  obtain ⟨os, hc, hos⟩ := hs.chain hv
  have hlen : os.length ≤ fuel := hos.length_eq ▸ hfuel
  by_cases hd : o.desc = []
  · have htext : lit "code=" ++ decimal o.code ++ os.flatMap Object.message ++ endl ++
        os.flatMap (Object.thread pid) = v.description pid := by
      rw [hm.code, flatMap_message hos, flatMap_thread hos]
      rfl
    refine ⟨_, ?_, forall₂_set hs hv (b := { o with desc := v.description pid }) ?_⟩
    · simp only [description, ho, Option.bind_eq_bind, Option.bind_some, if_pos hd,
        hc.gather hlen, htext]
      rfl
    · exact ⟨hm.code, hm.note, hm.wrapped, .inr rfl, hm.summary⟩
  · refine ⟨h, ?_, hs⟩
    simp only [description, ho, Option.bind_eq_bind, Option.bind_some, if_neg hd]
    rw [hm.desc.resolve_left hd]
    rfl

theorem summary_spec (hs : Stores pid h vs) (hv : vs[a]? = some v)
    (hfuel : v.chain.length ≤ fuel) :
    ∃ h', summary fuel h a = some (v.summary, h') ∧ Stores pid h' vs := by
  obtain ⟨o, ho, hm⟩ := forall₂_lookup hs hv
  obtain ⟨os, hc, hos⟩ := hs.chain hv
  have hlen : os.length ≤ fuel := hos.length_eq ▸ hfuel
  by_cases hd : o.summary = []
  · have htext : os.flatMap Object.message = v.summary := flatMap_message hos
    refine ⟨_, ?_, forall₂_set hs hv (b := { o with summary := v.summary }) ?_⟩
    · simp only [summary, ho, Option.bind_eq_bind, Option.bind_some, if_pos hd,
        hc.gather hlen, List.nil_append, htext]
      rfl
    · exact ⟨hm.code, hm.note, hm.wrapped, hm.desc, .inr rfl⟩
  · refine ⟨h, ?_, hs⟩
    simp only [summary, ho, Option.bind_eq_bind, Option.bind_some, if_neg hd]
    rw [hm.summary.resolve_left hd]
    rfl

/-! ### Copies -/

/-- The copies of the objects of a chain, when the first one goes to the address `a`. -/
def copies : Nat → List Object → List Object
  | _, [] => []
  | a, o :: os =>
    { o with wrapped := if os = [] then none else some (a + 1), summary := [] } :: copies (a + 1) os

/-- **A copy of a chain** is behind all objects, one object after the other. -/
theorem copy_chain {p : Option Nat} (hc : Chain Object.wrapped h p os) (hfuel : os.length ≤ fuel) :
    copy fuel h p = some (if os = [] then none else some h.length, h ++ copies h.length os) := by
  induction os generalizing fuel h p with
  | nil =>
      cases hc
      simp [copy, copies]
  | cons o os ih =>
      cases hc with
      | @cons a _ _ ho hos =>
          obtain ⟨fuel, rfl⟩ := Nat.exists_eq_add_of_le' (Nat.lt_of_lt_of_le (Nat.succ_pos _) hfuel)
          have hrec := ih (hos.append [{ Object.new with code := o.code }])
            (Nat.le_of_succ_le_succ hfuel)
          have hsrc : (h ++ [{ Object.new with code := o.code }] ++ copies (h.length + 1) os)[a]? =
              some o := lookup_append (lookup_append ho)
          rw [List.length_append, List.length_singleton] at hrec
          simp only [copy, ho, hrec, hsrc, Option.bind_eq_bind, Option.bind_some]
          rw [List.append_assoc, List.singleton_append, modify_append,
            if_neg (List.cons_ne_nil o os)]
          rfl

/-- The copies of the objects of an error are the errors of its chain. -/
theorem copies_match (hos : List.Forall₂ (Matches pid vs) os v.chain) (us : List Value) :
    List.Forall₂ (Matches pid (us ++ v.chain)) (copies us.length os) v.chain := by
  induction v generalizing os us with
  | root code note =>
      obtain ⟨o, os', hm, hnil, rfl⟩ := List.forall₂_cons_right_iff.mp hos
      cases hnil
      exact .cons ⟨hm.code, hm.note, .none, hm.desc, .inl rfl⟩ .nil
  | wrapping note w ih =>
      obtain ⟨o, os', hm, hos', rfl⟩ := List.forall₂_cons_right_iff.mp hos
      have hne : os' ≠ [] := by
        rintro rfl
        exact w.chain_ne_nil (List.forall₂_nil_left_iff.mp hos')
      have hnext : (us ++ (Value.wrapping note w).chain)[us.length + 1]? = some w := by
        rw [List.getElem?_append_right (Nat.le_add_right _ 1), Nat.add_sub_cancel_left]
        exact w.chain_head
      have htail := ih hos' (us ++ [.wrapping note w])
      rw [List.length_append, List.length_singleton, List.append_assoc,
        List.singleton_append] at htail
      refine .cons ⟨hm.code, hm.note, ?_, hm.desc, .inl rfl⟩ htail
      dsimp only
      rw [if_neg hne]
      exact .some hnext

theorem copy_spec (hs : Stores pid h vs) (hv : vs[a]? = some v)
    (hfuel : v.chain.length ≤ fuel) :
    ∃ h', copy fuel h (some a) = some (some h.length, h') ∧ Stores pid h' (vs ++ v.chain) := by
  obtain ⟨os, hc, hos⟩ := hs.chain hv
  have hlen : os.length ≤ fuel := hos.length_eq ▸ hfuel
  have hne : os ≠ [] := by
    rintro rfl
    exact v.chain_ne_nil (List.forall₂_nil_left_iff.mp hos)
  refine ⟨h ++ copies h.length os, ?_, ?_⟩
  · rw [copy_chain hc hlen, if_neg hne]
  · rw [hs.length_eq]
    exact hs.append (copies_match hos vs)

/-! ### One call -/

/-- **Every call does to the objects what it does to the errors**, and says what they say. -/
theorem step_spec {op : Op} {vs' : List Value} (hs : Stores pid h vs)
    (hfuel : ∀ v ∈ vs, v.chain.length ≤ fuel) (hb : build vs op = some vs') :
    ∃ h', step fuel pid h op = some h' ∧ texts fuel pid h op = said pid vs op ∧
      Stores pid h' vs' := by
  cases op with
  | create s code =>
      cases hb
      refine ⟨_, rfl, rfl, hs.append (.cons ?_ .nil)⟩
      exact ⟨rfl, rfl, .none, .inl rfl, .inl rfl⟩
  | wrap s a =>
      obtain ⟨v, hv, rfl⟩ := Option.map_eq_some_iff.mp hb
      obtain ⟨o, ho, hm⟩ := forall₂_lookup hs hv
      refine ⟨h ++ [.made s o.code (some a)], ?_, rfl, hs.append (.cons ?_ .nil)⟩
      · simp only [step, wrap, ho, Option.map_some]
      · exact ⟨hm.code, rfl, .some (lookup_append hv), .inl rfl, .inl rfl⟩
  | copy src =>
      obtain ⟨v, hv, rfl⟩ := Option.map_eq_some_iff.mp hb
      obtain ⟨h', hc, hs'⟩ := copy_spec hs hv (hfuel v (List.mem_of_getElem? hv))
      exact ⟨h', by rw [step, hc]; rfl, rfl, hs'⟩
  | description err =>
      obtain ⟨v, hv, rfl⟩ := Option.map_eq_some_iff.mp hb
      obtain ⟨h', hd, hs'⟩ := description_spec hs hv (hfuel v (List.mem_of_getElem? hv))
      refine ⟨h', ?_, ?_, hs'⟩
      · rw [step, srsErrorDesc, hd]
        rfl
      · rw [texts, srsErrorDesc, hd, said, hv]
        rfl
  | summary err =>
      obtain ⟨v, hv, rfl⟩ := Option.map_eq_some_iff.mp hb
      obtain ⟨h', hd, hs'⟩ := summary_spec hs hv (hfuel v (List.mem_of_getElem? hv))
      refine ⟨h', ?_, ?_, hs'⟩
      · rw [step, srsErrorSummary, hd]
        rfl
      · rw [texts, srsErrorSummary, hd, said, hv]
        rfl

end stores

/-! ### Every run of calls -/

section runs

variable {pid : Int} {h : Heap} {vs ws : List Value} {v : Value} {ops : List Op} {fuel a : Nat}

/-- An error that was made stays. -/
theorem build_extends (hb : exec build ws ops = some vs) : ws <+: vs := by
  refine exec_inv (I := (ws <+: ·)) (List.prefix_refl ws) ?_ hb
  intro us op vs h hs
  cases op with
  | create s code =>
      cases hs
      exact h.trans (List.prefix_append us _)
  | wrap s v | copy v =>
      obtain ⟨w, -, rfl⟩ := Option.map_eq_some_iff.mp hs
      exact h.trans (List.prefix_append us _)
  | description err | summary err =>
      obtain ⟨w, -, rfl⟩ := Option.map_eq_some_iff.mp hs
      exact h

/-- No chain is longer than the run. -/
theorem length_chain_le (hb : exec build [] ops = some vs) :
    ∀ v ∈ vs, v.chain.length ≤ ops.length := by
  refine exec_ind (P := fun ops vs => ∀ v ∈ vs, v.chain.length ≤ ops.length)
    (fun v hv => absurd hv List.not_mem_nil) ?_ hb
  intro ops us op vs _ ih hs v hv
  rw [List.length_append, List.length_singleton]
  have hold : ∀ w ∈ us, w.chain.length ≤ ops.length + 1 :=
    fun w hw => (ih w hw).trans (Nat.le_succ _)
  cases op with
  | create s code =>
      cases hs
      rcases List.mem_append.mp hv with hv | hv
      · exact hold v hv
      · rw [List.mem_singleton.mp hv]
        exact Nat.le_add_left 1 _
  | wrap s a =>
      obtain ⟨w, hw, rfl⟩ := Option.map_eq_some_iff.mp hs
      rcases List.mem_append.mp hv with hv | hv
      · exact hold v hv
      · rw [List.mem_singleton.mp hv]
        exact Nat.succ_le_succ (ih w (List.mem_of_getElem? hw))
  | copy src =>
      obtain ⟨w, hw, rfl⟩ := Option.map_eq_some_iff.mp hs
      rcases List.mem_append.mp hv with hv | hv
      · exact hold v hv
      · exact (Value.length_chain_le hv).trans (hold w (List.mem_of_getElem? hw))
  | description err | summary err =>
      obtain ⟨w, -, rfl⟩ := Option.map_eq_some_iff.mp hs
      exact hold v hv

/-- **Every run of calls goes through**, and leaves the objects as the errors are. -/
theorem exec_spec (pid : Int) (hb : exec build [] ops = some vs) (hfuel : ops.length ≤ fuel) :
    ∃ h, exec (step fuel pid) [] ops = some h ∧ Stores pid h vs := by
  refine exec_ind (P := fun ops vs => ops.length ≤ fuel →
    ∃ h, exec (step fuel pid) [] ops = some h ∧ Stores pid h vs) ?_ ?_ hb hfuel
  · intro _
    exact ⟨[], rfl, .nil⟩
  · intro ops us op vs hus ih hs hlen
    rw [List.length_append, List.length_singleton] at hlen
    obtain ⟨h, hh, hst⟩ := ih (Nat.le_of_succ_le hlen)
    have hdepth : ∀ v ∈ us, v.chain.length ≤ fuel :=
      fun v hv => (length_chain_le hus v hv).trans (Nat.le_of_succ_le hlen)
    obtain ⟨h', hh', -, hst'⟩ := step_spec hst hdepth hs
    exact ⟨h', exec_snoc.mpr ⟨h, hh, hh'⟩, hst'⟩

/-- What is said of an error does not change. -/
theorem said_extend {op : Op} {us : List Value} (hs : build ws op = some us) (hp : ws <+: vs) :
    said pid ws op = said pid vs op := by
  cases op with
  | create | wrap | copy => rfl
  | description err | summary err =>
      obtain ⟨w, hw, -⟩ := Option.map_eq_some_iff.mp hs
      rw [said, said, hw, lookup_extend hp hw]

/-- The objects before a call of a run are those of errors that are there in the end. -/
theorem before_call (pid : Int) {pre post : List Op} {op : Op} (hops : ops = pre ++ op :: post)
    (hb : exec build [] ops = some vs) (hfuel : ops.length ≤ fuel) :
    ∃ m ws us, exec (step fuel pid) [] pre = some m ∧ Stores pid m ws ∧ build ws op = some us ∧
      ws <+: vs ∧ us <+: vs ∧ ∀ v ∈ ws, v.chain.length ≤ fuel := by
  subst hops
  rw [List.length_append, List.length_cons] at hfuel
  obtain ⟨ws, hws, hrest⟩ := exec_append.mp hb
  obtain ⟨us, hus, hpost⟩ := exec_cons.mp hrest
  have hlen : pre.length ≤ fuel := (Nat.le_add_right _ _).trans hfuel
  obtain ⟨m, hm, hst⟩ := exec_spec pid hws hlen
  exact ⟨m, ws, us, hm, hst, hus, build_extends hrest, build_extends hpost,
    fun v hv => (length_chain_le hws v hv).trans hlen⟩

/-! ### The errors of the rest of the program -/

/-- The error as `Kernel/Error.lean` has it, with its messages read by `txt`. -/
def Value.error (txt : List UInt8 → String) : Value → SrsCplxError
  | root code note => .root code (txt note.msg)
  | wrapping note wrapped => .wrapping wrapped.code (txt note.msg) (wrapped.error txt)

@[simp] theorem Value.code_error (txt : List UInt8 → String) (v : Value) :
    (v.error txt).code = v.code := by
  cases v <;> rfl

/-- **Creating, wrapping and copying** are those of `Kernel/Error.lean`. -/
theorem build_error {us : List Value} {op : Op} (txt : List UInt8 → String)
    (hb : build ws op = some us) :
    match op with
    | .create s code => us.map (Value.error txt) =
        ws.map (Value.error txt) ++ [.create code (txt s.buffer)]
    | .wrap s a => ∃ v, ws[a]? = some v ∧ us.map (Value.error txt) =
        ws.map (Value.error txt) ++ [.wrap (some (v.error txt)) (txt s.buffer)]
    | .copy a => ∃ v, ws[a]? = some v ∧
        (us.map (Value.error txt))[ws.length]? = some (v.error txt).copy
    | .description _ | .summary _ => us = ws := by
  cases op with
  | create s code =>
      cases hb
      rw [List.map_append]
      rfl
  | wrap s a =>
      obtain ⟨v, hv, rfl⟩ := Option.map_eq_some_iff.mp hb
      refine ⟨v, hv, ?_⟩
      rw [List.map_append, List.map_singleton, SrsCplxError.wrap, Value.code_error]
      rfl
  | copy a =>
      obtain ⟨v, hv, rfl⟩ := Option.map_eq_some_iff.mp hb
      refine ⟨v, hv, ?_⟩
      rw [List.getElem?_map, List.getElem?_append_right (le_refl _), Nat.sub_self, v.chain_head,
        Option.map_some, SrsCplxError.copy_eq]
  | description err | summary err =>
      obtain ⟨v, -, rfl⟩ := Option.map_eq_some_iff.mp hb
      rfl

/-- The code that is found at an address is the one that `Kernel/Error.lean` finds. -/
theorem Stores.code_error (hs : Stores pid h vs) (hv : vs[a]? = some v)
    (txt : List UInt8 → String) :
    srsErrorCode h (some a) = some (SrsError.code (some ⟨a, v.error txt⟩)) := by
  obtain ⟨o, ho, hm⟩ := forall₂_lookup hs hv
  rw [srsErrorCode, ho, Option.map_some, hm.code, SrsError.code_some, Value.code_error]

/-! ### What an error shows -/

/-- The error `k` wraps below. -/
def deref (h : Heap) : Nat → Option Nat → Option Nat
  | 0, err => err
  | k + 1, err => deref h k (err.bind fun a => (h[a]?).bind Object.wrapped)

/-- The code, the description and the summary of an error. -/
def shows (fuel : Nat) (pid : Int) (h : Heap) (err : Option Nat) :
    Option (Int × List UInt8 × List UInt8) := do
  let code ← srsErrorCode h err
  let desc ← srsErrorDesc fuel pid h err
  let summary ← srsErrorSummary fuel h err
  return (code, desc.1, summary.1)

/-- **An object shows its error**. -/
theorem Stores.shows (hs : Stores pid h vs) (hv : vs[a]? = some v)
    (hfuel : v.chain.length ≤ fuel) :
    shows fuel pid h (some a) = some (v.code, v.description pid, v.summary) := by
  obtain ⟨o, ho, hm⟩ := forall₂_lookup hs hv
  obtain ⟨_, hd, -⟩ := description_spec hs hv hfuel
  obtain ⟨_, hsum, -⟩ := summary_spec hs hv hfuel
  simp only [ErrorText.shows, srsErrorCode, srsErrorDesc, srsErrorSummary, ho, hd, hsum,
    Option.map_some, Option.bind_eq_bind, Option.bind_some, hm.code]
  rfl

/-- The pointer to what is wrapped. -/
theorem Stores.points_wrapped (hs : Stores pid h vs) {err : Option Nat} {w : Option Value}
    (hp : Points vs err w) :
    Points vs (err.bind fun a => (h[a]?).bind Object.wrapped) (w.bind Value.wrapped) := by
  cases hp with
  | none => exact .none
  | some hv =>
      obtain ⟨o, ho, hm⟩ := forall₂_lookup hs hv
      rw [Option.bind_some, Option.bind_some, ho, Option.bind_some]
      exact hm.wrapped

/-- Pointers to one error show the same, at every depth. -/
theorem Stores.shows_deref (hs : Stores pid h vs) (hfuel : ∀ v ∈ vs, v.chain.length ≤ fuel)
    (k : Nat) {err err' : Option Nat} {w : Option Value} (hp : Points vs err w)
    (hp' : Points vs err' w) :
    ∃ r, ErrorText.shows fuel pid h (deref h k err) = some r ∧
      ErrorText.shows fuel pid h (deref h k err') = some r ∧
      (deref h k err = none ↔ deref h k err' = none) := by
  induction k generalizing err err' w with
  | zero =>
      cases hp with
      | none =>
          cases hp'
          exact ⟨_, rfl, rfl, Iff.rfl⟩
      | some hv =>
          cases hp' with
          | some hv' =>
              have hlen := hfuel _ (List.mem_of_getElem? hv)
              exact ⟨_, hs.shows hv hlen, hs.shows hv' hlen, iff_of_false nofun nofun⟩
  | succ k ih => exact ih (hs.points_wrapped hp) (hs.points_wrapped hp')

/-- **What an error says.**  In every run of calls that create, wrap, copy and print errors, each
of them made before it is used: every call returns; whatever was printed before, each text is that
of the final error; in the end every object shows the code of its root, and the description and the
summary of its chain; and a copy shows what the original shows, at every depth. -/
theorem errors_spec (pid : Int) (hb : exec build [] ops = some vs) (hfuel : ops.length ≤ fuel) :
    ∃ h, exec (step fuel pid) [] ops = some h ∧ h.length = vs.length ∧
      (∀ a v, vs[a]? = some v →
        shows fuel pid h (some a) = some (v.code, v.description pid, v.summary)) ∧
      (∀ pre op post, ops = pre ++ op :: post → ∃ m, exec (step fuel pid) [] pre = some m ∧
        texts fuel pid m op = said pid vs op) ∧
      ∀ pre a post, ops = pre ++ .copy a :: post → ∃ m c m',
        exec (step fuel pid) [] pre = some m ∧ copy fuel m (some a) = some (some c, m') ∧
        ∀ k, ∃ r, shows fuel pid h (deref h k (some a)) = some r ∧
          shows fuel pid h (deref h k (some c)) = some r ∧
          (deref h k (some a) = none ↔ deref h k (some c) = none) := by
  have hdepth : ∀ v ∈ vs, v.chain.length ≤ fuel := fun v hv => (length_chain_le hb v hv).trans hfuel
  obtain ⟨h, hh, hst⟩ := exec_spec pid hb hfuel
  refine ⟨h, hh, hst.length_eq, ?_, ?_, ?_⟩
  · intro a v hv
    exact hst.shows hv (hdepth v (List.mem_of_getElem? hv))
  · intro pre op post hops
    obtain ⟨m, ws, us, hm, hms, hus, hws, -, hlen⟩ := before_call pid hops hb hfuel
    obtain ⟨-, -, ht, -⟩ := step_spec hms hlen hus
    exact ⟨m, hm, ht.trans (said_extend hus hws)⟩
  · intro pre a post hops
    obtain ⟨m, ws, us, hm, hms, hus, hws, huvs, hlen⟩ := before_call pid hops hb hfuel
    obtain ⟨v, hv, rfl⟩ := Option.map_eq_some_iff.mp hus
    obtain ⟨m', hc, -⟩ := copy_spec hms hv (hlen v (List.mem_of_getElem? hv))
    have hcopy : (ws ++ v.chain)[m.length]? = some v := by
      rw [hms.length_eq, List.getElem?_append_right (le_refl _), Nat.sub_self]
      exact v.chain_head
    have hsrc : Points vs (some a) (some v) := .some (lookup_extend hws hv)
    have hdst : Points vs (some m.length) (some v) := .some (lookup_extend huvs hcopy)
    exact ⟨m, m.length, m', hm, hc, fun k => hst.shows_deref hdepth k hsrc hdst⟩

/-- A wrapped error is copied after its summary was printed, and the copy shows the same. -/
theorem errors_spec_copied :
    ∃ h, exec (step 4 42) [] [.create ⟨lit "open", lit "net.cpp", 7, 2, lit "bind", none⟩ 1002,
        .wrap ⟨lit "run", lit "app.cpp", 9, 0, lit "listen", none⟩ 0, .summary 1, .copy 1] =
          some h ∧
      shows 4 42 h (some 1) = shows 4 42 h (some 2) := by
  obtain ⟨vs, hb, hsame, v, hv⟩ : ∃ vs, exec build []
      [.create ⟨lit "open", lit "net.cpp", 7, 2, lit "bind", none⟩ 1002,
        .wrap ⟨lit "run", lit "app.cpp", 9, 0, lit "listen", none⟩ 0, .summary 1, .copy 1] =
          some vs ∧
      vs[1]? = vs[2]? ∧ ∃ v, vs[2]? = some v := ⟨_, rfl, rfl, _, rfl⟩
  obtain ⟨h, hh, -, hshow, -⟩ := errors_spec 42 hb (le_refl 4)
  exact ⟨h, hh, (hshow 1 v (hsame.trans hv)).trans (hshow 2 v hv).symm⟩

end runs

end StCoroutine.Kernel.ErrorText
