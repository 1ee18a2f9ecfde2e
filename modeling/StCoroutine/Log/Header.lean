import StCoroutine.Kernel.Clock
import StCoroutine.Lib.Printf

/-!
# Log — the header of a line

`SrsLogLevel` of `srs_kernel_log.hpp` and `srs_log_header` of `srs_service_log.cpp`.  What a logger
does to its buffer and to its outputs is a list of events; the buffer starts at address `0`, and a
`char*` is the bytes in front of its zero byte.
-/

set_option autoImplicit false

namespace StCoroutine.Log
open Bytes Kernel Printf

/-- A text of the source. -/
def text (s : String) : List Byte := s.toList.map fun c => BitVec.ofNat 8 c.toNat

/-- `%d`, or `%0nd` with `n = width`. -/
def decimal (width : Nat) (z : Int) : List Byte :=
  let digits := text (toString z.natAbs)
  if z < 0 then text "-" ++ List.replicate (width - 1 - digits.length) (BitVec.ofNat 8 48) ++ digits
  else List.replicate (width - digits.length) (BitVec.ofNat 8 48) ++ digits

inductive SrsLogLevel where
  | forbidden | verbose | info | trace | warn | error | disabled
  deriving DecidableEq

def SrsLogLevel.value : SrsLogLevel → Nat
  | forbidden => 0x00
  | verbose => 0x01
  | info => 0x02
  | trace => 0x04
  | warn => 0x08
  | error => 0x10
  | disabled => 0x20

/-- What is done to the buffer and to the outputs of a logger: a text is formatted at `off` with
room for `cap` bytes, a byte is stored there, the log file is opened, a line is written to the file
or printed. -/
inductive Event where
  | format (off : Int) (cap : Nat) (text : List Byte)
  | put (off : Int) (c : Byte)
  | openFile (fd : Int)
  | write (fd : Int) (line : List Byte)
  | print (line : List Byte)

/-- The buffer of a logger, and what was done so far. -/
structure Output where
  data : Mem
  events : List Event

namespace Output

/-- `snprintf` and `vsnprintf`, with the size as it is passed. -/
def format (o : Output) (off size : Int) (text : List Byte) : Int × Output :=
  let r := snprintf o.data off (sizeT size) text
  (r.2, ⟨r.1, o.events ++ [.format off (sizeT size) text]⟩)

/-- `buffer[off] = c`. -/
def put (o : Output) (off : Int) (c : Byte) : Output :=
  ⟨store o.data off [c], o.events ++ [.put off c]⟩

end Output

/-- The fields of a `tm` that a header shows. -/
structure Tm where
  year : Int
  mon : Int
  mday : Int
  hour : Int
  min : Int
  sec : Int

/-- What the system tells `srs_log_header`: `none` where a call fails. -/
structure Env where
  gettimeofday : Option Timeval
  gmtime : Int → Option Tm
  localtime : Int → Option Tm
  getpid : Int
  errno : Int

/-- The formats of `srs_log_header`. -/
def headerText (env : Env) (tv : Timeval) (now : Tm) (dangerous : Bool) (tag : Option (List Byte))
    (cid level : List Byte) : List Byte :=
  text "[" ++ decimal 0 (1900 + now.year) ++ text "-" ++ decimal 2 (1 + now.mon) ++ text "-" ++
    decimal 2 now.mday ++ text " " ++ decimal 2 now.hour ++ text ":" ++ decimal 2 now.min ++
    text ":" ++ decimal 2 now.sec ++ text "." ++ decimal 3 (tv.usec.tdiv 1000) ++ text "][" ++
    level ++ text "][" ++ decimal 0 env.getpid ++ text "][" ++ cid ++ text "]" ++
    (if dangerous then text "[" ++ decimal 0 env.errno ++ text "]" else []) ++
    (match tag with
      | some tag => text "[" ++ tag ++ text "]"
      | none => []) ++ text " "

/-- `srs_log_header`: the size of the header, unless it fails. -/
def srsLogHeader (o : Output) (size : Int) (utc dangerous : Bool) (env : Env)
    (tag : Option (List Byte)) (cid level : List Byte) : Option Int × Output :=
  match env.gettimeofday with
  | none => (none, o)
  | some tv =>
    match if utc then env.gmtime tv.sec else env.localtime tv.sec with
    | none => (none, o)
    | some now =>
      let (written, o) := o.format 0 size (headerText env tv now dangerous tag cid level)
      if written ≥ size then (none, o) else if written = -1 then (none, o) else (some written, o)

/-- The header `srs_log_header` produces, if it does not fail before that. -/
def header (utc dangerous : Bool) (env : Env) (tag : Option (List Byte)) (cid level : List Byte) :
    Option (List Byte) :=
  match env.gettimeofday with
  | none => none
  | some tv =>
    (if utc then env.gmtime tv.sec else env.localtime tv.sec).map fun now =>
      headerText env tv now dangerous tag cid level

/-! ### Inside the buffer -/

/-- The event stores only inside a buffer of `size` bytes. -/
def Event.Within (size : Nat) : Event → Prop
  | format off cap _ => 0 ≤ off ∧ off + cap ≤ size
  | put off _ => 0 ≤ off ∧ off < size
  | openFile _ | write .. | print _ => True

/-- The buffer holds what fits of `text`, and all that was done is formatting inside it. -/
structure Output.Good (o : Output) (size : Nat) (text : List Byte) : Prop where
  formats : ∀ e ∈ o.events, ∃ off cap more, e = .format off cap more ∧ e.Within size
  holds : Holds o.data 0 size text

theorem Output.Good.nil {m : Mem} {size : Nat} : Output.Good ⟨m, []⟩ size [] :=
  ⟨fun _ he => absurd he (List.not_mem_nil), holds_nil⟩

/-- **Formatting more text** where the text so far ends. -/
theorem Output.Good.format {o : Output} {size : Nat} {text : List Byte} (h : o.Good size text)
    (hsize : size < 2 ^ 31) (hlt : text.length < size) (more : List Byte) :
    ∃ o', o.format text.length (size - text.length) more = ((more.length : Int), o') ∧
      o'.Good size (text ++ more) := by
  have hroom : (sizeT (size - text.length) : Int) = size - text.length :=
    sizeT_eq (by omega) (by omega)
  have hcap : sizeT ((size : Int) - text.length) = size - text.length := by omega
  refine ⟨_, rfl, ?_, ?_⟩
  · intro e he
    rcases List.mem_append.mp he with he | he
    · exact h.formats e he
    · rw [List.mem_singleton.mp he]
      exact ⟨_, _, _, rfl, Int.natCast_nonneg _, by omega⟩
  · have hs := holds_snprintf h.holds hlt more
    rw [Int.zero_add] at hs
    simpa only [Output.format, hcap] using hs

section logHeader

variable {o : Output} {size : Nat} {utc dangerous : Bool} {env : Env} {tag : Option (List Byte)}
  {cid level : List Byte}

theorem srsLogHeader_none (z : Int) (h : header utc dangerous env tag cid level = none) :
    srsLogHeader o z utc dangerous env tag cid level = (none, o) := by
  unfold header at h
  unfold srsLogHeader
  split
  · rfl
  · next tv htv =>
      rw [htv] at h
      rw [Option.map_eq_none_iff.mp h]

theorem srsLogHeader_some (size : Nat) {x : List Byte}
    (h : header utc dangerous env tag cid level = some x) :
    srsLogHeader o size utc dangerous env tag cid level =
      if x.length < size then (some (x.length : Int), (o.format 0 size x).2)
      else (none, (o.format 0 size x).2) := by
  unfold header at h
  unfold srsLogHeader
  split
  · next htv =>
      rw [htv] at h
      cases h
  · next tv htv =>
      rw [htv] at h
      obtain ⟨now, hnow, rfl⟩ := Option.map_eq_some_iff.mp h
      rw [hnow]
      have hneg : ∀ n : Nat, (n : Int) ≠ -1 := by omega
      by_cases hlt : (headerText env tv now dangerous tag cid level).length < size
      · simp only [Output.format, snprintf, ge_iff_le, Int.ofNat_le, Nat.not_le.mpr hlt, hneg, hlt,
          if_true, if_false]
      · simp only [Output.format, snprintf, ge_iff_le, Int.ofNat_le, Nat.not_lt.mp hlt, hlt,
          if_true, if_false]

/-- What fits into a buffer. -/
theorem Output.Good.header (h : o.Good size []) (hpos : 0 < size) (hsize : size < 2 ^ 31)
    (x : List Byte) : (o.format 0 size x).2.Good size x := by
  obtain ⟨o', ho, hg⟩ := h.format hsize hpos x
  have ho' : (o.format 0 size x).2 = o' := congrArg Prod.snd ho
  rw [ho']
  exact hg

end logHeader

end StCoroutine.Log
