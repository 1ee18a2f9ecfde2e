import StCoroutine.Kernel.Buffer
import StCoroutine.Log.Header

/-!
# Log — the file log

`SrsFileLog` of `srs_app_log.cpp`: a level method formats the header, the text of the caller and,
for an error, what `errno` says, one behind the other, and writes what fits of it as a line.
`file_log_line`: the line is the first 8190 bytes and a newline.
-/

set_option autoImplicit false

namespace StCoroutine.Log
open Bytes Kernel Printf

/-- `LOG_TAIL`. -/
def newline : Byte := BitVec.ofNat 8 10

/-- What a level method is called with, and what it is told by the system: the text that `fmt` and
its arguments make, `errno` behind it, and the descriptor of the log file if it is opened. -/
structure Call where
  env : Env
  tag : Option (List Byte)
  cid : List Byte
  body : List Byte
  errno : Int
  strerror : Int → List Byte
  opened : Int

structure SrsFileLog where
  level : SrsLogLevel
  logData : Mem
  fd : Int
  logToFileTank : Bool
  utc : Bool

namespace SrsFileLog

/-- What `printf` shows of a line: it stops at a zero byte. -/
def printed (level : SrsLogLevel) (line : List Byte) : List Byte :=
  let shown := line.takeWhile (· ≠ 0)
  if level.value ≤ SrsLogLevel.trace.value then shown
  else if level = .warn then text "\x1b[33m" ++ shown ++ text "\x1b[0m"
  else text "\x1b[31m" ++ shown ++ text "\x1b[0m"

def writeLog (t : SrsFileLog) (o : Output) (size : Int) (level : SrsLogLevel) (opened : Int) :
    List Event × SrsFileLog :=
  let size := min (8192 - 1 - 1) size
  let o := o.put size newline
  let line := load o.data 0 (size + 1).toNat
  let t := { t with logData := o.data }
  if ¬t.logToFileTank then (o.events ++ [.print (printed level line)], t)
  else
    let fd := if t.fd < 0 then opened else t.fd
    (o.events ++ (if t.fd < 0 then [.openFile opened] else []) ++
      (if 0 < fd then [.write fd line] else []), { t with fd := fd })

/-- The header and the text of the caller: what there is then, and the size, unless the header
fails. -/
def format (t : SrsFileLog) (dangerous : Bool) (name : String) (c : Call) : Option Int × Output :=
  match srsLogHeader ⟨t.logData, []⟩ 8192 t.utc dangerous c.env c.tag c.cid (text name) with
  | (none, o) => (none, o)
  | (some size, o) =>
    let (n, o) := o.format size (8192 - size) c.body
    (some (int (size + n)), o)

/-- A level method with no more than that. -/
def log (t : SrsFileLog) (level : SrsLogLevel) (dangerous : Bool) (name : String) (c : Call) :
    List Event × SrsFileLog :=
  if t.level.value > level.value then ([], t)
  else
    match t.format dangerous name c with
    | (none, o) => (o.events, { t with logData := o.data })
    | (some size, o) => t.writeLog o size level c.opened

def verbose (t : SrsFileLog) (c : Call) : List Event × SrsFileLog := t.log .verbose false "Verb" c

def info (t : SrsFileLog) (c : Call) : List Event × SrsFileLog := t.log .info false "Debug" c

def trace (t : SrsFileLog) (c : Call) : List Event × SrsFileLog := t.log .trace false "Trace" c

def warn (t : SrsFileLog) (c : Call) : List Event × SrsFileLog := t.log .warn true "Warn" c

def error (t : SrsFileLog) (c : Call) : List Event × SrsFileLog :=
  if t.level.value > SrsLogLevel.error.value then ([], t)
  else
    match t.format true "Error" c with
    | (none, o) => (o.events, { t with logData := o.data })
    | (some size, o) =>
      if c.errno ≠ 0 ∧ size < 8192 then
        let (n, o) := o.format size (8192 - size) (text "(" ++ c.strerror c.errno ++ text ")")
        t.writeLog o (int (size + n)) .error c.opened
      else t.writeLog o size .error c.opened

end SrsFileLog

/-! ### The level methods -/

inductive Method where
  | verbose | info | trace | warn | error

namespace Method

def level : Method → SrsLogLevel
  | verbose => .verbose
  | info => .info
  | trace => .trace
  | warn => .warn
  | error => .error

def dangerous : Method → Bool
  | verbose | info | trace => false
  | warn | error => true

/-- The level as the header shows it. -/
def name : Method → String
  | verbose => "Verb"
  | info => "Debug"
  | trace => "Trace"
  | warn => "Warn"
  | error => "Error"

/-- What the method adds to the text of the caller. -/
def suffix (m : Method) (c : Call) : List Byte :=
  match m with
  | verbose | info | trace | warn => []
  | error => if c.errno ≠ 0 then text "(" ++ c.strerror c.errno ++ text ")" else []

end Method

def SrsFileLog.call (t : SrsFileLog) (c : Call) : Method → List Event × SrsFileLog
  | .verbose => t.verbose c
  | .info => t.info c
  | .trace => t.trace c
  | .warn => t.warn c
  | .error => t.error c

/-- The lines that are passed to `write`. -/
def writes (es : List Event) : List (List Byte) :=
  es.filterMap fun
    | .write _ line => some line
    | _ => none

@[simp] theorem writes_append (es fs : List Event) :
    writes (es ++ fs) = writes es ++ writes fs := by
  rw [writes, List.filterMap_append]
  rfl

/-- What is logged at this level goes to the log file. -/
def SrsFileLog.Writes (t : SrsFileLog) (c : Call) (level : SrsLogLevel) : Prop :=
  t.level.value ≤ level.value ∧ t.logToFileTank = true ∧
    0 < (if t.fd < 0 then c.opened else t.fd)

/-- What a level method does with the text `y`. -/
structure SrsFileLog.Logs (t : SrsFileLog) (c : Call) (level : SrsLogLevel) (y : List Byte)
    (es : List Event) : Prop where
  within : ∀ e ∈ es, e.Within 8192
  line : t.Writes c level → writes es = [y.take 8190 ++ [newline]]
  silent : ¬t.Writes c level → writes es = []

/-! ### One line -/

theorem Output.Good.writes_nil {o : Output} {size : Nat} {y : List Byte} (h : o.Good size y) :
    writes o.events = [] := by
  rw [writes, List.filterMap_eq_nil_iff]
  intro e he
  obtain ⟨off, cap, more, rfl, _⟩ := h.formats e he
  rfl

theorem Output.Good.within {o : Output} {size : Nat} {y : List Byte} (h : o.Good size y) :
    ∀ e ∈ o.events, e.Within size := by
  intro e he
  obtain ⟨_, _, _, _, hw⟩ := h.formats e he
  exact hw

theorem Output.Good.more {o : Output} {y : List Byte} (h : o.Good 8192 y) (hlt : y.length < 8192)
    (more : List Byte) :
    ∃ o', o.format y.length (8192 - y.length) more = ((more.length : Int), o') ∧
      o'.Good 8192 (y ++ more) :=
  h.format (by decide) hlt more

/-- The line that `write_log` makes of `y`. -/
theorem Output.Good.load_put {o : Output} {y : List Byte} (h : o.Good 8192 y) :
    load (o.put (min (8192 - 1 - 1) (y.length : Int)) newline).data 0
        (min (8192 - 1 - 1) (y.length : Int) + 1).toNat = y.take 8190 ++ [newline] := by
  obtain ⟨n, hn⟩ : ∃ n : Nat, n = min 8190 y.length := ⟨_, rfl⟩
  have hcast : min (8192 - 1 - 1) (y.length : Int) = n := by omega
  -- the newline is behind what is kept of `y`, or in place of the byte after that
  have hfront : load (store o.data n [newline]) 0 n = y.take 8190 := by
    have hsame : load (store o.data n [newline]) 0 n = load o.data 0 n :=
      load_congr fun b _ hb => store_of_outside (.inl (by omega))
    rw [hsame, h.holds.load_take (by omega) (by omega), hn, ← List.take_eq_take_min]
  have hlast : load (store o.data n [newline]) n 1 = [newline] := load_store
  rw [hcast, Output.put, show ((n : Int) + 1).toNat = n + 1 by omega, load_add, hfront,
    Int.zero_add, hlast]

section outputs

variable {p : Prop} [Decidable p] {size : Nat} {fd : Int} {line : List Byte} {e : Event}

theorem Event.Within.of_ite {x : Event} (hx : x.Within size) (h : e ∈ if p then [x] else []) :
    e.Within size := by
  split at h
  · rw [List.mem_singleton.mp h]
    exact hx
  · exact absurd h List.not_mem_nil

@[simp] theorem writes_openFile : writes (if p then [Event.openFile fd] else []) = [] := by
  split <;> rfl

@[simp] theorem writes_write :
    writes (if p then [Event.write fd line] else []) = if p then [line] else [] := by
  split <;> rfl

end outputs

namespace SrsFileLog

variable {t : SrsFileLog} {c : Call}

/-- **`write_log`** writes what fits and a newline, and the newline is inside the buffer. -/
theorem writeLog_spec {o : Output} {y : List Byte} (h : o.Good 8192 y) (level : SrsLogLevel)
    (opened : Int) :
    (∀ e ∈ (t.writeLog o y.length level opened).1, e.Within 8192) ∧
      writes (t.writeLog o y.length level opened).1 =
        if t.logToFileTank = true ∧ 0 < (if t.fd < 0 then opened else t.fd)
        then [y.take 8190 ++ [newline]] else [] := by
  have hin : Event.Within 8192 (.put (min (8192 - 1 - 1) (y.length : Int)) newline) :=
    ⟨by omega, by omega⟩
  have hput : ∀ e ∈ (o.put (min (8192 - 1 - 1) (y.length : Int)) newline).events,
      e.Within 8192 := by
    intro e he
    rcases List.mem_append.mp he with he | he
    · exact h.within e he
    · rw [List.mem_singleton.mp he]
      exact hin
  have hnone : writes (o.put (min (8192 - 1 - 1) (y.length : Int)) newline).events = [] := by
    rw [Output.put, writes_append, h.writes_nil]
    rfl
  have hline := h.load_put
  rw [writeLog]
  -- from here on only the line matters, not how it was made
  generalize o.put (min (8192 - 1 - 1) (y.length : Int)) newline = o' at hput hnone hline ⊢
  generalize hfd : (if t.fd < 0 then opened else t.fd) = fd
  cases htank : t.logToFileTank with
  | false =>
      refine ⟨?_, ?_⟩
      · intro e he
        rcases List.mem_append.mp he with he | he
        · exact hput e he
        · rw [List.mem_singleton.mp he]
          exact trivial
      · have hno : ¬(false = true ∧ 0 < fd) := by simp
        rw [if_neg hno]
        exact (writes_append _ _).trans (by rw [hnone]; rfl)
  | true =>
      refine ⟨?_, ?_⟩
      · intro e he
        rcases List.mem_append.mp he with he | he
        · rcases List.mem_append.mp he with he | he
          · exact hput e he
          · exact .of_ite (x := .openFile opened) trivial he
        · exact .of_ite (x := .write fd _) trivial he
      · simp only [not_true_eq_false, if_false, writes_append, hnone, hline]
        rw [writes_openFile, writes_write]
        simp

/-- The header and the text of the caller, one behind the other. -/
theorem format_spec {dangerous : Bool} {name : String} {x : List Byte}
    (hx : header t.utc dangerous c.env c.tag c.cid (text name) = some x) (hlen : x.length < 8192)
    (htotal : (x ++ c.body).length < 2 ^ 31) :
    ∃ o, t.format dangerous name c = (some ((x ++ c.body).length : Int), o) ∧
      o.Good 8192 (x ++ c.body) := by
  have hs : srsLogHeader ⟨t.logData, []⟩ 8192 t.utc dangerous c.env c.tag c.cid (text name) =
      (some (x.length : Int), (Output.format ⟨t.logData, []⟩ 0 8192 x).2) :=
    (srsLogHeader_some 8192 hx).trans (if_pos hlen)
  have hh : (Output.format ⟨t.logData, []⟩ 0 8192 x).2.Good 8192 x :=
    Output.Good.nil.header (by decide) (by decide) x
  obtain ⟨o, ho, hg⟩ := hh.more hlen c.body
  refine ⟨o, ?_, hg⟩
  have hsize : int ((x.length : Int) + c.body.length) = (x ++ c.body).length := by
    rw [← int_natCast htotal, List.length_append, Int.natCast_add]
  simp only [format, hs, ho, hsize]

theorem format_none {dangerous : Bool} {name : String}
    (hx : ∀ x, header t.utc dangerous c.env c.tag c.cid (text name) = some x → 8192 ≤ x.length) :
    ∃ o y, t.format dangerous name c = (none, o) ∧ o.Good 8192 y := by
  cases hh : header t.utc dangerous c.env c.tag c.cid (text name) with
  | none =>
      refine ⟨_, _, ?_, Output.Good.nil (m := t.logData)⟩
      rw [format, srsLogHeader_none 8192 hh]
  | some x =>
      have hs : srsLogHeader ⟨t.logData, []⟩ 8192 t.utc dangerous c.env c.tag c.cid (text name) =
          (none, (Output.format ⟨t.logData, []⟩ 0 8192 x).2) :=
        (srsLogHeader_some 8192 hh).trans (if_neg (Nat.not_lt.mpr (hx x hh)))
      refine ⟨(Output.format ⟨t.logData, []⟩ 0 8192 x).2, x, ?_,
        Output.Good.nil.header (by decide) (by decide) x⟩
      rw [format, hs]

theorem logs_disabled {level : SrsLogLevel} {y : List Byte} (h : t.level.value > level.value) :
    t.Logs c level y [] where
  within := fun _ he => absurd he List.not_mem_nil
  line := fun hw => absurd hw.1 (Nat.not_le.mpr h)
  silent := fun _ => rfl

theorem logs_writeLog {o : Output} {level : SrsLogLevel} {y : List Byte} (h : o.Good 8192 y)
    (hlevel : ¬t.level.value > level.value) :
    t.Logs c level y (t.writeLog o y.length level c.opened).1 := by
  obtain ⟨hin, hw⟩ := writeLog_spec (t := t) h level c.opened
  refine ⟨hin, fun hwrites => ?_, fun hsilent => ?_⟩
  · rw [hw, if_pos hwrites.2]
  · rw [hw, if_neg fun hout => hsilent ⟨Nat.not_lt.mp hlevel, hout⟩]

/-- Only the bytes that fit matter. -/
theorem Logs.congr {level : SrsLogLevel} {y z : List Byte} {es : List Event}
    (h : t.Logs c level y es) (hz : z.take 8190 = y.take 8190) : t.Logs c level z es :=
  ⟨h.within, fun hw => hz ▸ h.line hw, h.silent⟩

section logged

variable {x : List Byte}

theorem log_spec {level : SrsLogLevel} {dangerous : Bool} {name : String}
    (hx : header t.utc dangerous c.env c.tag c.cid (text name) = some x) (hlen : x.length < 8192)
    (htotal : (x ++ c.body).length < 2 ^ 31) :
    t.Logs c level (x ++ c.body) (t.log level dangerous name c).1 := by
  rw [log]
  split
  · next h => exact logs_disabled h
  · next h =>
      obtain ⟨o, ho, hg⟩ := format_spec hx hlen htotal
      rw [ho]
      exact logs_writeLog hg h

theorem error_spec (hx : header t.utc true c.env c.tag c.cid (text "Error") = some x)
    (hlen : x.length < 8192) (htotal : (x ++ c.body ++ Method.error.suffix c).length < 2 ^ 31) :
    t.Logs c .error (x ++ c.body ++ Method.error.suffix c) (t.error c).1 := by
  rw [error]
  split
  · next h => exact logs_disabled h
  · next h =>
      rw [List.length_append] at htotal
      obtain ⟨o, ho, hg⟩ := format_spec hx hlen (by omega)
      simp only [ho]
      by_cases herrno : c.errno ≠ 0
      · have hsuffix : Method.error.suffix c = text "(" ++ c.strerror c.errno ++ text ")" :=
          if_pos herrno
        rw [hsuffix] at htotal ⊢
        by_cases hroom : (x ++ c.body).length < 8192
        · obtain ⟨o', ho', hg'⟩ := hg.more hroom (text "(" ++ c.strerror c.errno ++ text ")")
          rw [← List.length_append] at htotal
          rw [if_pos ⟨herrno, Int.ofNat_lt.mpr hroom⟩, ho']
          -- `size` does not wrap, so it is the length of the whole line
          have hsize := int_natCast htotal
          rw [List.length_append, Int.natCast_add] at hsize
          simp only [hsize]
          rw [← Int.natCast_add, ← List.length_append]
          exact logs_writeLog hg' h
        · -- the line is full without the suffix
          rw [if_neg fun hlt => hroom (Int.ofNat_lt.mp hlt.2)]
          refine (logs_writeLog hg h).congr ?_
          rw [List.take_append_of_le_length (by omega)]
      · have hsuffix : Method.error.suffix c = [] := if_neg herrno
        rw [hsuffix, List.append_nil, if_neg fun hlt => herrno hlt.1]
        exact logs_writeLog hg h

end logged

end SrsFileLog

/-- Without a header that fits nothing is written. -/
theorem call_of_no_header (t : SrsFileLog) (c : Call) (m : Method)
    (hx : ∀ x, header t.utc m.dangerous c.env c.tag c.cid (text m.name) = some x →
      8192 ≤ x.length) :
    (∀ e ∈ (t.call c m).1, e.Within 8192) ∧ writes (t.call c m).1 = [] := by
  obtain ⟨o, y, ho, hg⟩ := SrsFileLog.format_none hx
  have hnone : writes o.events = [] := hg.writes_nil
  have hcall : (t.call c m).1 = [] ∨ (t.call c m).1 = o.events := by
    cases m with
    | error =>
        simp only [SrsFileLog.call, SrsFileLog.error]
        split
        · exact .inl rfl
        · rw [Method.dangerous, Method.name] at ho
          simp only [ho]
          exact .inr trivial
    | verbose | info | trace | warn =>
        simp only [SrsFileLog.call, SrsFileLog.verbose, SrsFileLog.info, SrsFileLog.trace,
          SrsFileLog.warn, SrsFileLog.log]
        split
        · exact .inl rfl
        · rw [Method.dangerous, Method.name] at ho
          simp only [ho]
          exact .inr trivial
  rcases hcall with hcall | hcall
  · rw [hcall]
    exact ⟨fun _ he => absurd he List.not_mem_nil, rfl⟩
  · rw [hcall]
    exact ⟨hg.within, hnone⟩

/-- **The line of a log.**  A level method whose header is made, and is shorter than the buffer,
passes the first 8190 bytes of the header, the text of the caller and, for an error, what `errno`
says, with a newline behind them, to `write`, if the log file is open and takes this level, and
nothing else; it stores inside the 8192 bytes of the buffer only. -/
theorem file_log_line (t : SrsFileLog) (c : Call) (m : Method) {x : List Byte}
    (hx : header t.utc m.dangerous c.env c.tag c.cid (text m.name) = some x)
    (hlen : x.length < 8192) (htotal : (x ++ c.body ++ m.suffix c).length < 2 ^ 31) :
    (∀ e ∈ (t.call c m).1, e.Within 8192) ∧
      (t.Writes c m.level →
        writes (t.call c m).1 = [(x ++ c.body ++ m.suffix c).take 8190 ++ [newline]]) ∧
      (¬t.Writes c m.level → writes (t.call c m).1 = []) := by
  have h : t.Logs c m.level (x ++ c.body ++ m.suffix c) (t.call c m).1 := by
    cases m with
    | error => exact SrsFileLog.error_spec hx hlen htotal
    | verbose | info | trace | warn =>
        simp only [Method.suffix, List.append_nil] at htotal ⊢
        exact SrsFileLog.log_spec hx hlen htotal
  exact ⟨h.within, h.line, h.silent⟩

section example_line

/-- What the system tells a logger: the first second of the epoch, and no `errno`. -/
def epoch : Env where
  gettimeofday := some ⟨0, 0⟩
  gmtime := fun _ => some ⟨70, 0, 1, 0, 0, 0⟩
  localtime := fun _ => some ⟨70, 0, 1, 0, 0, 0⟩
  getpid := 1
  errno := 0

/-- A call of `error` with `errno` set behind the text. -/
def failed : Call := ⟨epoch, none, text "c", text "bind", 98, fun _ => text "in use", 5⟩

def toFile : SrsFileLog := ⟨.verbose, fun _ => 0, -1, true, false⟩

theorem file_log_line_error :
    writes (toFile.call failed .error).1 =
      [text "[1970-01-01 00:00:00.000][Error][1][c][0] bind(in use)" ++ [newline]] := by
  refine ((file_log_line toFile failed .error rfl ?_ ?_).2.1 ?_).trans ?_
  · decide
  · decide
  · exact ⟨by decide, rfl, by decide⟩
  · decide

end example_line

end StCoroutine.Log
