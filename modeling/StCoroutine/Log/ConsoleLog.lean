import StCoroutine.Log.FileLog

/-!
# Log — the console log

`SrsConsoleLog` of `srs_service_log.cpp`: the level methods of the file log, with a line that is
printed as it is in the buffer.  `error` appends what `errno` says at `buffer + size`, where `size`
is what `vsnprintf` would have written, and does not look whether that is in the buffer, as
`SrsFileLog::error` does.

`console_log_within_iff`: a level method formats inside the buffer exactly when it is not an
`error`, with an `errno`, whose header and text are longer than the buffer.
-/

set_option autoImplicit false

namespace StCoroutine.Log
open Bytes Kernel Printf

/-- What `vsnprintf` returns for a text of `n` bytes: a length that is no `int` fails. -/
def returned (n : Int) : Int := if n < 2 ^ 31 then n else -1

inductive Stream where
  | stdout | stderr
  deriving DecidableEq

structure SrsConsoleLog where
  level : SrsLogLevel
  utc : Bool
  buffer : Mem

/-- What a level method does to the buffer, and what it prints. -/
structure Console where
  events : List Event
  printed : Option (Stream × List Byte)
  log : SrsConsoleLog

namespace SrsConsoleLog

/-- The header and the text of the caller: what there is then, and the size, unless the header
fails. -/
def format (t : SrsConsoleLog) (dangerous : Bool) (name : String) (c : Call) :
    Option Int × Output :=
  match srsLogHeader ⟨t.buffer, []⟩ 8192 t.utc dangerous c.env c.tag c.cid (text name) with
  | (none, o) => (none, o)
  | (some size, o) =>
    let (n, o) := o.format size (8192 - size) c.body
    (some (int (size + returned n)), o)

/-- `fprintf` of the buffer, up to its zero byte, and a newline. -/
def print (t : SrsConsoleLog) (stream : Stream) (o : Output) : Console :=
  ⟨o.events, some (stream, (load o.data 0 8192).takeWhile (· ≠ 0) ++ [newline]),
    { t with buffer := o.data }⟩

/-- A level method with no more than that. -/
def log (t : SrsConsoleLog) (level : SrsLogLevel) (dangerous : Bool) (name : String)
    (stream : Stream) (c : Call) : Console :=
  if t.level.value > level.value then ⟨[], none, t⟩
  else
    match t.format dangerous name c with
    | (none, o) => ⟨o.events, none, { t with buffer := o.data }⟩
    | (some _, o) => t.print stream o

def verbose (t : SrsConsoleLog) (c : Call) : Console := t.log .verbose false "Verb" .stdout c

def info (t : SrsConsoleLog) (c : Call) : Console := t.log .info false "Debug" .stdout c

def trace (t : SrsConsoleLog) (c : Call) : Console := t.log .trace false "Trace" .stdout c

def warn (t : SrsConsoleLog) (c : Call) : Console := t.log .warn true "Warn" .stderr c

def error (t : SrsConsoleLog) (c : Call) : Console :=
  if t.level.value > SrsLogLevel.error.value then ⟨[], none, t⟩
  else
    match t.format true "Error" c with
    | (none, o) => ⟨o.events, none, { t with buffer := o.data }⟩
    | (some size, o) =>
      if c.errno ≠ 0 then
        t.print .stderr
          (o.format size (8192 - size) (text "(" ++ c.strerror c.errno ++ text ")")).2
      else t.print .stderr o

def call (t : SrsConsoleLog) (c : Call) : Method → Console
  | .verbose => t.verbose c
  | .info => t.info c
  | .trace => t.trace c
  | .warn => t.warn c
  | .error => t.error c

/-- The method is `error`, at a level that is shown, with an `errno`, and the header and the text
of the caller are longer than the buffer, while the text alone has a length. -/
def Overruns (t : SrsConsoleLog) (c : Call) (m : Method) : Prop :=
  m = .error ∧ t.level.value ≤ SrsLogLevel.error.value ∧ c.errno ≠ 0 ∧ c.body.length < 2 ^ 31 ∧
    ∃ x, header t.utc true c.env c.tag c.cid (text "Error") = some x ∧ x.length < 8192 ∧
      8192 < x.length + c.body.length

end SrsConsoleLog

/-! ### Where the texts go -/

theorem within_format {o : Output} {size : Nat} (h : ∀ e ∈ o.events, e.Within size)
    (off cap : Int) (more : List Byte) :
    (∀ e ∈ (o.format off cap more).2.events, e.Within size) ↔
      Event.Within size (.format off (sizeT cap) more) := by
  constructor
  · intro H
    exact H _ (List.mem_append_right _ (List.mem_singleton_self _))
  · intro hw e he
    rcases List.mem_append.mp he with he | he
    · exact h e he
    · rw [List.mem_singleton.mp he]
      exact hw

/-- With all the room that is left behind it, a text is in the buffer if its start is. -/
theorem within_room {off : Int} {more : List Byte} :
    Event.Within 8192 (.format off (sizeT (8192 - off)) more) ↔ 0 ≤ off ∧ off ≤ 8192 := by
  constructor
  · rintro ⟨h, hle⟩
    omega
  · rintro ⟨h, hle⟩
    have hroom : (sizeT (8192 - off) : Int) = 8192 - off := sizeT_eq (by omega) (by omega)
    exact ⟨h, by omega⟩

/-- A header ends with a blank. -/
theorem headerText_ne_nil (env : Env) (tv : Timeval) (now : Tm) (dangerous : Bool)
    (tag : Option (List Byte)) (cid level : List Byte) :
    headerText env tv now dangerous tag cid level ≠ [] := by
  unfold headerText
  exact List.append_ne_nil_of_right_ne_nil _ (by simp [text])

theorem header_pos {utc dangerous : Bool} {env : Env} {tag : Option (List Byte)}
    {cid level x : List Byte} (h : header utc dangerous env tag cid level = some x) :
    0 < x.length := by
  unfold header at h
  split at h
  · cases h
  · obtain ⟨now, -, rfl⟩ := Option.map_eq_some_iff.mp h
    exact List.length_pos_of_ne_nil (headerText_ne_nil _ _ _ _ _ _ _)

/-- The size behind the text of the caller is in the buffer, unless the two are longer: it is past
the end then, or the sum wraps. -/
theorem size_within {h n : Nat} (hpos : 0 < h) (hlen : h < 8192) :
    (0 ≤ int (h + returned n) ∧ int (h + returned n) ≤ 8192) ↔ ¬(n < 2 ^ 31 ∧ 8192 < h + n) := by
  rw [returned]
  split
  · next hn =>
      have hn : n < 2 ^ 31 := by omega
      rw [int, Int.bmod_def]
      omega
  · next hn =>
      rw [int, Int.bmod_def]
      omega

namespace SrsConsoleLog

variable {t : SrsConsoleLog} {c : Call}

theorem format_spec {dangerous : Bool} {name : String} {x : List Byte}
    (hx : header t.utc dangerous c.env c.tag c.cid (text name) = some x) (hlen : x.length < 8192) :
    ∃ o, t.format dangerous name c = (some (int (x.length + returned c.body.length)), o) ∧
      ∀ e ∈ o.events, e.Within 8192 := by
  have hs : srsLogHeader ⟨t.buffer, []⟩ 8192 t.utc dangerous c.env c.tag c.cid (text name) =
      (some (x.length : Int), (Output.format ⟨t.buffer, []⟩ 0 8192 x).2) :=
    (srsLogHeader_some 8192 hx).trans (if_pos hlen)
  have hh : (Output.format ⟨t.buffer, []⟩ 0 8192 x).2.Good 8192 x :=
    Output.Good.nil.header (by decide) (by decide) x
  refine ⟨((Output.format ⟨t.buffer, []⟩ 0 8192 x).2.format x.length (8192 - x.length) c.body).2,
    ?_, ?_⟩
  · simp only [format, hs]
    rfl
  · exact (within_format hh.within _ _ _).mpr (within_room.mpr ⟨by omega, by omega⟩)

theorem format_none {dangerous : Bool} {name : String}
    (hx : ¬∃ x, header t.utc dangerous c.env c.tag c.cid (text name) = some x ∧ x.length < 8192) :
    ∃ o, t.format dangerous name c = (none, o) ∧ ∀ e ∈ o.events, e.Within 8192 := by
  cases hh : header t.utc dangerous c.env c.tag c.cid (text name) with
  | none =>
      refine ⟨_, ?_, (Output.Good.nil (m := t.buffer)).within⟩
      rw [format, srsLogHeader_none 8192 hh]
  | some x =>
      have hlong : ¬x.length < 8192 := fun hlen => hx ⟨x, hh, hlen⟩
      have hs : srsLogHeader ⟨t.buffer, []⟩ 8192 t.utc dangerous c.env c.tag c.cid (text name) =
          (none, (Output.format ⟨t.buffer, []⟩ 0 8192 x).2) :=
        (srsLogHeader_some 8192 hh).trans (if_neg hlong)
      refine ⟨(Output.format ⟨t.buffer, []⟩ 0 8192 x).2, ?_,
        (Output.Good.nil.header (by decide) (by decide) x).within⟩
      rw [format, hs]

/-- What the header and the text of the caller do is inside the buffer, whatever there is. -/
theorem log_within (level : SrsLogLevel) (dangerous : Bool) (name : String) (stream : Stream) :
    ∀ e ∈ (t.log level dangerous name stream c).events, e.Within 8192 := by
  rw [log]
  split
  · exact fun _ he => absurd he List.not_mem_nil
  · by_cases hx : ∃ x, header t.utc dangerous c.env c.tag c.cid (text name) = some x ∧
        x.length < 8192
    · obtain ⟨x, hx, hlen⟩ := hx
      obtain ⟨o, ho, hin⟩ := format_spec hx hlen
      rw [ho]
      exact hin
    · obtain ⟨o, ho, hin⟩ := format_none hx
      rw [ho]
      exact hin

theorem error_within_iff : (∀ e ∈ (t.error c).events, e.Within 8192) ↔ ¬t.Overruns c .error := by
  rw [error]
  split
  · next h =>
      exact iff_of_true (fun _ he => absurd he List.not_mem_nil)
        fun hov => absurd hov.2.1 (Nat.not_le.mpr h)
  · next h =>
      by_cases hx : ∃ x, header t.utc true c.env c.tag c.cid (text "Error") = some x ∧
          x.length < 8192
      · obtain ⟨x, hx, hlen⟩ := hx
        obtain ⟨o, ho, hin⟩ := format_spec (c := c) hx hlen
        rw [ho]
        by_cases herrno : c.errno ≠ 0
        · simp only [herrno, ne_eq, not_false_eq_true, if_true, print]
          rw [within_format hin, within_room, size_within (header_pos hx) hlen]
          simp [Overruns, hx, hlen, herrno, Nat.not_lt.mp h]
        · simp only [herrno, if_false, print]
          exact iff_of_true hin fun hov => herrno hov.2.2.1
      · obtain ⟨o, ho, hin⟩ := format_none hx
        rw [ho]
        refine iff_of_true hin ?_
        rintro ⟨-, -, -, -, x, hx', hlen, -⟩
        exact hx ⟨x, hx', hlen⟩

end SrsConsoleLog

/-- **The buffer of the console log.**  Whatever a level method is called with, each text it formats
starts in the 8192 bytes of the buffer and has no more room than is left there, if and only if the
method is not an `error` that is shown, with an `errno`, whose header and text are longer than the
buffer. -/
theorem console_log_within_iff (t : SrsConsoleLog) (c : Call) (m : Method) :
    (∀ e ∈ (t.call c m).events, e.Within 8192) ↔ ¬t.Overruns c m := by
  cases m with
  | error => exact SrsConsoleLog.error_within_iff
  | verbose | info | trace | warn =>
      exact iff_of_true (SrsConsoleLog.log_within _ _ _ _) fun hov => nomatch hov.1

/-- A text that fills the buffer alone, with `errno` set behind it. -/
def longFailure : Call := { failed with body := List.replicate 8192 0 }

theorem length_longFailure : longFailure.body.length = 8192 := List.length_replicate

/-- What `errno` says is formatted behind the end of the buffer. -/
theorem error_overruns :
    ¬∀ (t : SrsConsoleLog) (c : Call) (m : Method), ∀ e ∈ (t.call c m).events, e.Within 8192 := by
  intro H
  have hov : SrsConsoleLog.Overruns ⟨.verbose, false, fun _ => 0⟩ longFailure .error := by
    refine ⟨rfl, by decide, by decide, ?_, _, rfl, by decide, ?_⟩
    · rw [length_longFailure]
      decide
    · rw [length_longFailure]
      decide
  exact SrsConsoleLog.error_within_iff.mp (H _ longFailure .error) hov

end StCoroutine.Log
