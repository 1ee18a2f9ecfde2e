import StCoroutine.Kernel.Clock
import StCoroutine.Service.Net

/-!
# Service — the TCP client

`SrsStSocket` and `SrsTcpClient` of `srs_service_st.cpp`.  The client has the netfd of its
connection in `stfd`, and its socket object, which reads and writes, has a copy.

`io_open_iff`: in a run of a client, the socket object has no netfd but the open one of the client
exactly when every attempt to connect that fails is made before one succeeds.
-/

set_option autoImplicit false

namespace StCoroutine.Service
open Kernel Lts

/-! ### `SrsStSocket` -/

/-- `SRS_UTIME_NO_TIMEOUT`. -/
def srsUtimeNoTimeout : Int := -1

structure SrsStSocket where
  stfd : Option Netfd
  stm : Int
  rtm : Int
  rbytes : Int
  sbytes : Int

/-- What the state-threads layer answers a call: the number of bytes, or `-1`, and if the call timed
out.  An error object is allocated at `mem`. -/
structure IoAnswer where
  nb : Int
  etime : Bool
  mem : Nat

namespace SrsStSocket

def new : SrsStSocket := ⟨none, srsUtimeNoTimeout, srsUtimeNoTimeout, 0, 0⟩

/-- `SrsStSocket::initialize`. -/
def init (s : SrsStSocket) (fd : Option Netfd) : SrsError × SrsStSocket :=
  (none, { s with stfd := fd })

def read (s : SrsStSocket) (a : IoAnswer) : SrsError × SrsStSocket :=
  if a.nb ≤ 0 then
    if a.nb < 0 ∧ a.etime then
      (SrsError.new a.mem ERROR_SOCKET_TIMEOUT
        ("timeout " ++ toString (srsu2msi s.rtm) ++ " ms"), s)
    else (SrsError.new a.mem ERROR_SOCKET_READ "read", s)
  else (none, { s with rbytes := s.rbytes + a.nb })

def readFully (s : SrsStSocket) (size : Int) (a : IoAnswer) : SrsError × SrsStSocket :=
  if a.nb ≠ size then
    if a.nb < 0 ∧ a.etime then
      (SrsError.new a.mem ERROR_SOCKET_TIMEOUT
        ("timeout " ++ toString (srsu2msi s.rtm) ++ " ms"), s)
    else (SrsError.new a.mem ERROR_SOCKET_READ_FULLY "read fully", s)
  else (none, { s with rbytes := s.rbytes + a.nb })

/-- `write` and `writev`, with the name that the errors give. -/
def send (name : String) (s : SrsStSocket) (a : IoAnswer) : SrsError × SrsStSocket :=
  if a.nb ≤ 0 then
    if a.nb < 0 ∧ a.etime then
      (SrsError.new a.mem ERROR_SOCKET_TIMEOUT
        (name ++ " timeout " ++ toString (srsu2msi s.stm) ++ " ms"), s)
    else (SrsError.new a.mem ERROR_SOCKET_WRITE name, s)
  else (none, { s with sbytes := s.sbytes + a.nb })

def write (s : SrsStSocket) (a : IoAnswer) : SrsError × SrsStSocket := s.send "write" a

def writev (s : SrsStSocket) (a : IoAnswer) : SrsError × SrsStSocket := s.send "writev" a

/-! ### One call -/

theorem read_spec (s : SrsStSocket) (a : IoAnswer) :
    (s.read a).2 = { s with rbytes := s.rbytes + max 0 a.nb } := by
  rw [read]
  split
  · next h =>
      rw [Int.max_eq_left h, Int.add_zero]
      split <;> rfl
  · next h => rw [Int.max_eq_right (Int.le_of_lt (Int.not_le.mp h))]

theorem send_spec (name : String) (s : SrsStSocket) (a : IoAnswer) :
    (send name s a).2 = { s with sbytes := s.sbytes + max 0 a.nb } := by
  rw [send]
  split
  · next h =>
      rw [Int.max_eq_left h, Int.add_zero]
      split <;> rfl
  · next h => rw [Int.max_eq_right (Int.le_of_lt (Int.not_le.mp h))]

/-- A count that is not the size is not added. -/
theorem readFully_spec (s : SrsStSocket) (size : Int) (a : IoAnswer) :
    (s.readFully size a).2 =
      { s with rbytes := s.rbytes + if a.nb = size then a.nb else 0 } := by
  by_cases h : a.nb = size
  · rw [readFully, if_neg (not_not.mpr h), if_pos h]
  · rw [readFully, if_pos h, if_neg h, Int.add_zero]
    split <;> rfl

theorem read_stfd (s : SrsStSocket) (a : IoAnswer) : (s.read a).2.stfd = s.stfd := by
  rw [read_spec]

theorem readFully_stfd (s : SrsStSocket) (size : Int) (a : IoAnswer) :
    (s.readFully size a).2.stfd = s.stfd := by
  rw [readFully_spec]

theorem send_stfd (name : String) (s : SrsStSocket) (a : IoAnswer) :
    (send name s a).2.stfd = s.stfd := by
  rw [send_spec]

end SrsStSocket

/-! ### `SrsTcpClient` -/

structure SrsTcpClient where
  stfd : Option Netfd
  io : SrsStSocket
  host : String
  port : Int
  timeout : Int
  d : Descriptors

namespace SrsTcpClient

def new (host : String) (port timeout : Int) (d : Descriptors) : SrsTcpClient :=
  ⟨none, .new, host, port, timeout, d⟩

/-- `close`, unless the assertion on `st_netfd_close` fails. -/
def close (t : SrsTcpClient) (closes : Bool) : Option SrsTcpClient :=
  (srsCloseStfd t.d closes t.stfd).map fun d => { t with stfd := none, d := d }

/-- What is done with the netfd of a new connection, or with the error; `msg` is what is said of an
error. -/
def connected (t : SrsTcpClient) (a : Answers) (msg : String) (r : Done) :
    SrsError × SrsTcpClient :=
  let t := { t with stfd := r.pfd, d := r.d }
  if r.err ≠ none then (SrsError.wrap (a.mem 3) r.err msg, t)
  else
    let (err, io) := t.io.init t.stfd
    let t := { t with io := io }
    if err ≠ none then (SrsError.wrap (a.mem 3) err "tcp: init socket object", t) else (none, t)

def connect (t : SrsTcpClient) (closes : Bool) (a : Answers) : Option (SrsError × SrsTcpClient) :=
  (t.close closes).bind fun t =>
    (srsTcpConnect t.d a t.host t.port).map
      (t.connected a ("tcp: connect " ++ t.host ++ ":" ++ toString t.port ++ " to=" ++
        toString (srsu2msi t.timeout) ++ "ms"))

def bindAndConnect (t : SrsTcpClient) (closes : Bool) (bindserver : String) (bindport : Int)
    (a : Answers) : Option (SrsError × SrsTcpClient) :=
  (t.close closes).bind fun t =>
    (srsTcpBindConnect t.d a t.host t.port).map
      (t.connected a ("tcp: connect " ++ t.host ++ ":" ++ toString t.port ++ " to=" ++
        toString (srsu2msi t.timeout) ++ "ms  bind:[" ++ bindserver ++ ":" ++ toString bindport ++
        "]"))

def read (t : SrsTcpClient) (a : IoAnswer) : SrsError × SrsTcpClient :=
  let (err, io) := t.io.read a
  (err, { t with io := io })

def readFully (t : SrsTcpClient) (size : Int) (a : IoAnswer) : SrsError × SrsTcpClient :=
  let (err, io) := t.io.readFully size a
  (err, { t with io := io })

def write (t : SrsTcpClient) (a : IoAnswer) : SrsError × SrsTcpClient :=
  let (err, io) := t.io.write a
  (err, { t with io := io })

def writev (t : SrsTcpClient) (a : IoAnswer) : SrsError × SrsTcpClient :=
  let (err, io) := t.io.writev a
  (err, { t with io := io })

end SrsTcpClient

/-! ### Runs -/

/-- A call of the client, with what the system answers it: `closes`, if `st_netfd_close` of the old
connection succeeds. -/
inductive ClientCall where
  | connect (closes : Bool) (a : Answers)
  | bindAndConnect (closes : Bool) (bindserver : String) (bindport : Int) (a : Answers)
  | read (a : IoAnswer)
  | readFully (size : Int) (a : IoAnswer)
  | write (a : IoAnswer)
  | writev (a : IoAnswer)

namespace SrsTcpClient

/-- The answers to an attempt to connect are possible when the old connection is closed. -/
def possible (t : SrsTcpClient) (closes : Bool) (a : Answers) : Bool :=
  match t.close closes with
  | none => true
  | some t => a.possible t.d

/-- The call returns, with answers that are possible. -/
def step (t : SrsTcpClient) : ClientCall → Option SrsTcpClient
  | .connect closes a =>
    if t.possible closes a then (t.connect closes a).map Prod.snd else none
  | .bindAndConnect closes bindserver bindport a =>
    if t.possible closes a then (t.bindAndConnect closes bindserver bindport a).map Prod.snd
    else none
  | .read a => some (t.read a).2
  | .readFully size a => some (t.readFully size a).2
  | .write a => some (t.write a).2
  | .writev a => some (t.writev a).2

/-- The socket object has no netfd, or it has the one of the client, which is in use. -/
def IoOpen (t : SrsTcpClient) : Prop :=
  t.io.stfd = none ∨ ∃ p, t.io.stfd = some p ∧ t.stfd = some p ∧ (t.d.netfds p).isSome

end SrsTcpClient

/-- If it is an attempt to connect, it succeeds, or the socket object has no netfd yet. -/
def ClientCall.Keeps (t : SrsTcpClient) : ClientCall → Prop
  | .connect _ a => a.connects = true ∨ t.io.stfd = none
  | .bindAndConnect _ _ _ a => a.bindConnects = true ∨ t.io.stfd = none
  | _ => True

/-! ### One call -/

namespace SrsTcpClient

variable {t t' : SrsTcpClient}

/-- After an attempt that failed the socket object has no netfd but an open one only if it has
none. -/
theorem ioOpen_failed {a : Answers} {msg : String} {r : Done} (herr : r.err ≠ none)
    (hpfd : r.pfd = none) : (t.connected a msg r).2.IoOpen ↔ t.io.stfd = none := by
  simp only [connected, if_pos herr, IoOpen, hpfd]
  simp

/-- After an attempt the socket object has no netfd but an open one exactly when it succeeded, or
the object had none. -/
theorem ioOpen_connected {d : Descriptors} {ok : Prop} {a : Answers} {msg : String} {r : Done}
    (h : Attempt d ok r) : (t.connected a msg r).2.IoOpen ↔ ok ∨ t.io.stfd = none := by
  cases h with
  | failed herr hno => rw [ioOpen_failed herr rfl, or_iff_right hno]
  | connected hfd hp hok =>
      refine iff_of_true (.inr ⟨_, rfl, rfl, ?_⟩) (.inl hok)
      exact Option.isSome_of_eq_some (Function.update_self ..)

theorem close_io {closes : Bool} (h : t.close closes = some t') : t'.io = t.io := by
  obtain ⟨d, _, rfl⟩ := Option.map_eq_some_iff.mp h
  rfl

/-- An attempt to connect closes the old connection, and then asks for a new one. -/
theorem attempt_inv {closes : Bool} {a : Answers} {ask : SrsTcpClient → Option Done}
    {msg : SrsTcpClient → String}
    (h : ((t.close closes).bind fun t => (ask t).map (t.connected a (msg t))).map Prod.snd =
      some t') :
    ∃ t₁ r, t.close closes = some t₁ ∧ ask t₁ = some r ∧ t' = (t₁.connected a (msg t₁) r).2 := by
  obtain ⟨done, hdone, rfl⟩ := Option.map_eq_some_iff.mp h
  obtain ⟨t₁, hclose, hdone⟩ := Option.bind_eq_some_iff.mp hdone
  obtain ⟨r, hr, rfl⟩ := Option.map_eq_some_iff.mp hdone
  exact ⟨t₁, r, hclose, hr, rfl⟩

/-- What reads and writes only counts bytes. -/
theorem ioOpen_io {io : SrsStSocket} (h : t.IoOpen) (hio : io.stfd = t.io.stfd) :
    IoOpen { t with io := io } := by
  rw [IoOpen, hio]
  exact h

/-- **One call**: the socket object is left with no netfd but an open one exactly when the call is
no failing attempt to connect, or the object has none. -/
theorem ioOpen_step {c : ClientCall} (h : t.IoOpen) (hs : t.step c = some t') :
    t'.IoOpen ↔ c.Keeps t := by
  cases c with
  | connect closes a =>
      rw [step] at hs
      split at hs
      · next hp =>
          obtain ⟨t₁, r, hclose, hr, rfl⟩ := attempt_inv hs
          rw [possible, hclose] at hp
          rw [ioOpen_connected (tcpConnect_attempt hp hr), close_io hclose]
          exact Iff.rfl
      · cases hs
  | bindAndConnect closes bindserver bindport a =>
      rw [step] at hs
      split at hs
      · next hp =>
          obtain ⟨t₁, r, hclose, hr, rfl⟩ := attempt_inv hs
          rw [possible, hclose] at hp
          by_cases hreuse : a.opens = true → a.reuseaddr = true
          · rw [ioOpen_connected (tcpBindConnect_attempt hp hreuse hr), close_io hclose]
            exact Iff.rfl
          · -- the attempt that leaks is a failed one for `io` too
            simp only [Classical.not_imp, Bool.not_eq_true] at hreuse
            obtain ⟨hopens, hno⟩ := hreuse
            obtain ⟨sock, stfd, err, _, herr, hleak⟩ := tcpBindConnect_leaks hopens hno
            cases hr.symm.trans hleak
            rw [ioOpen_failed herr rfl, close_io hclose]
            refine (or_iff_right ?_).symm
            simp [Answers.bindConnects, hno]
      · cases hs
  | read a =>
      cases hs
      exact iff_of_true (ioOpen_io h (SrsStSocket.read_stfd _ _)) trivial
  | readFully size a =>
      cases hs
      exact iff_of_true (ioOpen_io h (SrsStSocket.readFully_stfd _ _ _)) trivial
  | write a =>
      cases hs
      exact iff_of_true (ioOpen_io h (SrsStSocket.send_stfd _ _ _)) trivial
  | writev a =>
      cases hs
      exact iff_of_true (ioOpen_io h (SrsStSocket.send_stfd _ _ _)) trivial

end SrsTcpClient

/-! ### Whole runs -/

open SrsTcpClient in
/-- **The netfd that is read and written.**  In every state of a run of a client its socket object
has no netfd, or the one of the client, which is open, exactly when every attempt to connect that
fails is made while the object has none. -/
theorem io_open_iff (host : String) (port timeout : Int) (d : Descriptors)
    {calls : List ClientCall} {t : SrsTcpClient}
    (h : exec step (new host port timeout d) calls = some t) :
    AllStates step IoOpen (new host port timeout d) calls ↔
      AllSteps step (fun t c => c.Keeps t) (new host port timeout d) calls :=
  (allSteps_iff_allStates (I := fun _ => True) (D := fun _ => True) trivial (.inl rfl)
    (fun _ _ _ _ _ => trivial) (fun _ _ _ _ hopen _ hs => ioOpen_step hopen hs) h
    fun _ _ => trivial).symm

section runs
open SrsTcpClient

/-- A client of `10.0.0.1`. -/
def client : SrsTcpClient := new "10.0.0.1" 80 30000000 noDescriptors

/-- An attempt to connect that is refused. -/
def refused : ClientCall := .connect true { allWell with connect := false }

/-- An attempt to connect that is not. -/
def accepted : ClientCall := .connect true allWell

theorem io_open_iff_three :
    AllStates step IoOpen client [refused, accepted, .read ⟨10, false, 0⟩] := by
  obtain ⟨t₀, h₀⟩ : ∃ t, exec step client [refused] = some t := ⟨_, rfl⟩
  obtain ⟨t₁, h₁⟩ : ∃ t, exec step client [refused, accepted] = some t := ⟨_, rfl⟩
  obtain ⟨t₂, h₂⟩ : ∃ t, exec step client [refused, accepted, .read ⟨10, false, 0⟩] = some t :=
    ⟨_, rfl⟩
  refine (io_open_iff "10.0.0.1" 80 30000000 noDescriptors h₂).mpr ?_
  have hfirst : AllSteps step (fun t c => c.Keeps t) client [refused] :=
    (allSteps_snoc (exec_nil client)).mpr ⟨allSteps_nil client, Or.inr rfl⟩
  have hsecond : AllSteps step (fun t c => c.Keeps t) client [refused, accepted] :=
    (allSteps_snoc h₀).mpr ⟨hfirst, Or.inl rfl⟩
  exact (allSteps_snoc h₁).mpr ⟨hsecond, trivial⟩

/-- The netfd of the first connection is closed, and the socket object still reads from it. -/
theorem io_reads_closed :
    ¬AllStates step IoOpen client [accepted, refused, .read ⟨10, false, 0⟩] := by
  intro h
  rcases h.last rfl with hnone | ⟨p, _, hstfd, _⟩
  · cases hnone
  · cases hstfd

end runs

end StCoroutine.Service
