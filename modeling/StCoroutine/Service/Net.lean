import Mathlib.Data.Finset.Basic
import StCoroutine.Kernel.Error
import StCoroutine.Lib.Lts

/-!
# Service — the descriptors of the network calls

`srs_tcp_connect`, `srs_tcp_bind_connect`, `srs_tcp_listen` and `srs_udp_listen` of
`srs_service_st.cpp`, with every answer of the system and of state-threads as an input.  A netfd is
a pointer to an object that has the descriptor; `NULL` is `none`.  `close` of an open descriptor
frees it, whatever it returns; what is not open cannot be closed, and a fault is noted.  A call that
fails an assertion does not return.

`ledger_iff`: the calls of a sequence all keep the ledger of the descriptors, exactly when no
`srs_tcp_bind_connect` fails to set `SO_REUSEADDR`.
-/

set_option autoImplicit false

namespace StCoroutine.Service
open Kernel Lts

/-! ### Descriptors -/

/-- A pointer to a netfd that is not `NULL`. -/
abbrev Netfd := Nat

/-- The open descriptors and the netfds in use. -/
structure Descriptors where
  opened : Finset Int
  netfds : Netfd → Option Int
  fault : Bool

namespace Descriptors

/-- `socket` returns `fd`. -/
def openFd (d : Descriptors) (fd : Int) : Descriptors := { d with opened := insert fd d.opened }

/-- `close`. -/
def closeFd (d : Descriptors) (fd : Int) : Descriptors :=
  if fd ∈ d.opened then { d with opened := d.opened.erase fd } else { d with fault := true }

/-- `st_netfd_open_socket` returns `p`. -/
def attach (d : Descriptors) (p : Netfd) (fd : Int) : Descriptors :=
  { d with netfds := Function.update d.netfds p (some fd) }

/-- `st_netfd_close`: the object is freed and the descriptor is closed. -/
def closeNetfd (d : Descriptors) (p : Netfd) : Descriptors :=
  match d.netfds p with
  | none => { d with fault := true }
  | some fd => { d with netfds := Function.update d.netfds p none }.closeFd fd

end Descriptors

/-- What `getaddrinfo` finds. -/
structure Addrinfo where
  family : Int
  socktype : Int
  protocol : Int

/-- What the system and state-threads answer a call: `none` and `false` are failures.  The objects
of its errors are allocated at `mem 0`, `mem 1` and so on. -/
structure Answers where
  getaddrinfo : Option Addrinfo
  socket : Option Int
  keepalive : Bool
  closeexec : Bool
  reuseaddr : Bool
  reuseport : Bool
  bindGetaddrinfo : Bool
  bind : Bool
  listen : Bool
  openSocket : Option Netfd
  connect : Bool
  closeNetfd : Bool
  mem : Nat → Nat

/-- A new descriptor is not open, and a new netfd is not in use. -/
def Answers.possible (a : Answers) (d : Descriptors) : Bool :=
  (match a.socket with
    | none => true
    | some fd => fd ∉ d.opened) &&
  match a.openSocket with
  | none => true
  | some p => d.netfds p = none

/-- A connection gets as far as a netfd. -/
def Answers.opens (a : Answers) : Bool :=
  a.getaddrinfo.isSome && a.socket.isSome && a.openSocket.isSome

/-- What `srs_tcp_connect` needs to succeed. -/
def Answers.connects (a : Answers) : Bool := a.opens && a.connect

/-- What `srs_tcp_bind_connect` needs to succeed. -/
def Answers.bindConnects (a : Answers) : Bool :=
  a.opens && a.reuseaddr && a.bindGetaddrinfo && a.bind && a.connect

/-- What a call returns, what it leaves in its output parameter, and the descriptors. -/
structure Done where
  err : SrsError
  pfd : Option Netfd
  d : Descriptors

/-! ### The options of a socket -/

def srsFdCloseexec (mem : Nat) (ok : Bool) (fd : Int) : SrsError :=
  if ok then none
  else SrsError.new mem ERROR_SOCKET_SETCLOSEEXEC ("FD_CLOEXEC fd=" ++ toString fd)

def srsFdReuseaddr (mem : Nat) (ok : Bool) (fd : Int) : SrsError :=
  if ok then none
  else SrsError.new mem ERROR_SOCKET_SETREUSEADDR ("SO_REUSEADDR fd=" ++ toString fd)

/-- Only a warning is logged if it fails. -/
def srsFdReuseport (_ok : Bool) (_fd : Int) : SrsError := none

def srsFdKeepalive (mem : Nat) (ok : Bool) (fd : Int) : SrsError :=
  if ok then none
  else SrsError.new mem ERROR_SOCKET_SETKEEPALIVE ("SO_KEEPALIVE fd=" ++ toString fd)

/-! ### The calls -/

/-- `srs_close_stfd`: `none` if the assertion on `st_netfd_close` fails. -/
def srsCloseStfd (d : Descriptors) (closes : Bool) (stfd : Option Netfd) : Option Descriptors :=
  match stfd with
  | none => some d
  | some p => if closes then some (d.closeNetfd p) else none

/-- `srs_close_stfd`, and `err` is returned. -/
def closeAndReturn (d : Descriptors) (a : Answers) (stfd : Netfd) (err : SrsError) : Option Done :=
  (srsCloseStfd d a.closeNetfd (some stfd)).map fun d => ⟨err, none, d⟩

/-- How `srs_tcp_connect` and `srs_tcp_bind_connect` begin: an address, a socket and a netfd that
owns it, with which `rest` goes on. -/
def withNetfd (d : Descriptors) (a : Answers) (rest : Descriptors → Int → Netfd → Option Done) :
    Option Done :=
  match a.getaddrinfo with
  | none => some ⟨SrsError.new (a.mem 0) ERROR_SYSTEM_IP_INVALID "get address info", none, d⟩
  | some _ =>
    match a.socket with
    | none => some ⟨SrsError.new (a.mem 0) ERROR_SOCKET_CREATE "create socket", none, d⟩
    | some sock =>
      let d := d.openFd sock
      match a.openSocket with
      | none =>
        some ⟨SrsError.new (a.mem 0) ERROR_ST_OPEN_SOCKET "open socket", none, d.closeFd sock⟩
      | some stfd => rest (d.attach stfd sock) sock stfd

/-- How they end. -/
def connectNetfd (d : Descriptors) (a : Answers) (server : String) (port : Int) (stfd : Netfd) :
    Option Done :=
  if ¬a.connect then
    closeAndReturn d a stfd
      (SrsError.new (a.mem 0) ERROR_ST_CONNECT ("connect to " ++ server ++ ":" ++ toString port))
  else some ⟨none, some stfd, d⟩

def srsTcpConnect (d : Descriptors) (a : Answers) (server : String) (port : Int) : Option Done :=
  withNetfd d a fun d _ stfd => connectNetfd d a server port stfd

def srsTcpBindConnect (d : Descriptors) (a : Answers) (server : String) (port : Int) :
    Option Done :=
  withNetfd d a fun d sock stfd =>
    let reuseaddr := srsFdReuseaddr (a.mem 0) a.reuseaddr sock
    let reuseport := srsFdReuseport a.reuseport sock
    -- neither of these two exits closes the netfd
    if reuseaddr ≠ none then
      some ⟨SrsError.wrap (a.mem 1) reuseaddr "set reuseaddr", none, d⟩
    else if reuseport ≠ none then
      some ⟨SrsError.wrap (a.mem 1) reuseport "set reuseport", none, d⟩
    else if ¬a.bindGetaddrinfo then
      closeAndReturn d a stfd
        (SrsError.new (a.mem 0) ERROR_SYSTEM_IP_INVALID "get address info")
    else if ¬a.bind then
      closeAndReturn d a stfd (SrsError.new (a.mem 0) ERROR_SOCKET_BIND "bind")
    else connectNetfd d a server port stfd

/-- `srs_netfd_open_socket`, the last of the calls that make a socket listen. -/
def openListener (d : Descriptors) (a : Answers) (fd : Int) : Done :=
  match a.openSocket with
  | none => ⟨SrsError.new (a.mem 0) ERROR_ST_OPEN_SOCKET "st open", none, d⟩
  | some p => ⟨none, some p, d.attach p fd⟩

def doSrsTcpListen (d : Descriptors) (a : Answers) (fd : Int) (pfd : Option Netfd) : Done :=
  let keepalive := srsFdKeepalive (a.mem 0) a.keepalive fd
  let closeexec := srsFdCloseexec (a.mem 0) a.closeexec fd
  let reuseaddr := srsFdReuseaddr (a.mem 0) a.reuseaddr fd
  let reuseport := srsFdReuseport a.reuseport fd
  if keepalive ≠ none then ⟨SrsError.wrap (a.mem 1) keepalive "set keepalive", pfd, d⟩
  else if closeexec ≠ none then ⟨SrsError.wrap (a.mem 1) closeexec "set closeexec", pfd, d⟩
  else if reuseaddr ≠ none then ⟨SrsError.wrap (a.mem 1) reuseaddr "set reuseaddr", pfd, d⟩
  else if reuseport ≠ none then ⟨SrsError.wrap (a.mem 1) reuseport "set reuseport", pfd, d⟩
  else if ¬a.bind then ⟨SrsError.new (a.mem 0) ERROR_SOCKET_BIND "bind", pfd, d⟩
  else if ¬a.listen then ⟨SrsError.new (a.mem 0) ERROR_SOCKET_LISTEN "listen", pfd, d⟩
  else openListener d a fd

def doSrsUdpListen (d : Descriptors) (a : Answers) (fd : Int) (pfd : Option Netfd) : Done :=
  let closeexec := srsFdCloseexec (a.mem 0) a.closeexec fd
  let reuseaddr := srsFdReuseaddr (a.mem 0) a.reuseaddr fd
  let reuseport := srsFdReuseport a.reuseport fd
  if closeexec ≠ none then ⟨SrsError.wrap (a.mem 1) closeexec "set closeexec", pfd, d⟩
  else if reuseaddr ≠ none then ⟨SrsError.wrap (a.mem 1) reuseaddr "set reuseaddr", pfd, d⟩
  else if reuseport ≠ none then ⟨SrsError.wrap (a.mem 1) reuseport "set reuseport", pfd, d⟩
  else if ¬a.bind then ⟨SrsError.new (a.mem 0) ERROR_SOCKET_BIND "bind", pfd, d⟩
  else openListener d a fd

/-- `srs_tcp_listen` and `srs_udp_listen`: the type of the socket, and what makes it listen. -/
def srsListen (socktype : Int) (listen : Descriptors → Answers → Int → Option Netfd → Done)
    (d : Descriptors) (a : Answers) (pfd : Option Netfd) : Option Done :=
  match a.getaddrinfo with
  | none =>
    some ⟨SrsError.new (a.mem 0) ERROR_SYSTEM_IP_INVALID
      ("getaddrinfo hints=(0," ++ toString socktype ++ ",4)"), pfd, d⟩
  | some r =>
    match a.socket with
    | none =>
      some ⟨SrsError.new (a.mem 0) ERROR_SOCKET_CREATE
        ("socket domain=" ++ toString r.family ++ ", type=" ++ toString r.socktype ++
          ", protocol=" ++ toString r.protocol), pfd, d⟩
    | some fd =>
      let r := listen (d.openFd fd) a fd pfd
      if r.err ≠ none then
        some ⟨SrsError.wrap (a.mem 2) r.err ("fd=" ++ toString fd), r.pfd, r.d.closeFd fd⟩
      else some r

/-- With `SOCK_STREAM`. -/
def srsTcpListen (d : Descriptors) (a : Answers) (pfd : Option Netfd) : Option Done :=
  srsListen 1 doSrsTcpListen d a pfd

/-- With `SOCK_DGRAM`. -/
def srsUdpListen (d : Descriptors) (a : Answers) (pfd : Option Netfd) : Option Done :=
  srsListen 2 doSrsUdpListen d a pfd

/-! ### Sequences of calls -/

inductive NetCall where
  | tcpConnect (server : String) (port : Int) (a : Answers)
  | tcpBindConnect (server : String) (port : Int) (a : Answers)
  | tcpListen (pfd : Option Netfd) (a : Answers)
  | udpListen (pfd : Option Netfd) (a : Answers)

namespace NetCall

def answers : NetCall → Answers
  | tcpConnect _ _ a => a
  | tcpBindConnect _ _ a => a
  | tcpListen _ a => a
  | udpListen _ a => a

def run (d : Descriptors) : NetCall → Option Done
  | tcpConnect server port a => srsTcpConnect d a server port
  | tcpBindConnect server port a => srsTcpBindConnect d a server port
  | tcpListen pfd a => srsTcpListen d a pfd
  | udpListen pfd a => srsUdpListen d a pfd

/-- The call returns, with answers that are possible. -/
def step (d : Descriptors) (c : NetCall) : Option Descriptors :=
  if c.answers.possible d then (c.run d).map Done.d else none

end NetCall

/-- What a call from `d` has to leave: with an error, the open descriptors as they are; with
success, one more, which is the one it returns.  Nothing is closed that is not open. -/
structure Done.Keeps (d : Descriptors) (r : Done) : Prop where
  error : r.err ≠ none → r.d.opened = d.opened
  success : r.err = none → ∃ p fd, r.pfd = some p ∧ r.d.netfds p = some fd ∧ fd ∉ d.opened ∧
    r.d.opened = insert fd d.opened
  sound : r.d.fault = d.fault

/-- Whatever the call returns, it keeps the ledger. -/
def NetCall.Keeps (d : Descriptors) (c : NetCall) : Prop := ∀ r, c.run d = some r → r.Keeps d

/-- If the call is `srs_tcp_bind_connect` and gets as far as that, it sets `SO_REUSEADDR`. -/
def NetCall.Reuses : NetCall → Prop
  | .tcpBindConnect _ _ a => a.opens = true → a.reuseaddr = true
  | _ => True

/-! ### Opening and closing -/

namespace Descriptors

variable {d : Descriptors} {fd : Int} {p : Netfd}

theorem closeFd_openFd (h : fd ∉ d.opened) : (d.openFd fd).closeFd fd = d := by
  have hin : fd ∈ (d.openFd fd).opened := Finset.mem_insert_self fd d.opened
  rw [closeFd, if_pos hin]
  simp only [openFd, Finset.erase_insert h]

theorem closeNetfd_attach (h : fd ∉ d.opened) (hp : d.netfds p = none) :
    ((d.openFd fd).attach p fd).closeNetfd p = d := by
  have hsame : Function.update (Function.update d.netfds p (some fd)) p none = d.netfds := by
    rw [Function.update_idem, ← hp, Function.update_eq_self]
  rw [closeNetfd, attach]
  simp only [Function.update_self, openFd, hsame]
  exact closeFd_openFd h

end Descriptors

/-- A call from `d` leaves everything as it was, with an error, or has opened what it returns. -/
structure Balanced (d : Descriptors) (r : Done) : Prop where
  error : r.err ≠ none → r.d = d
  success : r.err = none → ∃ p fd, r.pfd = some p ∧ fd ∉ d.opened ∧ d.netfds p = none ∧
    r.d = (d.openFd fd).attach p fd

namespace Balanced

variable {d : Descriptors} {r : Done} {p : Netfd} {fd : Int}

theorem failed {err : SrsError} {pfd : Option Netfd} (h : err ≠ none) :
    Balanced d ⟨err, pfd, d⟩ :=
  ⟨fun _ => rfl, fun hnone => absurd hnone h⟩

theorem opened (hfd : fd ∉ d.opened) (hp : d.netfds p = none) :
    Balanced d ⟨none, some p, (d.openFd fd).attach p fd⟩ :=
  ⟨fun h => absurd rfl h, fun _ => ⟨p, fd, rfl, hfd, hp, rfl⟩⟩

theorem keeps (h : Balanced d r) : r.Keeps d := by
  refine ⟨fun he => by rw [h.error he], fun he => ?_, ?_⟩
  · obtain ⟨p, fd, hpfd, hfd, _, hd⟩ := h.success he
    refine ⟨p, fd, hpfd, ?_, hfd, by rw [hd]; rfl⟩
    rw [hd]
    exact Function.update_self p (some fd) d.netfds
  · by_cases he : r.err = none
    · obtain ⟨p, fd, _, _, _, hd⟩ := h.success he
      rw [hd]
      rfl
    · rw [h.error he]

end Balanced

/-- What is possible of a socket and a netfd that are returned. -/
theorem Answers.possible_some {d : Descriptors} {a : Answers} (h : a.possible d = true) :
    (∀ fd, a.socket = some fd → fd ∉ d.opened) ∧
      ∀ p, a.openSocket = some p → d.netfds p = none := by
  obtain ⟨h₁, h₂⟩ := Bool.and_eq_true_iff.mp h
  constructor
  · intro fd hfd
    rw [hfd] at h₁
    exact of_decide_eq_true h₁
  · intro p hp
    rw [hp] at h₂
    exact of_decide_eq_true h₂

/-- An attempt to connect fails and leaves everything as it was, or it has opened what it returns,
which it does when `ok` holds. -/
inductive Attempt (d : Descriptors) (ok : Prop) : Done → Prop where
  | failed {err : SrsError} (herr : err ≠ none) (hno : ¬ok) : Attempt d ok ⟨err, none, d⟩
  | connected {p : Netfd} {fd : Int} (hfd : fd ∉ d.opened) (hp : d.netfds p = none) (hok : ok) :
    Attempt d ok ⟨none, some p, (d.openFd fd).attach p fd⟩

namespace Attempt

variable {d : Descriptors} {ok ok' : Prop} {r : Done}

theorem congr (h : Attempt d ok r) (hiff : ok ↔ ok') : Attempt d ok' r := by
  cases h with
  | failed herr hno => exact .failed herr (mt hiff.mpr hno)
  | connected hfd hp hok => exact .connected hfd hp (hiff.mp hok)

theorem balanced (h : Attempt d ok r) : Balanced d r := by
  cases h with
  | failed herr hno => exact .failed herr
  | connected hfd hp hok => exact .opened hfd hp

end Attempt

/-- What makes the descriptor `fd` listen leaves the descriptors as they are, with an error, or has
a netfd that owns it. -/
inductive Listens (d : Descriptors) (a : Answers) (fd : Int) : Done → Prop where
  | failed {err : SrsError} {pfd : Option Netfd} (h : err ≠ none) : Listens d a fd ⟨err, pfd, d⟩
  | listening {p : Netfd} (h : a.openSocket = some p) :
    Listens d a fd ⟨none, some p, d.attach p fd⟩

section specs

variable {d : Descriptors} {a : Answers} {server : String} {port fd : Int} {stfd : Netfd}
  {pfd : Option Netfd} {r : Done}

theorem closeAndReturn_spec {err : SrsError} (hfd : fd ∉ d.opened) (hp : d.netfds stfd = none)
    (h : closeAndReturn ((d.openFd fd).attach stfd fd) a stfd err = some r) :
    r = ⟨err, none, d⟩ := by
  rw [closeAndReturn, srsCloseStfd] at h
  split at h
  · rw [Descriptors.closeNetfd_attach hfd hp] at h
    exact (Option.some.inj h).symm
  · exact absurd h (by simp)

/-- Up to the netfd everything is undone on an error. -/
theorem withNetfd_attempt {rest : Descriptors → Int → Netfd → Option Done} {ok : Prop}
    (hok : ok → a.opens = true) (hp : a.possible d = true)
    (hrest : a.opens = true → ∀ sock stfd, sock ∉ d.opened → d.netfds stfd = none →
      rest ((d.openFd sock).attach stfd sock) sock stfd = some r → Attempt d ok r)
    (h : withNetfd d a rest = some r) : Attempt d ok r := by
  obtain ⟨hfresh, hnew⟩ := a.possible_some hp
  rw [withNetfd] at h
  rw [Answers.opens] at hok hrest
  cases hget : a.getaddrinfo with
  | none =>
      rw [hget] at h hok
      cases h
      exact .failed (SrsError.new_ne_none _ _ _) fun hk => absurd (hok hk) (by simp)
  | some info =>
      cases hsock : a.socket with
      | none =>
          rw [hget, hsock] at h hok
          cases h
          exact .failed (SrsError.new_ne_none _ _ _) fun hk => absurd (hok hk) (by simp)
      | some sock =>
          cases hopen : a.openSocket with
          | none =>
              simp only [hget, hsock, hopen, Descriptors.closeFd_openFd (hfresh sock hsock)] at h
              rw [hopen] at hok
              cases h
              exact .failed (SrsError.new_ne_none _ _ _) fun hk => absurd (hok hk) (by simp)
          | some stfd =>
              simp only [hget, hsock, hopen] at h
              refine hrest ?_ sock stfd (hfresh sock hsock) (hnew stfd hopen) h
              rw [hget, hsock, hopen]
              rfl

theorem connectNetfd_attempt (hfd : fd ∉ d.opened) (hp : d.netfds stfd = none)
    (h : connectNetfd ((d.openFd fd).attach stfd fd) a server port stfd = some r) :
    Attempt d (a.connect = true) r := by
  rw [connectNetfd] at h
  split at h
  · next hno =>
      rw [closeAndReturn_spec hfd hp h]
      exact .failed (SrsError.new_ne_none _ _ _) hno
  · next hyes =>
      cases h
      exact .connected hfd hp (not_not.mp hyes)

theorem tcpConnect_attempt (hp : a.possible d = true)
    (h : srsTcpConnect d a server port = some r) : Attempt d (a.connects = true) r := by
  refine withNetfd_attempt (fun hok => (Bool.and_eq_true_iff.mp hok).1) hp ?_ h
  intro hopens sock stfd hfd hnew hrest
  refine (connectNetfd_attempt hfd hnew hrest).congr ?_
  rw [Answers.connects, hopens, Bool.true_and]

/-- `srs_tcp_bind_connect` leaves nothing behind on an error, unless it is that `SO_REUSEADDR`
cannot be set. -/
theorem tcpBindConnect_attempt (hp : a.possible d = true)
    (hreuse : a.opens = true → a.reuseaddr = true)
    (h : srsTcpBindConnect d a server port = some r) : Attempt d (a.bindConnects = true) r := by
  refine withNetfd_attempt (fun hok => ?_) hp ?_ h
  · simp only [Answers.bindConnects, Bool.and_eq_true] at hok
    exact hok.1.1.1.1
  · intro hopens sock stfd hfd hnew hrest
    simp only [srsFdReuseaddr, srsFdReuseport, hreuse hopens, if_true, ne_eq, not_true_eq_false,
      if_false] at hrest
    -- `SO_REUSEPORT` cannot fail, and every other exit closes the netfd
    rw [Answers.bindConnects, hopens, hreuse hopens, Bool.true_and, Bool.true_and]
    split at hrest
    · next hno =>
        rw [closeAndReturn_spec hfd hnew hrest]
        exact .failed (SrsError.new_ne_none _ _ _) (by simp [hno])
    · next hinfo =>
        rw [not_not.mp hinfo, Bool.true_and]
        split at hrest
        · next hno =>
            rw [closeAndReturn_spec hfd hnew hrest]
            exact .failed (SrsError.new_ne_none _ _ _) (by simp [hno])
        · next hbind =>
            rw [not_not.mp hbind, Bool.true_and]
            exact connectNetfd_attempt hfd hnew hrest

/-- If `SO_REUSEADDR` cannot be set, the netfd is left open and nothing owns it. -/
theorem tcpBindConnect_leaks (hopens : a.opens = true) (hreuse : a.reuseaddr = false) :
    ∃ sock stfd err, a.socket = some sock ∧ err ≠ none ∧ srsTcpBindConnect d a server port =
      some ⟨err, none, (d.openFd sock).attach stfd sock⟩ := by
  simp only [Answers.opens, Bool.and_eq_true] at hopens
  obtain ⟨⟨hget, hsock⟩, hopen⟩ := hopens
  obtain ⟨info, hinfo⟩ := Option.isSome_iff_exists.mp hget
  obtain ⟨sock, hs⟩ := Option.isSome_iff_exists.mp hsock
  obtain ⟨stfd, ho⟩ := Option.isSome_iff_exists.mp hopen
  refine ⟨sock, stfd,
    SrsError.wrap (a.mem 1) (srsFdReuseaddr (a.mem 0) a.reuseaddr sock) "set reuseaddr", hs,
    SrsError.wrap_ne_none _ _ _, ?_⟩
  simp only [srsTcpBindConnect, withNetfd, hinfo, hs, ho, srsFdReuseaddr, hreuse,
    Bool.false_eq_true, if_false, ne_eq, SrsError.new_ne_none, not_false_eq_true, if_true]

theorem openListener_listens : Listens d a fd (openListener d a fd) := by
  rw [openListener]
  split
  · exact .failed (SrsError.new_ne_none _ _ _)
  · next p hp => exact .listening hp

theorem doSrsTcpListen_listens : Listens d a fd (doSrsTcpListen d a fd pfd) := by
  simp only [doSrsTcpListen]
  split
  · exact .failed (SrsError.wrap_ne_none _ _ _)
  · split
    · exact .failed (SrsError.wrap_ne_none _ _ _)
    · split
      · exact .failed (SrsError.wrap_ne_none _ _ _)
      · split
        · exact .failed (SrsError.wrap_ne_none _ _ _)
        · split
          · exact .failed (SrsError.new_ne_none _ _ _)
          · split
            · exact .failed (SrsError.new_ne_none _ _ _)
            · exact openListener_listens

theorem doSrsUdpListen_listens : Listens d a fd (doSrsUdpListen d a fd pfd) := by
  simp only [doSrsUdpListen]
  split
  · exact .failed (SrsError.wrap_ne_none _ _ _)
  · split
    · exact .failed (SrsError.wrap_ne_none _ _ _)
    · split
      · exact .failed (SrsError.wrap_ne_none _ _ _)
      · split
        · exact .failed (SrsError.new_ne_none _ _ _)
        · exact openListener_listens

theorem listen_balanced {socktype : Int}
    {listen : Descriptors → Answers → Int → Option Netfd → Done}
    (hl : ∀ d fd, Listens d a fd (listen d a fd pfd)) (hp : a.possible d = true)
    (h : srsListen socktype listen d a pfd = some r) : Balanced d r := by
  obtain ⟨hfresh, hnew⟩ := a.possible_some hp
  rw [srsListen] at h
  cases hget : a.getaddrinfo with
  | none =>
      rw [hget] at h
      cases h
      exact .failed (SrsError.new_ne_none _ _ _)
  | some info =>
      cases hsock : a.socket with
      | none =>
          rw [hget, hsock] at h
          cases h
          exact .failed (SrsError.new_ne_none _ _ _)
      | some fd =>
          simp only [hget, hsock] at h
          -- what fails to listen has no netfd, so closing the socket undoes all
          have hlisten := hl (d.openFd fd) fd
          generalize listen (d.openFd fd) a fd pfd = done at h hlisten
          cases hlisten with
          | failed herr =>
              rw [if_pos herr, Descriptors.closeFd_openFd (hfresh fd hsock)] at h
              cases h
              exact .failed (SrsError.wrap_ne_none _ _ _)
          | listening hopen =>
              rw [if_neg fun hne => hne rfl] at h
              cases h
              exact .opened (hfresh fd hsock) (hnew _ hopen)

end specs

/-! ### The ledger -/

namespace NetCall

variable {d : Descriptors} {c : NetCall}

theorem keeps_of_reuses (hp : c.answers.possible d = true) (h : c.Reuses) : c.Keeps d := by
  intro r hr
  cases c with
  | tcpConnect server port a => exact (tcpConnect_attempt hp hr).balanced.keeps
  | tcpBindConnect server port a => exact (tcpBindConnect_attempt hp h hr).balanced.keeps
  | tcpListen pfd a => exact (listen_balanced (fun _ _ => doSrsTcpListen_listens) hp hr).keeps
  | udpListen pfd a => exact (listen_balanced (fun _ _ => doSrsUdpListen_listens) hp hr).keeps

/-- The exit of `srs_tcp_bind_connect` that does not close its netfd. -/
theorem not_keeps_of_not_reuses (hp : c.answers.possible d = true) (h : ¬c.Reuses) :
    ¬c.Keeps d := by
  cases c with
  | tcpConnect server port a => exact absurd trivial h
  | tcpListen pfd a => exact absurd trivial h
  | udpListen pfd a => exact absurd trivial h
  | tcpBindConnect server port a =>
      simp only [Reuses, Classical.not_imp, Bool.not_eq_true] at h
      obtain ⟨sock, stfd, err, hs, herr, hr⟩ := tcpBindConnect_leaks (d := d) h.1 h.2
      intro hkeeps
      have hsame : insert sock d.opened = d.opened := (hkeeps _ hr).error herr
      exact (Answers.possible_some hp).1 sock hs (Finset.insert_eq_self.mp hsame)

/-- **One call** keeps the ledger exactly when it does not fail to set `SO_REUSEADDR` there. -/
theorem keeps_iff (hp : c.answers.possible d = true) : c.Keeps d ↔ c.Reuses :=
  ⟨fun hk => by_contra fun hno => not_keeps_of_not_reuses hp hno hk, keeps_of_reuses hp⟩

end NetCall

/-- **The ledger of descriptors.**  In a run of calls, every one that returns an error leaves the
open descriptors as they were, every one that succeeds adds the one it returns, and none closes what
is not open, exactly when no call of `srs_tcp_bind_connect` fails to set `SO_REUSEADDR`. -/
theorem ledger_iff {d d' : Descriptors} {calls : List NetCall}
    (h : exec NetCall.step d calls = some d') :
    AllSteps NetCall.step (fun d c => c.Keeps d) d calls ↔ ∀ c ∈ calls, c.Reuses := by
  refine exec_ind (P := fun calls _ => AllSteps NetCall.step (fun d c => c.Keeps d) d calls ↔
    ∀ c ∈ calls, c.Reuses) ?_ ?_ h
  · exact iff_of_true (allSteps_nil d) fun _ hc => absurd hc List.not_mem_nil
  · intro calls m c m' hm ih hstep
    have hp : c.answers.possible m = true := by
      by_contra hno
      rw [NetCall.step, if_neg hno] at hstep
      cases hstep
    rw [allSteps_snoc hm, ih, NetCall.keeps_iff hp, List.forall_mem_append,
      List.forall_mem_singleton]

section runs

/-- No descriptor is open. -/
def noDescriptors : Descriptors := ⟨∅, fun _ => none, false⟩

/-- All goes well, the socket is 3 and the netfd is at 64. -/
def allWell : Answers where
  getaddrinfo := some ⟨2, 1, 6⟩
  socket := some 3
  keepalive := true
  closeexec := true
  reuseaddr := true
  reuseport := true
  bindGetaddrinfo := true
  bind := true
  listen := true
  openSocket := some 64
  connect := true
  closeNetfd := true
  mem := id

/-- A connection that is refused, and one to the same server that is not. -/
theorem ledger_iff_two :
    AllSteps NetCall.step (fun d c => c.Keeps d) noDescriptors
      [.tcpConnect "10.0.0.1" 80 { allWell with connect := false },
        .tcpBindConnect "10.0.0.1" 80 allWell] := by
  obtain ⟨d', hd'⟩ : ∃ d', exec NetCall.step noDescriptors
      [.tcpConnect "10.0.0.1" 80 { allWell with connect := false },
        .tcpBindConnect "10.0.0.1" 80 allWell] = some d' := ⟨_, rfl⟩
  refine (ledger_iff hd').mpr fun c hc => ?_
  rcases List.mem_pair.mp hc with rfl | rfl
  · trivial
  · exact fun _ => rfl

/-- `srs_tcp_bind_connect` to `10.0.0.1` returns an error and leaves the descriptor 3 open, if
`SO_REUSEADDR` cannot be set. -/
theorem bind_connect_leaks :
    ¬AllSteps NetCall.step (fun d c => c.Keeps d) noDescriptors
      [.tcpBindConnect "10.0.0.1" 80 { allWell with reuseaddr := false }] := by
  intro h
  have hkeeps : insert (3 : Int) ∅ = (∅ : Finset Int) :=
    (h [] _ [] noDescriptors rfl rfl _ rfl).error (SrsError.wrap_ne_none _ _ _)
  exact Finset.insert_ne_empty 3 ∅ hkeeps

end runs

end StCoroutine.Service
