import Mathlib.Algebra.Group.Nat.Defs
import StCoroutine.Kernel.Clock
import StCoroutine.Listener.Udp

/-!
# Listener — the peer of `SrsUdpMuxSocket`

`SrsUdpMuxSocket` of `srs_app_listener.cpp` keeps its peer in several places: the address `from`
that `sendto` answers to, the integer `fast_id_`, and the text of `peer_id`, which is made when it
is asked for and kept until `address_changed_`.  A `sockaddr_storage` is the address of an IPv4
peer, its port and address in network order on a little-endian host, or the bytes of another.

`peer_views_agree_iff`: after a first datagram of an IPv4 peer, the three views name one peer all
along a run exactly when every datagram that is dropped comes from the peer at that time, and every
`update_from_sockaddr` sets it to what it is.
-/

set_option autoImplicit false

namespace StCoroutine.Listener
open Kernel Lts

/-! ### Addresses -/

inductive Sockaddr where
  | inet (port : UInt16) (addr : UInt32)
  | other (bytes : List UInt8)
  deriving DecidableEq

/-- What the network fills in for the length of an address; it is `sizeof(sockaddr_in)` for one of
IPv4. -/
def Sockaddr.len : Sockaddr → Int
  | inet _ _ => 16
  | other bytes => bytes.length

/-- `ntohs`. -/
def ntohs (port : UInt16) : UInt16 := port <<< 8 ||| port >>> 8

/-- `htons` of an `int`. -/
def htons (port : Int) : UInt16 := ntohs (UInt16.ofInt port)

/-- `inet_ntoa`. -/
def inetNtoa (addr : UInt32) : String :=
  toString addr.toUInt8 ++ "." ++ toString (addr >>> 8).toUInt8 ++ "." ++
    toString (addr >>> 16).toUInt8 ++ "." ++ toString (addr >>> 24).toUInt8

/-- `uint64_t(port) << 48 | uint64_t(addr)`. -/
def fastIdOf (port : UInt16) (addr : UInt32) : UInt64 := port.toUInt64 <<< 48 ||| addr.toUInt64

/-- The text `"%s:%d"` of a peer. -/
def peerIdText (peerIp : String) (peerPort : Int) : String := peerIp ++ ":" ++ toString peerPort

/-- The text of an IPv4 peer. -/
def peerIdOf (port : UInt16) (addr : UInt32) : String :=
  peerIdText (inetNtoa addr) (ntohs port).toNat

/-! ### The socket -/

/-- The buffer of the socket is a function of the offset; `cache_buffer_` is over the same bytes,
and it is its size and its position. -/
structure SrsUdpMuxSocket where
  nnMsgsForYield : UInt32
  cache : UInt32 → Option String
  cacheSize : Int
  cachePos : Int
  buf : Nat → UInt8
  nbBuf : Nat
  nread : Int
  fromAddr : Sockaddr
  fromlen : Int
  peerIp : String
  peerPort : Int
  peerIdCache : String
  addressChanged : Bool
  fastId : UInt64

/-- What the network has for `srs_recvfrom`: a datagram, or a failure of the call. -/
inductive Arrival where
  | packet (sender : Sockaddr) (bytes : List UInt8)
  | fail (nread : Int) (neg : nread < 0)

/-- What a method of the socket asks of the world: to send to an address, or to yield. -/
inductive SendEvent where
  | sendto (dest : Sockaddr) (destlen : Int)
  | yield

namespace SrsUdpMuxSocket

/-- `SrsUdpMuxSocket::SrsUdpMuxSocket`, with what is in the memory that it does not set. -/
def new (buf : Nat → UInt8) (fromAddr : Sockaddr) : SrsUdpMuxSocket where
  nnMsgsForYield := 0
  cache := fun _ => none
  cacheSize := udpMaxPacketSize
  cachePos := 0
  buf := buf
  nbBuf := udpMaxPacketSize
  nread := 0
  fromAddr := fromAddr
  fromlen := 0
  peerIp := ""
  peerPort := 0
  peerIdCache := ""
  addressChanged := false
  fastId := 0

/-- `inet_addr` is the parameter: what it makes of a text is its own. -/
def updateFromSockaddr (inetAddr : String → UInt32) (t : SrsUdpMuxSocket) (peerIp : String)
    (port : Int) : SrsError × SrsUdpMuxSocket :=
  (none, { t with
    fromAddr := .inet (htons port) (inetAddr peerIp), fromlen := 16, addressChanged := true })

/-- The health check of a load balancer. -/
def healthCheck (nread : Int) (buf : Nat → UInt8) : Bool :=
  nread = 21 ∧ buf 0 = 0x48 ∧ buf 1 = 0x65 ∧ buf 2 = 0x61 ∧ buf 3 = 0x6c ∧ buf 19 = 0x63 ∧
    buf 20 = 0x6b

def recvfrom (t : SrsUdpMuxSocket) (a : Arrival) : Int × SrsUdpMuxSocket :=
  let t := { t with fromlen := sizeofSockaddrStorage }
  match a with
  | .fail nread _ => (nread, { t with nread := nread })
  | .packet sender bytes =>
    let t := { t with
      buf := store t.buf (bytes.take t.nbBuf), nread := (bytes.take t.nbBuf).length,
      fromAddr := sender, fromlen := sender.len }
    if t.nread ≤ 0 then (t.nread, t)
    else
      let t := { t with cacheSize := t.nread, cachePos := 0 }
      if healthCheck t.nread t.buf then (0, t)
      else
        let t := match t.fromAddr with
          | .inet port addr => { t with fastId := fastIdOf port addr }
          | .other _ => t
        (t.nread, { t with addressChanged := true })

/-- `srs_sendto` returns `nbWrite`, and `etime` if it timed out. -/
def sendto (t : SrsUdpMuxSocket) (mem : Nat) (timeout nbWrite : Int) (etime : Bool) :
    SrsError × List SendEvent × SrsUdpMuxSocket :=
  let sent := SendEvent.sendto t.fromAddr t.fromlen
  if nbWrite ≤ 0 then
    if nbWrite < 0 ∧ etime then
      (SrsError.new mem ERROR_SOCKET_TIMEOUT
        ("sendto timeout " ++ toString (srsu2msi timeout) ++ " ms"), [sent], t)
    else (SrsError.new mem ERROR_SOCKET_WRITE "sendto", [sent], t)
  else
    let t := { t with nnMsgsForYield := t.nnMsgsForYield + 1 }
    if t.nnMsgsForYield > 20 then (none, [sent, .yield], { t with nnMsgsForYield := 0 })
    else (none, [sent], t)

/-- `peer_ip` and `peer_port` of the peer: from the cache, or made; for another family `getnameinfo`
tells them, unless it fails. -/
def parse (t : SrsUdpMuxSocket) (resolved : Option (String × Int)) : Option SrsUdpMuxSocket :=
  match t.fromAddr with
  | .inet port addr =>
    match t.cache addr with
    | none => some { t with
        peerIp := inetNtoa addr, cache := Function.update t.cache addr (some (inetNtoa addr)),
        peerPort := (ntohs port).toNat }
    | some ip => some { t with peerIp := ip, peerPort := (ntohs port).toNat }
  | .other _ => resolved.map fun (ip, port) => { t with peerIp := ip, peerPort := port }

def peerId (t : SrsUdpMuxSocket) (resolved : Option (String × Int)) : String × SrsUdpMuxSocket :=
  if t.addressChanged then
    let t := { t with addressChanged := false }
    match t.parse resolved with
    | none => ("", t)
    | some t =>
      let id := peerIdText t.peerIp t.peerPort
      (id, { t with peerIdCache := id })
  else (t.peerIdCache, t)

end SrsUdpMuxSocket

/-! ### Runs -/

/-- A call of a method, with what the system answers it. -/
inductive MuxCall where
  | recvfrom (a : Arrival)
  | updateFromSockaddr (peerIp : String) (port : Int)
  | peerId (resolved : Option (String × Int))
  | sendto (mem : Nat) (timeout nbWrite : Int) (etime : Bool)

namespace SrsUdpMuxSocket

def step (inetAddr : String → UInt32) (t : SrsUdpMuxSocket) : MuxCall → Option SrsUdpMuxSocket
  | .recvfrom a => some (t.recvfrom a).2
  | .updateFromSockaddr peerIp port => some (t.updateFromSockaddr inetAddr peerIp port).2
  | .peerId resolved => some (t.peerId resolved).2
  | .sendto mem timeout nbWrite etime => some (t.sendto mem timeout nbWrite etime).2.2

/-- The three views of the peer name this one: where `sendto` sends to, `fast_id`, and what the next
`peer_id` returns. -/
structure Names (t : SrsUdpMuxSocket) (port : UInt16) (addr : UInt32) : Prop where
  sendto : t.fromAddr = .inet port addr
  fastId : t.fastId = fastIdOf port addr
  peerId : ∀ resolved, (t.peerId resolved).1 = peerIdOf port addr

/-- The three views name one peer. -/
def Agree (t : SrsUdpMuxSocket) : Prop := ∃ port addr, t.Names port addr

end SrsUdpMuxSocket

/-- The datagram is empty, or a health check. -/
def dropped (bytes : List UInt8) : Bool :=
  bytes = [] ∨ SrsUdpMuxSocket.healthCheck bytes.length fun i => bytes.getD i 0

/-- If it receives a datagram that is not dropped, it is from an IPv4 peer. -/
def MuxCall.Ipv4 : MuxCall → Prop
  | .recvfrom (.packet sender bytes) =>
    dropped bytes = false → ∃ port addr, sender = .inet port addr
  | _ => True

/-- A datagram that is dropped comes from the peer, and a new address is that of the peer. -/
def MuxCall.Keeps (inetAddr : String → UInt32) (t : SrsUdpMuxSocket) : MuxCall → Prop
  | .recvfrom (.packet sender bytes) => dropped bytes = true → sender = t.fromAddr
  | .updateFromSockaddr peerIp port => .inet (htons port) (inetAddr peerIp) = t.fromAddr
  | _ => True

/-! ### Two numbers in one -/

theorem fastIdOf_toNat (port : UInt16) (addr : UInt32) :
    (fastIdOf port addr).toNat = port.toNat * 2 ^ 48 + addr.toNat := by
  have hp := port.toNat_lt
  have ha : addr.toNat < 2 ^ 48 := Nat.lt_of_lt_of_le addr.toNat_lt (by decide)
  have hshift : (port.toUInt64 <<< 48).toNat = port.toNat <<< 48 := by
    have hlt : port.toNat * 2 ^ 48 < 2 ^ 64 := by omega
    rw [UInt64.toNat_shiftLeft, UInt16.toNat_toUInt64, show (48 : UInt64).toNat % 64 = 48 from rfl,
      Nat.shiftLeft_eq, Nat.mod_eq_of_lt hlt]
  rw [fastIdOf, UInt64.toNat_or, hshift, UInt32.toNat_toUInt64,
    ← Nat.shiftLeft_add_eq_or_of_lt ha, Nat.shiftLeft_eq]

theorem fastIdOf_inj {port port' : UInt16} {addr addr' : UInt32}
    (h : fastIdOf port addr = fastIdOf port' addr') : port = port' ∧ addr = addr' := by
  have hn := congrArg UInt64.toNat h
  rw [fastIdOf_toNat, fastIdOf_toNat] at hn
  have ha := addr.toNat_lt
  have ha' := addr'.toNat_lt
  exact ⟨UInt16.toNat_inj.mp (by omega), UInt32.toNat_inj.mp (by omega)⟩

namespace SrsUdpMuxSocket

variable {t : SrsUdpMuxSocket} {port : UInt16} {addr : UInt32}

/-! ### What the methods leave -/

/-- The cache has the text of an address, if it has one. -/
structure Ok (t : SrsUdpMuxSocket) : Prop where
  cache : ∀ addr ip, t.cache addr = some ip → ip = inetNtoa addr
  nbBuf : t.nbBuf = udpMaxPacketSize

theorem healthCheck_congr {nread : Int} {buf buf' : Nat → UInt8}
    (h : nread = 21 → ∀ i < 21, buf i = buf' i) :
    healthCheck nread buf = healthCheck nread buf' := by
  by_cases hn : nread = 21
  · have hb := h hn
    simp only [healthCheck, hb 0, hb 1, hb 2, hb 3, hb 19, hb 20, Nat.reduceLT]
  · simp only [healthCheck, hn, false_and]

/-- The datagram is dropped, as `recvfrom` finds it in the buffer. -/
theorem dropped_iff {bytes : List UInt8} {b : Nat → UInt8} :
    dropped bytes = true ↔ ((bytes.take udpMaxPacketSize).length : Int) ≤ 0 ∨
      healthCheck (bytes.take udpMaxPacketSize).length
        (store b (bytes.take udpMaxPacketSize)) = true := by
  have hcheck : healthCheck (bytes.take udpMaxPacketSize).length
      (store b (bytes.take udpMaxPacketSize)) =
      healthCheck bytes.length fun i => bytes.getD i 0 := by
    by_cases hlen : bytes.length = 21
    · -- 21 bytes fit into the buffer, and a longer datagram is not cut to 21
      have htake : bytes.take udpMaxPacketSize = bytes :=
        List.take_of_length_le (by rw [hlen]; decide)
      rw [htake]
      refine healthCheck_congr fun _ i hi => ?_
      have hi' : i < bytes.length := hlen ▸ hi
      simp only [store, List.getD_eq_getElem?_getD, List.getElem?_eq_getElem hi', Option.getD_some]
    · have htake : (bytes.take udpMaxPacketSize).length ≠ 21 := by
        rw [List.length_take, udpMaxPacketSize]
        omega
      have hne : ∀ {n : Nat} {f : Nat → UInt8}, n ≠ 21 → healthCheck n f = false := by
        intro n f hn
        have hz : (n : Int) ≠ 21 := fun hz => hn (Int.ofNat_inj.mp hz)
        simp only [healthCheck, hz, false_and, decide_false]
      rw [hne htake, hne hlen]
  have hempty : ((bytes.take udpMaxPacketSize).length : Int) ≤ 0 ↔ bytes = [] := by
    rw [List.length_take, udpMaxPacketSize, ← List.length_eq_zero_iff]
    omega
  rw [dropped, decide_eq_true_iff, hcheck, hempty]

theorem recvfrom_dropped {bytes : List UInt8} (hok : t.Ok) (h : dropped bytes = true)
    (sender : Sockaddr) :
    ∃ buf nread cacheSize cachePos, (t.recvfrom (.packet sender bytes)).2 =
      { t with
        buf := buf, nread := nread, cacheSize := cacheSize, cachePos := cachePos,
        fromAddr := sender, fromlen := sender.len } := by
  rw [dropped_iff (b := t.buf)] at h
  simp only [recvfrom, hok.nbBuf]
  by_cases hempty : ((bytes.take udpMaxPacketSize).length : Int) ≤ 0
  · rw [if_pos hempty]
    exact ⟨_, _, _, _, rfl⟩
  · rw [if_neg hempty, if_pos (h.resolve_left hempty)]
    exact ⟨_, _, _, _, rfl⟩

/-- A datagram that is not dropped sets the peer. -/
theorem recvfrom_accepted {bytes : List UInt8} (hok : t.Ok) (h : dropped bytes = false)
    (port : UInt16) (addr : UInt32) :
    ∃ buf nread cacheSize cachePos, (t.recvfrom (.packet (.inet port addr) bytes)).2 =
      { t with
        buf := buf, nread := nread, cacheSize := cacheSize, cachePos := cachePos,
        fromAddr := .inet port addr, fromlen := 16, fastId := fastIdOf port addr,
        addressChanged := true } := by
  have hnot := mt (dropped_iff (b := t.buf)).mpr (by rw [h]; exact Bool.false_ne_true)
  obtain ⟨hempty, hcheck⟩ := not_or.mp hnot
  simp only [recvfrom, hok.nbBuf]
  rw [if_neg hempty, if_neg hcheck]
  exact ⟨_, _, _, _, rfl⟩

/-- The text of an IPv4 peer is made, or found in the cache, and is the same. -/
theorem parse_inet (hok : t.Ok) (hfrom : t.fromAddr = .inet port addr)
    (resolved : Option (String × Int)) :
    ∃ cache, (∀ a ip, cache a = some ip → ip = inetNtoa a) ∧ t.parse resolved = some { t with
      peerIp := inetNtoa addr, cache := cache, peerPort := (ntohs port).toNat } := by
  simp only [parse, hfrom]
  cases hc : t.cache addr with
  | none =>
      refine ⟨Function.update t.cache addr (some (inetNtoa addr)), fun a ip ha => ?_, rfl⟩
      by_cases hne : a = addr
      · subst hne
        rw [Function.update_self] at ha
        exact (Option.some.inj ha).symm
      · rw [Function.update_of_ne hne] at ha
        exact hok.cache a ip ha
  | some ip =>
      rw [hok.cache addr ip hc]
      exact ⟨t.cache, hok.cache, rfl⟩

theorem peerId_inet (hok : t.Ok) (hfrom : t.fromAddr = .inet port addr)
    (hchanged : t.addressChanged = true) (resolved : Option (String × Int)) :
    ∃ cache, (∀ a ip, cache a = some ip → ip = inetNtoa a) ∧
      t.peerId resolved = (peerIdOf port addr, { t with
        addressChanged := false, peerIp := inetNtoa addr, cache := cache,
        peerPort := (ntohs port).toNat, peerIdCache := peerIdOf port addr }) := by
  have hok' : Ok { t with addressChanged := false } := ⟨hok.cache, hok.nbBuf⟩
  obtain ⟨cache, hcache, hparse⟩ := parse_inet hok' hfrom resolved
  refine ⟨cache, hcache, ?_⟩
  rw [peerId, if_pos hchanged]
  simp only [hparse]
  rfl

theorem peerId_kept (hchanged : t.addressChanged = false) (resolved : Option (String × Int)) :
    t.peerId resolved = (t.peerIdCache, t) := by
  rw [peerId, hchanged]
  rfl

/-- What the three views name, in terms of the fields. -/
theorem names_iff (hok : t.Ok) :
    t.Names port addr ↔ t.fromAddr = .inet port addr ∧ t.fastId = fastIdOf port addr ∧
      (t.addressChanged = false → t.peerIdCache = peerIdOf port addr) := by
  constructor
  · intro h
    refine ⟨h.sendto, h.fastId, fun hkept => ?_⟩
    have hid := h.peerId none
    rwa [peerId_kept hkept] at hid
  · rintro ⟨hfrom, hfast, hid⟩
    refine ⟨hfrom, hfast, fun resolved => ?_⟩
    cases hchanged : t.addressChanged with
    | true =>
        obtain ⟨cache, _, he⟩ := peerId_inet hok hfrom hchanged resolved
        rw [he]
    | false => rw [peerId_kept hchanged, hid hchanged]

/-! ### One call -/

theorem recvfrom_frame (a : Arrival) :
    (t.recvfrom a).2.cache = t.cache ∧ (t.recvfrom a).2.nbBuf = t.nbBuf := by
  cases a with
  | fail nread neg => exact ⟨rfl, rfl⟩
  | packet sender bytes =>
      simp only [recvfrom]
      split
      · exact ⟨rfl, rfl⟩
      · split
        · exact ⟨rfl, rfl⟩
        · cases sender with
          | inet port addr => exact ⟨rfl, rfl⟩
          | other bs => exact ⟨rfl, rfl⟩

theorem sendto_frame (mem : Nat) (timeout nbWrite : Int) (etime : Bool) :
    ∃ n, (t.sendto mem timeout nbWrite etime).2.2 = { t with nnMsgsForYield := n } := by
  simp only [sendto]
  split
  · split
    · exact ⟨_, rfl⟩
    · exact ⟨_, rfl⟩
  · split
    · exact ⟨_, rfl⟩
    · exact ⟨_, rfl⟩

theorem Ok.peerId (hok : t.Ok) (resolved : Option (String × Int)) : (t.peerId resolved).2.Ok := by
  cases hchanged : t.addressChanged with
  | false =>
      rw [peerId_kept hchanged]
      exact hok
  | true =>
      cases hfrom : t.fromAddr with
      | inet port addr =>
          obtain ⟨cache, hcache, he⟩ := peerId_inet hok hfrom hchanged resolved
          rw [he]
          exact ⟨hcache, hok.nbBuf⟩
      | other bytes =>
          simp only [SrsUdpMuxSocket.peerId, hchanged, parse, hfrom, if_true]
          cases resolved with
          | none => exact ⟨hok.cache, hok.nbBuf⟩
          | some r => exact ⟨hok.cache, hok.nbBuf⟩

theorem Ok.recvfrom (hok : t.Ok) (a : Arrival) : (t.recvfrom a).2.Ok := by
  obtain ⟨hcache, hbuf⟩ := recvfrom_frame (t := t) a
  exact ⟨hcache ▸ hok.cache, hbuf.trans hok.nbBuf⟩

theorem Ok.sendto (hok : t.Ok) (mem : Nat) (timeout nbWrite : Int) (etime : Bool) :
    (t.sendto mem timeout nbWrite etime).2.2.Ok := by
  obtain ⟨n, he⟩ := sendto_frame (t := t) mem timeout nbWrite etime
  rw [he]
  exact ⟨hok.cache, hok.nbBuf⟩

variable {inetAddr : String → UInt32}

theorem Ok.step {t' : SrsUdpMuxSocket} {c : MuxCall} (hok : t.Ok)
    (h : step inetAddr t c = some t') : t'.Ok := by
  cases c with
  | recvfrom a =>
      cases h
      exact hok.recvfrom a
  | updateFromSockaddr ip port =>
      cases h
      exact ⟨hok.cache, hok.nbBuf⟩
  | peerId resolved =>
      cases h
      exact hok.peerId resolved
  | sendto mem timeout nbWrite etime =>
      cases h
      exact hok.sendto mem timeout nbWrite etime

/-! ### The views after a call -/

/-- A datagram of an IPv4 peer that is not dropped sets the three views, whatever they were. -/
theorem names_recvfrom {bytes : List UInt8} (hok : t.Ok) (h : dropped bytes = false)
    (port : UInt16) (addr : UInt32) :
    (t.recvfrom (.packet (.inet port addr) bytes)).2.Names port addr := by
  have hok' := hok.recvfrom (.packet (.inet port addr) bytes)
  obtain ⟨buf, nread, size, pos, he⟩ := recvfrom_accepted hok h port addr
  rw [he] at hok' ⊢
  exact (names_iff hok').mpr ⟨rfl, rfl, fun hc => absurd hc (by simp)⟩

/-- To ask for the text leaves the views. -/
theorem Names.peerId_step (h : t.Names port addr) (hok : t.Ok) (resolved : Option (String × Int)) :
    (t.peerId resolved).2.Names port addr := by
  have hok' := hok.peerId resolved
  cases hchanged : t.addressChanged with
  | false =>
      rw [peerId_kept hchanged]
      exact h
  | true =>
      obtain ⟨cache, _, he⟩ := peerId_inet hok h.sendto hchanged resolved
      rw [he] at hok' ⊢
      exact (names_iff hok').mpr ⟨h.sendto, h.fastId, fun _ => rfl⟩

/-- To send leaves the views. -/
theorem Names.sendto_step (h : t.Names port addr) (hok : t.Ok) (mem : Nat) (timeout nbWrite : Int)
    (etime : Bool) : (t.sendto mem timeout nbWrite etime).2.2.Names port addr := by
  have hok' := hok.sendto mem timeout nbWrite etime
  obtain ⟨n, he⟩ := sendto_frame (t := t) mem timeout nbWrite etime
  rw [he] at hok' ⊢
  exact (names_iff hok').mpr ((names_iff hok).mp h)

/-- Where `fast_id_` is not touched, and the text is kept or will be made again, the views go on to
agree exactly when the address is the same. -/
theorem Names.agree_iff {t' : SrsUdpMuxSocket} (h : t.Names port addr) (hok : t.Ok) (hok' : t'.Ok)
    (hfast : t'.fastId = t.fastId)
    (hid : t'.addressChanged = false →
      t.addressChanged = false ∧ t'.peerIdCache = t.peerIdCache) :
    t'.Agree ↔ t'.fromAddr = t.fromAddr := by
  obtain ⟨hfrom, hf, hkept⟩ := (names_iff hok).mp h
  constructor
  · rintro ⟨port', addr', h'⟩
    obtain ⟨rfl, rfl⟩ := fastIdOf_inj (hf.symm.trans (hfast.symm.trans h'.fastId))
    rw [h'.sendto, hfrom]
  · intro hsame
    refine ⟨port, addr, (names_iff hok').mpr ⟨hsame.trans hfrom, hfast.trans hf, fun hc => ?_⟩⟩
    obtain ⟨hc', he⟩ := hid hc
    rw [he, hkept hc']

/-- **One call**: the views agree afterwards exactly when it keeps the peer, or sets it as a
datagram does. -/
theorem agree_step {t' : SrsUdpMuxSocket} {c : MuxCall} (hok : t.Ok) (h : t.Agree) (hv4 : c.Ipv4)
    (hs : SrsUdpMuxSocket.step inetAddr t c = some t') : t'.Agree ↔ c.Keeps inetAddr t := by
  have hok' := hok.step hs
  obtain ⟨port, addr, hn⟩ := h
  cases c with
  | recvfrom a =>
      cases a with
      | fail nread neg =>
          cases hs
          exact (hn.agree_iff hok hok' rfl fun hc => ⟨hc, rfl⟩).trans (iff_of_true rfl trivial)
      | packet sender bytes =>
          cases hdrop : dropped bytes with
          | true =>
              obtain ⟨buf, nread, size, pos, he⟩ := recvfrom_dropped hok hdrop sender
              cases hs
              rw [he] at hok' ⊢
              refine (hn.agree_iff hok hok' rfl fun hc => ⟨hc, rfl⟩).trans ?_
              exact ⟨fun hfrom _ => hfrom, fun hkeeps => hkeeps hdrop⟩
          | false =>
              -- all views are set anew, whatever they were
              obtain ⟨port', addr', rfl⟩ := hv4 hdrop
              cases hs
              refine iff_of_true ⟨port', addr', names_recvfrom hok hdrop port' addr'⟩ ?_
              exact fun hd => absurd (hdrop.symm.trans hd) (by simp)
  | updateFromSockaddr ip p =>
      cases hs
      exact hn.agree_iff hok hok' rfl fun hc => absurd hc (by simp [updateFromSockaddr])
  | peerId resolved =>
      cases hs
      exact iff_of_true ⟨port, addr, hn.peerId_step hok resolved⟩ trivial
  | sendto mem timeout nbWrite etime =>
      cases hs
      exact iff_of_true ⟨port, addr, hn.sendto_step hok mem timeout nbWrite etime⟩ trivial

theorem ok_new (buf : Nat → UInt8) (fromAddr : Sockaddr) : (new buf fromAddr).Ok :=
  ⟨fun _ _ h => absurd h (by simp [new]), rfl⟩

theorem step_total (inetAddr : String → UInt32) (t : SrsUdpMuxSocket) (c : MuxCall) :
    ∃ t', step inetAddr t c = some t' := by
  cases c with
  | recvfrom a => exact ⟨_, rfl⟩
  | updateFromSockaddr ip port => exact ⟨_, rfl⟩
  | peerId resolved => exact ⟨_, rfl⟩
  | sendto mem timeout nbWrite etime => exact ⟨_, rfl⟩

/-- A first datagram of an IPv4 peer sets the three views. -/
theorem agree_first {bytes : List UInt8} (hok : t.Ok) (h : dropped bytes = false)
    (port : UInt16) (addr : UInt32) :
    (t.recvfrom (.packet (.inet port addr) bytes)).2.Ok ∧
      (t.recvfrom (.packet (.inet port addr) bytes)).2.Agree :=
  ⟨hok.recvfrom _, port, addr, names_recvfrom hok h port addr⟩

end SrsUdpMuxSocket

/-! ### Whole runs -/

open SrsUdpMuxSocket in
/-- **The views of the peer.**  Whatever was called before a first datagram of an IPv4 peer is
accepted, the three views agree in every state from then on exactly when no datagram that is dropped
comes from another sender than the peer, and no `update_from_sockaddr` sets another peer. -/
theorem peer_views_agree_iff (inetAddr : String → UInt32) (buf : Nat → UInt8)
    (fromAddr : Sockaddr) (before calls : List MuxCall) (port : UInt16) (addr : UInt32)
    {bytes : List UInt8} {t : SrsUdpMuxSocket}
    (ht : exec (step inetAddr) (new buf fromAddr) before = some t)
    (hfirst : dropped bytes = false) (hv4 : ∀ c ∈ calls, c.Ipv4) :
    AllStates (step inetAddr) Agree (t.recvfrom (.packet (.inet port addr) bytes)).2 calls ↔
      AllSteps (step inetAddr) (fun t c => c.Keeps inetAddr t)
        (t.recvfrom (.packet (.inet port addr) bytes)).2 calls := by
  have hok : t.Ok := exec_inv (ok_new buf fromAddr) (fun _ _ _ => Ok.step) ht
  obtain ⟨hok', hagree⟩ := agree_first hok hfirst port addr
  obtain ⟨t', ht'⟩ := exec_total (step_total inetAddr) _ calls
  exact (allSteps_iff_allStates (D := MuxCall.Ipv4) hok' hagree (fun _ _ _ => Ok.step)
    (fun _ _ _ hi hg hd hs => agree_step hi hg hd hs) ht' hv4).symm

section runs
open SrsUdpMuxSocket

/-- A health check: `Health`, 13 blanks and `ck`. -/
def healthCheckPacket : List UInt8 :=
  [0x48, 0x65, 0x61, 0x6c, 0x74, 0x68] ++ List.replicate 13 0x20 ++ [0x63, 0x6b]

/-- A socket with a peer at `10.0.0.1`, port 256, which has sent one byte. -/
def peerAtTen : SrsUdpMuxSocket :=
  ((new (fun _ => 0) (.other [])).recvfrom (.packet (.inet 1 0x0100000a) [7])).2

theorem peer_views_agree_iff_two :
    AllStates (step fun _ => 0) Agree peerAtTen
      [.peerId none, .recvfrom (.packet (.inet 2 0x0100000a) [8])] := by
  refine (peer_views_agree_iff (fun _ => 0) (fun _ => 0) (.other []) [] _ 1 0x0100000a rfl
    (by decide) ?_).mpr ?_
  · intro c hc
    rcases List.mem_pair.mp hc with rfl | rfl
    · trivial
    · exact fun _ => ⟨_, _, rfl⟩
  · intro pre c post m e _
    have hc : c ∈ pre ++ c :: post := List.mem_append_right _ (List.mem_cons_self ..)
    rw [← e] at hc
    rcases List.mem_pair.mp hc with rfl | rfl
    · trivial
    · exact fun hd => absurd hd (by decide)

/-- Where two views name different peers, they do not agree. -/
theorem not_agree {t : SrsUdpMuxSocket} {port port' : UInt16} {addr addr' : UInt32}
    (hfrom : t.fromAddr = .inet port addr) (hfast : t.fastId = fastIdOf port' addr')
    (hne : port ≠ port') : ¬t.Agree := by
  rintro ⟨p, a, hn⟩
  obtain ⟨rfl, rfl⟩ := Sockaddr.inet.inj (hfrom.symm.trans hn.sendto)
  exact hne (fastIdOf_inj (hn.fastId.symm.trans hfast)).1

/-- After the peer at `10.0.0.1` is accepted, a health check from `10.0.0.2`, port 512, sets `from`
and nothing else, and so does `update_from_sockaddr` but for the text. -/
theorem peer_views_differ :
    ¬AllStates (step fun _ => 0x0200000a) Agree peerAtTen
        [.recvfrom (.packet (.inet 2 0x0200000a) healthCheckPacket)] ∧
      ¬AllStates (step fun _ => 0x0200000a) Agree peerAtTen
        [.updateFromSockaddr "10.0.0.2" 512] := by
  constructor
  · intro h
    exact not_agree rfl rfl (by decide) (h.last rfl)
  · intro h
    exact not_agree rfl rfl (by decide) (h.last rfl)

end runs

end StCoroutine.Listener
