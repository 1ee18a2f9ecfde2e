import Mathlib.Data.List.Forall2
import StCoroutine.Kernel.Error
import StCoroutine.Lib.Lts

/-!
# Listener — the receive loop of `SrsUdpListener`

`SrsUdpListener::cycle` of `srs_app_listener.cpp`.  A step is a round of its loop: `trd->pull()`,
`srs_recvfrom` into the shared buffer, and `handler->on_udp_packet`; what these return is part of
the label.  The buffer is a function of the offset, and the handler may leave anything in it.
`SrsUdpPacketRecvCycleInterval` is `0`, so the loop never sleeps.

`srs_recvfrom` returns the length of the datagram, and a negative value on an error.
`cycle_delivers_iff`: with no stop, no error and a handler that succeeds, the loop goes on and
hands over every datagram once, in order, exactly when none of them is empty.
-/

set_option autoImplicit false

namespace StCoroutine.Listener
open Kernel Lts

/-! ### The loop -/

/-- `SRS_UDP_MAX_PACKET_SIZE`. -/
def udpMaxPacketSize : Nat := 65535

/-- `sizeof(sockaddr_storage)`. -/
def sizeofSockaddrStorage : Nat := 128

/-- A datagram: the socket address of its sender and its bytes. -/
structure Datagram where
  sender : List UInt8
  bytes : List UInt8
  sender_le : sender.length ≤ sizeofSockaddrStorage
  bytes_le : bytes.length ≤ udpMaxPacketSize

/-- What the network has for `srs_recvfrom`: a datagram, or a failure of the call. -/
inductive Recv where
  | packet (d : Datagram)
  | fail (nread : Int) (neg : nread < 0)

/-- The buffer after `bytes` were stored at its start. -/
def store (buf : Nat → UInt8) (bytes : List UInt8) : Nat → UInt8 := fun i => bytes.getD i (buf i)

/-- The first `n` bytes of the buffer. -/
def bytesAt (buf : Nat → UInt8) (n : Nat) : List UInt8 := (List.range n).map buf

/-- What `srs_recvfrom` leaves: its result, the buffer, the address and its length. -/
structure Received where
  nread : Int
  buf : Nat → UInt8
  fromAddr : List UInt8
  nbFrom : Nat

/-- `srs_recvfrom` with a buffer of `len` bytes and room for an address of `nbFrom`. -/
def srsRecvfrom (r : Recv) (buf : Nat → UInt8) (len nbFrom : Nat) : Received :=
  match r with
  | .packet d =>
    ⟨(d.bytes.take len).length, store buf (d.bytes.take len), d.sender.take nbFrom,
      d.sender.length⟩
  | .fail nread _ => ⟨nread, buf, [], nbFrom⟩

/-- A call of `ISrsUdpHandler::on_udp_packet`. -/
structure OnUdpPacket where
  fromAddr : List UInt8
  fromlen : Nat
  buf : Nat → UInt8
  nbBuf : Int

/-- What a round meets: the results of `pull`, of `srs_recvfrom` and of the handler, and the buffer
as the handler leaves it. -/
structure Round where
  pulled : SrsError
  recv : Recv
  handled : SrsError
  left : Nat → UInt8

/-- The loop: the shared buffer, the allocator, and what `cycle` has returned. -/
structure UdpCycle where
  buf : Nat → UInt8
  mem : Nat
  ret : Option SrsError

namespace UdpCycle

/-- `cycle` is called. -/
def enter (buf : Nat → UInt8) (mem : Nat) : UdpCycle := ⟨buf, mem, none⟩

/-- One round of the loop: the calls of the handler, and the loop afterwards. -/
def act (c : UdpCycle) (r : Round) : Option (List OnUdpPacket × UdpCycle) :=
  if c.ret.isSome then none
  else if r.pulled ≠ none then
    some ([], { c with ret := some (SrsError.wrap c.mem r.pulled "udp listener") })
  else
    let got := srsRecvfrom r.recv c.buf udpMaxPacketSize sizeofSockaddrStorage
    if got.nread ≤ 0 then
      let err := SrsError.new c.mem ERROR_SOCKET_READ s!"udp read, nread={got.nread}"
      some ([], { c with buf := got.buf, ret := some err })
    else
      let call := ⟨got.fromAddr, got.nbFrom, got.buf, got.nread⟩
      if r.handled ≠ none then
        let err := SrsError.wrap c.mem r.handled s!"handle packet {got.nread} bytes"
        some ([call], { c with buf := r.left, ret := some err })
      else some ([call], { c with buf := r.left })

def step (c : UdpCycle) (r : Round) : Option UdpCycle := (c.act r).map Prod.snd

def obs (c : UdpCycle) (r : Round) : List OnUdpPacket := ((c.act r).map Prod.fst).getD []

end UdpCycle

/-! ### Receiving a datagram -/

theorem bytesAt_store (buf : Nat → UInt8) (bytes : List UInt8) :
    bytesAt (store buf bytes) bytes.length = bytes := by
  refine List.ext_getElem (by simp [bytesAt]) fun i h₁ h₂ => ?_
  simp [bytesAt, store, h₂]

/-- The call hands over the datagram: its sender and exactly its bytes. -/
structure Handed (d : Datagram) (call : OnUdpPacket) : Prop where
  fromAddr : call.fromAddr = d.sender
  fromlen : call.fromlen = d.sender.length
  nbBuf : call.nbBuf = d.bytes.length
  bytes : bytesAt call.buf call.nbBuf.toNat = d.bytes

/-- The round in which `d` arrives, with no stop and a handler that succeeds and leaves `left`. -/
def delivery (d : Datagram × (Nat → UInt8)) : Round := ⟨none, .packet d.1, none, d.2⟩

namespace UdpCycle

variable {c : UdpCycle} {d : Datagram × (Nat → UInt8)}

/-- A datagram with a byte in it is handed over, and the loop goes on. -/
theorem act_delivery (hc : c.ret = none) (hd : d.1.bytes ≠ []) :
    ∃ call, Handed d.1 call ∧ c.act (delivery d) = some ([call], { c with buf := d.2 }) := by
  have hb : d.1.bytes.take udpMaxPacketSize = d.1.bytes := List.take_of_length_le d.1.bytes_le
  have hs : d.1.sender.take sizeofSockaddrStorage = d.1.sender :=
    List.take_of_length_le d.1.sender_le
  have hn : ¬ ((d.1.bytes.length : Int) ≤ 0) := by
    have hpos := List.length_pos_of_ne_nil hd
    omega
  refine ⟨⟨d.1.sender, d.1.sender.length, store c.buf d.1.bytes, d.1.bytes.length⟩,
    ⟨rfl, rfl, rfl, ?_⟩, ?_⟩
  · exact bytesAt_store c.buf d.1.bytes
  · simp only [act, hc, delivery, srsRecvfrom, hb, hs, Option.isSome_none, Bool.false_eq_true,
      if_false, ne_eq, not_true_eq_false, if_neg hn]

/-- An empty datagram ends the loop. -/
theorem act_empty (hc : c.ret = none) (hd : d.1.bytes = []) :
    ∃ c', c.act (delivery d) = some ([], c') ∧ c'.ret.isSome = true := by
  simp only [act, hc, delivery, srsRecvfrom, hd, Option.isSome_none, Bool.false_eq_true,
    if_false, ne_eq, not_true_eq_false, List.take_nil, List.length_nil]
  exact ⟨_, if_pos (by decide), rfl⟩

/-- A loop that has returned makes no further round. -/
theorem ret_of_exec {c' : UdpCycle} {ls : List Round} (hc : c.ret.isSome = true)
    (h : exec step c ls = some c') : c'.ret.isSome = true := by
  cases ls with
  | nil =>
      cases h
      exact hc
  | cons l ls =>
      obtain ⟨m, hm, -⟩ := exec_cons.mp h
      simp [step, act, hc] at hm

end UdpCycle

/-! ### Every sequence of datagrams -/

/-- With the datagrams `ds` arriving, the loop goes on and hands over each of them once, in
order. -/
def Delivers (c : UdpCycle) (ds : List (Datagram × (Nat → UInt8))) : Prop :=
  ∃ c', exec UdpCycle.step c (ds.map delivery) = some c' ∧ c'.ret = none ∧
    List.Forall₂ (fun d call => Handed d.1 call) ds
      (trace UdpCycle.step UdpCycle.obs c (ds.map delivery))

/-- The loop gets past the first datagram exactly when it has a byte in it. -/
theorem delivers_cons {c : UdpCycle} (hc : c.ret = none) (d : Datagram × (Nat → UInt8))
    (ds : List (Datagram × (Nat → UInt8))) :
    Delivers c (d :: ds) ↔ d.1.bytes ≠ [] ∧ Delivers { c with buf := d.2 } ds := by
  by_cases hd : d.1.bytes = []
  · obtain ⟨c', ha, hr⟩ := UdpCycle.act_empty hc hd
    have hs : c.step (delivery d) = some c' := by simp [UdpCycle.step, ha]
    refine ⟨?_, fun h => absurd hd h.1⟩
    rintro ⟨c'', h, hn, -⟩
    obtain ⟨m, hm, h⟩ := exec_cons.mp h
    cases hs.symm.trans hm
    have hr' := UdpCycle.ret_of_exec hr h
    rw [hn] at hr'
    exact nomatch hr'
  · obtain ⟨call, hcall, ha⟩ := UdpCycle.act_delivery hc hd
    have hs : c.step (delivery d) = some { c with buf := d.2 } := by simp [UdpCycle.step, ha]
    have ho : c.obs (delivery d) = [call] := by simp [UdpCycle.obs, ha]
    have htr : trace UdpCycle.step UdpCycle.obs c ((d :: ds).map delivery) =
        call :: trace UdpCycle.step UdpCycle.obs { c with buf := d.2 } (ds.map delivery) := by
      simp [trace, hs, ho]
    constructor
    · rintro ⟨c'', h, hn, hf⟩
      obtain ⟨m, hm, h⟩ := exec_cons.mp h
      cases hs.symm.trans hm
      rw [htr] at hf
      exact ⟨hd, c'', h, hn, (List.forall₂_cons.mp hf).2⟩
    · rintro ⟨-, c'', h, hn, hf⟩
      exact ⟨c'', exec_cons.mpr ⟨_, hs, h⟩, hn, htr ▸ List.forall₂_cons.mpr ⟨hcall, hf⟩⟩

theorem delivers_iff {c : UdpCycle} (hc : c.ret = none) (ds : List (Datagram × (Nat → UInt8))) :
    Delivers c ds ↔ ∀ d ∈ ds, d.1.bytes ≠ [] := by
  induction ds generalizing c with
  | nil => exact ⟨nofun, fun _ => ⟨c, rfl, hc, .nil⟩⟩
  | cons d ds ih =>
      rw [delivers_cons hc, ih (c := { c with buf := d.2 }) hc, List.forall_mem_cons]

/-- **The receive loop.**  Whatever is in the buffer when `cycle` is called, and whatever the
handler leaves there: for every sequence of datagrams, finite or not, `cycle` does not return and
hands over every datagram once, in order, with its sender and exactly its bytes, if and only if
no datagram is empty. -/
theorem cycle_delivers_iff (buf : Nat → UInt8) (mem : Nat) :
    (∀ ds, Delivers (.enter buf mem) ds ↔ ∀ d ∈ ds, d.1.bytes ≠ []) ∧
      ∀ ds : Nat → Datagram × (Nat → UInt8),
        (∀ n, Delivers (.enter buf mem) ((List.range n).map ds)) ↔ ∀ n, (ds n).1.bytes ≠ [] := by
  refine ⟨delivers_iff rfl, fun ds => ?_⟩
  simp only [delivers_iff (c := .enter buf mem) rfl, List.forall_mem_map, List.mem_range]
  exact ⟨fun h n => h (n + 1) n (Nat.lt_succ_self n), fun h n i _ => h i⟩

/-- One empty datagram ends the loop. -/
theorem empty_datagram_ends_cycle :
    ¬ ∀ ds, Delivers (.enter (fun _ => 0) 0) ds := by
  intro H
  obtain ⟨c', h, hn, -⟩ := H [(⟨[2, 0], [], by decide, by decide⟩, fun _ => 0)]
  cases h
  exact nomatch hn

end StCoroutine.Listener
