import StCoroutine.Listener.UdpMux
import StCoroutine.Lib.Decimal

/-!
# Listener — the identity of a peer

`peer_id` makes the text of a peer when it is asked for, from an address whose text may be in
`cache_`, and keeps it while `address_changed_` is not set.

* `peer_id_of_latest`: with datagrams of IPv4 peers only, every `peer_id` is the text of the peer
  whose datagram was accepted last, and the texts, the integers of `fast_id` and the peers
  themselves tell two datagrams apart in the same way.
* `peer_id_honest_iff`: with peers of any family, every `peer_id` is nothing or the text of the peer
  accepted last, if and only if none has failed to resolve a new peer while it had the text of
  another.
-/

set_option autoImplicit false

namespace StCoroutine.Listener
open Kernel Lts Decimal

/-! ### The text of an IPv4 peer -/

theorem ntohs_toNat (port : UInt16) :
    (ntohs port).toNat = port.toNat % 2 ^ 8 * 2 ^ 8 + port.toNat / 2 ^ 8 := by
  have hp := port.toNat_lt
  have hlow : (port <<< 8).toNat = (port.toNat % 2 ^ 8) <<< 8 := by
    rw [UInt16.toNat_shiftLeft, show (8 : UInt16).toNat % 16 = 8 from rfl, Nat.shiftLeft_eq,
      Nat.shiftLeft_eq]
    omega
  have hhigh : (port >>> 8).toNat = port.toNat / 2 ^ 8 := by
    rw [UInt16.toNat_shiftRight, show (8 : UInt16).toNat % 16 = 8 from rfl,
      Nat.shiftRight_eq_div_pow]
  rw [ntohs, UInt16.toNat_or, hlow, hhigh, ← Nat.shiftLeft_add_eq_or_of_lt (by omega),
    Nat.shiftLeft_eq]

theorem ntohs_inj {port port' : UInt16} : ntohs port = ntohs port' ↔ port = port' := by
  constructor
  · intro h
    have hn := congrArg UInt16.toNat h
    rw [ntohs_toNat, ntohs_toNat] at hn
    have hp := port.toNat_lt
    have hp' := port'.toNat_lt
    exact UInt16.toNat_inj.mp (by omega)
  · rintro rfl
    rfl

/-- The four bytes of the address in decimal, with dots between them. -/
theorem toList_inetNtoa (addr : UInt32) :
    (inetNtoa addr).toList =
      Nat.toDigits 10 (addr.toNat % 2 ^ 8) ++ '.' ::
        (Nat.toDigits 10 (addr.toNat / 2 ^ 8 % 2 ^ 8) ++ '.' ::
          (Nat.toDigits 10 (addr.toNat / 2 ^ 16 % 2 ^ 8) ++ '.' ::
            Nat.toDigits 10 (addr.toNat / 2 ^ 24 % 2 ^ 8))) := by
  have hbyte : ∀ x : UInt8, (toString x).toList = Nat.toDigits 10 x.toNat :=
    fun x => Nat.toList_repr
  simp [inetNtoa, hbyte, Nat.shiftRight_eq_div_pow, UInt32.toNat_toUInt8]

theorem inetNtoa_inj {addr addr' : UInt32} : inetNtoa addr = inetNtoa addr' ↔ addr = addr' := by
  constructor
  · intro h
    rw [← String.toList_inj, toList_inetNtoa, toList_inetNtoa, toDigits_append_inj rfl,
      toDigits_append_inj rfl, toDigits_append_inj rfl, toDigits_inj] at h
    have ha := addr.toNat_lt
    have ha' := addr'.toNat_lt
    exact UInt32.toNat_inj.mp (by omega)
  · rintro rfl
    rfl

theorem colon_not_mem_inetNtoa (addr : UInt32) : ':' ∉ (inetNtoa addr).toList := by
  have hdigits : ∀ n, ':' ∉ Nat.toDigits 10 n := fun n => not_mem_toDigits rfl
  simp [toList_inetNtoa, hdigits]

theorem toList_peerIdOf (port : UInt16) (addr : UInt32) :
    (peerIdOf port addr).toList =
      (inetNtoa addr).toList ++ ':' :: Nat.toDigits 10 (ntohs port).toNat := by
  have hport : ((ntohs port).toNat : Int).repr.toList = Nat.toDigits 10 (ntohs port).toNat :=
    Nat.toList_repr
  simp [peerIdOf, peerIdText, hport]

/-- **The text tells two peers apart.** -/
theorem peerIdOf_inj {port port' : UInt16} {addr addr' : UInt32} :
    peerIdOf port addr = peerIdOf port' addr' ↔ port = port' ∧ addr = addr' := by
  rw [← String.toList_inj, toList_peerIdOf, toList_peerIdOf,
    append_cons_inj (colon_not_mem_inetNtoa addr) (colon_not_mem_inetNtoa addr'),
    String.toList_inj, inetNtoa_inj, toDigits_inj, UInt16.toNat_inj, ntohs_inj, and_comm]

theorem fastIdOf_inj_iff {port port' : UInt16} {addr addr' : UInt32} :
    fastIdOf port addr = fastIdOf port' addr' ↔ port = port' ∧ addr = addr' := by
  constructor
  · exact fastIdOf_inj
  · rintro ⟨rfl, rfl⟩
    rfl

/-! ### Runs with IPv4 peers -/

/-- If it receives, it receives a datagram of an IPv4 peer that is not dropped. -/
def MuxCall.AcceptsIpv4 : MuxCall → Prop
  | .recvfrom a =>
    ∃ port addr bytes, a = .packet (.inet port addr) bytes ∧ dropped bytes = false
  | _ => True

/-- The peer that a datagram sets; `update_from_sockaddr` sets one that sent none. -/
def MuxCall.sender : MuxCall → Option (Option (UInt16 × UInt32))
  | .recvfrom (.packet (.inet port addr) _) => some (some (port, addr))
  | .recvfrom _ => none
  | .updateFromSockaddr _ _ => some none
  | .peerId _ => none
  | .sendto _ _ _ _ => none

namespace SrsUdpMuxSocket

variable {inetAddr : String → UInt32} {buf : Nat → UInt8} {fromAddr : Sockaddr}
  {ls : List MuxCall} {t : SrsUdpMuxSocket} {port : UInt16} {addr : UInt32}

theorem ok_of_exec (h : exec (step inetAddr) (new buf fromAddr) ls = some t) : t.Ok :=
  exec_inv (ok_new buf fromAddr) (fun _ _ _ => Ok.step) h

/-- **The views of the socket name the peer** whose datagram was accepted last. -/
theorem names_latest (h : exec (step inetAddr) (new buf fromAddr) ls = some t)
    (hls : ∀ c ∈ ls, c.AcceptsIpv4) (hlast : latest MuxCall.sender ls = some (port, addr)) :
    t.Names port addr := by
  refine exec_ind (P := fun ls t => (∀ c ∈ ls, c.AcceptsIpv4) → ∀ port addr,
    latest MuxCall.sender ls = some (port, addr) → t.Names port addr) ?_ ?_ h hls port addr hlast
  · intro _ port addr hlast
    cases hlast
  · intro ls t c t' hm ih hs hls port addr hlast
    have hok := ok_of_exec hm
    have ih := ih fun c hc => hls c (List.mem_append_left _ hc)
    have hc := hls c (by simp)
    rw [latest_snoc] at hlast
    cases c with
    | recvfrom a =>
        obtain ⟨port', addr', bytes, rfl, hdrop⟩ := hc
        cases hlast
        cases hs
        exact names_recvfrom hok hdrop port addr
    | updateFromSockaddr ip p => cases hlast
    | peerId resolved =>
        cases hs
        exact (ih port addr hlast).peerId_step hok resolved
    | sendto mem timeout nbWrite etime =>
        cases hs
        exact (ih port addr hlast).sendto_step hok mem timeout nbWrite etime

end SrsUdpMuxSocket

open SrsUdpMuxSocket in
/-- **The identity of IPv4 peers.**  In every run whose `recvfrom` calls all accept a datagram of
an IPv4 peer, every `peer_id` returns the dotted address and the port of the peer whose datagram
was accepted last (unless `update_from_sockaddr` has set another peer since); and at any two
points of the run the peers are the same exactly when the integers of `fast_id` are, and exactly
when the texts of `peer_id` are. -/
theorem peer_id_of_latest (inetAddr : String → UInt32) (buf : Nat → UInt8) (fromAddr : Sockaddr)
    {ls : List MuxCall} (hls : ∀ c ∈ ls, c.AcceptsIpv4) :
    (∀ pre resolved post t port addr, ls = pre ++ .peerId resolved :: post →
      exec (step inetAddr) (new buf fromAddr) pre = some t →
      latest MuxCall.sender pre = some (port, addr) →
      (t.peerId resolved).1 = peerIdOf port addr) ∧
    (∀ pre post t port addr pre' post' t' port' addr' resolved resolved',
      ls = pre ++ post → exec (step inetAddr) (new buf fromAddr) pre = some t →
      latest MuxCall.sender pre = some (port, addr) →
      ls = pre' ++ post' → exec (step inetAddr) (new buf fromAddr) pre' = some t' →
      latest MuxCall.sender pre' = some (port', addr') →
      (t.fastId = t'.fastId ↔ port = port' ∧ addr = addr') ∧
        ((t.peerId resolved).1 = (t'.peerId resolved').1 ↔ port = port' ∧ addr = addr')) := by
  have names : ∀ pre post t port addr, ls = pre ++ post →
      exec (step inetAddr) (new buf fromAddr) pre = some t →
      latest MuxCall.sender pre = some (port, addr) → t.Names port addr := by
    rintro pre post t port addr rfl ht hlast
    exact names_latest ht (fun c hc => hls c (List.mem_append_left _ hc)) hlast
  constructor
  · intro pre resolved post t port addr e ht hlast
    exact (names pre _ t port addr e ht hlast).peerId resolved
  · intro pre post t port addr pre' post' t' port' addr' resolved resolved' e ht hlast e' ht' hlast'
    have hn := names pre post t port addr e ht hlast
    have hn' := names pre' post' t' port' addr' e' ht' hlast'
    rw [hn.fastId, hn'.fastId, hn.peerId, hn'.peerId]
    exact ⟨fastIdOf_inj_iff, peerIdOf_inj⟩

/-- Two peers at one address, in turn. -/
def twoPeers : List MuxCall :=
  [.recvfrom (.packet (.inet 1 0x0100000a) [7]), .peerId none,
    .recvfrom (.packet (.inet 2 0x0100000a) [8]), .peerId none]

open SrsUdpMuxSocket in
theorem peer_id_of_latest_two : ∃ t resolved,
    exec (step fun _ => 0) (new (fun _ => 0) (.other [])) (twoPeers.take 3) = some t ∧
      (t.peerId resolved).1 = peerIdOf 2 0x0100000a := by
  have hls : ∀ c ∈ twoPeers, c.AcceptsIpv4 := by
    intro c hc
    simp only [twoPeers, List.mem_cons, List.not_mem_nil, or_false] at hc
    rcases hc with rfl | rfl | rfl | rfl
    · exact ⟨_, _, _, rfl, by decide⟩
    · trivial
    · exact ⟨_, _, _, rfl, by decide⟩
    · trivial
  refine ⟨_, none, rfl, ?_⟩
  exact (peer_id_of_latest (fun _ => 0) (fun _ => 0) (.other []) hls).1 (twoPeers.take 3) none []
    _ 2 0x0100000a rfl rfl rfl

/-! ### Peers of any family -/

/-- A call of a socket whose datagrams are all accepted; `fails` says whether `getnameinfo` fails,
should `peer_id` come to it. -/
inductive PeerCall where
  | recvfrom (sender : Sockaddr) (bytes : List UInt8)
  | peerId (fails : Bool)

/-- Its datagram is not dropped. -/
def PeerCall.Accepted : PeerCall → Prop
  | .recvfrom _ bytes => dropped bytes = false
  | .peerId _ => True

/-- The peer that a datagram sets. -/
def PeerCall.sender : PeerCall → Option (Option Sockaddr)
  | .recvfrom sender _ => some (some sender)
  | .peerId _ => none

section anyFamily

/- `getnameinfo` with `NI_NUMERICHOST | NI_NUMERICSERV` is not part of the source: where it does
not fail, its texts are the address and the port that the bytes hold. -/
variable (name : List UInt8 → String × Int)

/-- The answer of `getnameinfo`. -/
def resolve (fails : Bool) : Sockaddr → Option (String × Int)
  | .inet _ _ => none
  | .other bytes => if fails then none else some (name bytes)

/-- The text of a peer. -/
def identityOf : Sockaddr → String
  | .inet port addr => peerIdOf port addr
  | .other bytes => peerIdText (name bytes).1 (name bytes).2

namespace SrsUdpMuxSocket

/-- The result of `peer_id` and the socket after it. -/
def askPeerId (t : SrsUdpMuxSocket) (fails : Bool) : String × SrsUdpMuxSocket :=
  t.peerId (resolve name fails t.fromAddr)

def peerStep (t : SrsUdpMuxSocket) : PeerCall → Option SrsUdpMuxSocket
  | .recvfrom sender bytes => some (t.recvfrom (.packet sender bytes)).2
  | .peerId fails => some (t.askPeerId name fails).2

/-- `peer_id` returns nothing, or the text of the peer. -/
def Honest (t : SrsUdpMuxSocket) : Prop :=
  ∀ fails, (t.askPeerId name fails).1 = "" ∨ (t.askPeerId name fails).1 = identityOf name t.fromAddr

/-- If `peer_id` fails to resolve a new peer, the text it had before is empty or the same. -/
def FailsClean (t : SrsUdpMuxSocket) : PeerCall → Prop
  | .recvfrom _ _ => True
  | .peerId fails =>
    fails = true → t.addressChanged = true → (∃ bytes, t.fromAddr = .other bytes) →
      t.peerIdCache = "" ∨ t.peerIdCache = identityOf name t.fromAddr

variable {t t' : SrsUdpMuxSocket}

omit name in
theorem peerId_fromAddr (t : SrsUdpMuxSocket) (resolved : Option (String × Int)) :
    (t.peerId resolved).2.fromAddr = t.fromAddr := by
  cases hchanged : t.addressChanged with
  | false => rw [peerId_kept hchanged]
  | true =>
      cases hfrom : t.fromAddr with
      | inet port addr =>
          simp only [peerId, hchanged, parse, hfrom, if_true]
          cases t.cache addr <;> rfl
      | other bytes =>
          simp only [peerId, hchanged, parse, hfrom, if_true]
          cases resolved <;> rfl

theorem askPeerId_kept (h : t.addressChanged = false) (fails : Bool) :
    t.askPeerId name fails = (t.peerIdCache, t) :=
  peerId_kept h _

/-- `getnameinfo` fails: the text that was there stays. -/
theorem askPeerId_failed (h : t.addressChanged = true) {bytes : List UInt8}
    (hfrom : t.fromAddr = .other bytes) :
    t.askPeerId name true = ("", { t with addressChanged := false }) := by
  simp [askPeerId, peerId, h, parse, hfrom, resolve]

/-- It does not, or is not called: the text is made anew. -/
theorem askPeerId_made (hok : t.Ok) (h : t.addressChanged = true) {fails : Bool}
    (hf : fails = true → ∀ bytes, t.fromAddr ≠ .other bytes) :
    (t.askPeerId name fails).1 = identityOf name t.fromAddr ∧
      (t.askPeerId name fails).2.peerIdCache = identityOf name t.fromAddr := by
  cases hfrom : t.fromAddr with
  | inet port addr =>
      obtain ⟨cache, -, he⟩ := peerId_inet hok hfrom h (resolve name fails t.fromAddr)
      rw [askPeerId, he]
      exact ⟨rfl, rfl⟩
  | other bytes =>
      cases fails with
      | true => exact absurd hfrom (hf rfl bytes)
      | false => simp [askPeerId, peerId, h, parse, hfrom, resolve, identityOf]

theorem peerStep_total (t : SrsUdpMuxSocket) (c : PeerCall) :
    ∃ t', peerStep name t c = some t' := by
  cases c with
  | recvfrom sender bytes => exact ⟨_, rfl⟩
  | peerId fails => exact ⟨_, rfl⟩

/-- What is honest: the text is to be made anew, or it is empty, or it is that of the peer. -/
theorem honest_iff (hok : t.Ok) : Honest name t ↔
    t.addressChanged = true ∨ t.peerIdCache = "" ∨ t.peerIdCache = identityOf name t.fromAddr := by
  cases h : t.addressChanged with
  | false => simp [Honest, askPeerId_kept name h]
  | true =>
      refine iff_of_true (fun fails => ?_) (.inl rfl)
      by_cases hf : fails = true → ∀ bytes, t.fromAddr ≠ .other bytes
      · exact .inr (askPeerId_made name hok h hf).1
      · simp only [not_forall, not_not] at hf
        obtain ⟨rfl, bytes, hfrom⟩ := hf
        exact .inl (by rw [askPeerId_failed name h hfrom])

theorem Ok.peerStep (hok : t.Ok) {c : PeerCall} (hs : peerStep name t c = some t') : t'.Ok := by
  cases c with
  | recvfrom sender bytes =>
      cases hs
      exact hok.recvfrom _
  | peerId fails =>
      cases hs
      exact hok.peerId _

/-- An accepted datagram sets the peer, and the text is to be made anew. -/
theorem recvfrom_sets (hok : t.Ok) {bytes : List UInt8} (h : dropped bytes = false)
    (sender : Sockaddr) :
    (t.recvfrom (.packet sender bytes)).2.fromAddr = sender ∧
      (t.recvfrom (.packet sender bytes)).2.addressChanged = true := by
  have hnot := mt (dropped_iff (b := t.buf)).mpr (by rw [h]; exact Bool.false_ne_true)
  obtain ⟨hempty, hcheck⟩ := not_or.mp hnot
  simp only [recvfrom, hok.nbBuf]
  rw [if_neg hempty, if_neg hcheck]
  cases sender with
  | inet port addr => exact ⟨rfl, rfl⟩
  | other bs => exact ⟨rfl, rfl⟩

/-- **One call**: the socket is honest afterwards exactly when it did not fail with the text of
another peer at hand. -/
theorem honest_step {c : PeerCall} (hok : t.Ok) (h : Honest name t) (hc : c.Accepted)
    (hs : peerStep name t c = some t') : Honest name t' ↔ FailsClean name t c := by
  rw [honest_iff name (hok.peerStep name hs)]
  rw [honest_iff name hok] at h
  cases c with
  | recvfrom sender bytes =>
      cases hs
      exact iff_of_true (.inl (recvfrom_sets hok hc sender).2) trivial
  | peerId fails =>
      cases hs
      cases hchanged : t.addressChanged with
      | false =>
          rw [hchanged] at h
          rw [askPeerId_kept name hchanged, hchanged]
          exact iff_of_true h fun _ hc => absurd (hchanged.symm.trans hc) Bool.false_ne_true
      | true =>
          by_cases hf : fails = true → ∀ bytes, t.fromAddr ≠ .other bytes
          · rw [(askPeerId_made name hok hchanged hf).2, askPeerId, peerId_fromAddr]
            refine iff_of_true (.inr (.inr rfl)) ?_
            rintro hfails - ⟨bytes, hother⟩
            exact absurd hother (hf hfails bytes)
          · simp only [not_forall, not_not] at hf
            obtain ⟨rfl, bytes, hfrom⟩ := hf
            rw [askPeerId_failed name hchanged hfrom]
            simp [FailsClean, hchanged, hfrom]

/-- Where a run leaves the socket: as it was made, until a datagram sets the peer. -/
structure Since (t : SrsUdpMuxSocket) (sender : Option Sockaddr) : Prop where
  ok : t.Ok
  before : sender = none → t.addressChanged = false ∧ t.peerIdCache = ""
  after : ∀ s, sender = some s → t.fromAddr = s

theorem since_latest {buf : Nat → UInt8} {fromAddr : Sockaddr} {ls : List PeerCall}
    (h : exec (peerStep name) (new buf fromAddr) ls = some t) (hls : ∀ c ∈ ls, c.Accepted) :
    t.Since (latest PeerCall.sender ls) := by
  refine exec_ind (P := fun ls t => (∀ c ∈ ls, c.Accepted) →
    t.Since (latest PeerCall.sender ls)) ?_ ?_ h hls
  · intro _
    exact ⟨ok_new buf fromAddr, fun _ => ⟨rfl, rfl⟩, nofun⟩
  · intro ls t c t' hm ih hs hls
    have ih := ih fun c hc => hls c (List.mem_append_left _ hc)
    have hok' := ih.ok.peerStep name hs
    have hc := hls c (by simp)
    rw [latest_snoc]
    cases c with
    | recvfrom sender bytes =>
        cases hs
        refine ⟨hok', nofun, ?_⟩
        rintro s ⟨⟩
        exact (recvfrom_sets ih.ok hc sender).1
    | peerId fails =>
        cases hs
        refine ⟨hok', fun hnone => ?_, fun s hsome => ?_⟩
        · obtain ⟨hchanged, hempty⟩ := ih.before hnone
          rw [askPeerId_kept name hchanged]
          exact ⟨hchanged, hempty⟩
        · rw [askPeerId, peerId_fromAddr]
          exact ih.after s hsome

/-- After a run, to be honest is to return nothing or the text of the sender accepted last. -/
theorem Since.honest_iff {sender : Option Sockaddr} (h : t.Since sender) :
    Honest name t ↔ ∀ fails, (t.askPeerId name fails).1 = "" ∨
      ∃ s, sender = some s ∧ (t.askPeerId name fails).1 = identityOf name s := by
  cases sender with
  | none =>
      obtain ⟨hchanged, hempty⟩ := h.before rfl
      simp [Honest, askPeerId_kept name hchanged, hempty]
  | some s => simp [Honest, h.after s rfl]

end SrsUdpMuxSocket

open SrsUdpMuxSocket in
/-- **`peer_id` and the peer**, along every sequence of accepted datagrams of any family and every
pattern of failures: at each point `peer_id` returns nothing or the text of the peer whose datagram
was accepted last, however `getnameinfo` answers then, if and only if no `peer_id` so far has failed
to resolve a new peer while it had the text of another. -/
theorem peer_id_honest_iff (buf : Nat → UInt8) (fromAddr : Sockaddr) {ls : List PeerCall}
    (hls : ∀ c ∈ ls, c.Accepted) :
    (∀ pre post t, ls = pre ++ post → exec (peerStep name) (new buf fromAddr) pre = some t →
      ∀ fails, (t.askPeerId name fails).1 = "" ∨ ∃ sender,
        latest PeerCall.sender pre = some sender ∧
          (t.askPeerId name fails).1 = identityOf name sender) ↔
      AllSteps (peerStep name) (FailsClean name) (new buf fromAddr) ls := by
  obtain ⟨s, hs⟩ := exec_total (peerStep_total name) (new buf fromAddr) ls
  have hok := ok_new buf fromAddr
  have hnew : Honest name (new buf fromAddr) := (honest_iff name hok).mpr (.inr (.inl rfl))
  have hall : AllSteps (peerStep name) (FailsClean name) (new buf fromAddr) ls ↔
      AllStates (peerStep name) (Honest name) (new buf fromAddr) ls :=
    allSteps_iff_allStates (D := PeerCall.Accepted) hok hnew
      (fun _ _ _ hok hs => hok.peerStep name hs) (fun _ _ _ => honest_step name) hs hls
  have key : ∀ pre post t, ls = pre ++ post →
      exec (peerStep name) (new buf fromAddr) pre = some t → _ := fun pre post t e ht =>
    (since_latest name ht fun c hc => hls c (e ▸ List.mem_append_left _ hc)).honest_iff name
  rw [hall]
  exact ⟨fun H pre post t e ht => (key pre post t e ht).mpr (H pre post t e ht),
    fun H pre post t e ht => (key pre post t e ht).mp (H pre post t e ht)⟩

end anyFamily

section examples
open SrsUdpMuxSocket

/-- A datagram of an IPv4 peer, whose text is made, and one of an IPv6 peer. -/
def twoFamilies : List PeerCall :=
  [.recvfrom (.inet 1 0x0100000a) [7], .peerId false, .recvfrom (.other [10, 0]) [8]]

theorem accepted_twoFamilies : ∀ c ∈ twoFamilies, c.Accepted := by
  intro c hc
  simp only [twoFamilies, List.mem_cons, List.not_mem_nil, or_false] at hc
  rcases hc with rfl | rfl | rfl
  · rfl
  · trivial
  · rfl

theorem peer_id_honest_iff_two : ∃ t,
    exec (peerStep fun _ => ("::1", 9)) (new (fun _ => 0) (.other [])) twoFamilies = some t ∧
      ∀ fails, (t.askPeerId (fun _ => ("::1", 9)) fails).1 = "" ∨ ∃ sender,
        latest PeerCall.sender twoFamilies = some sender ∧
          (t.askPeerId (fun _ => ("::1", 9)) fails).1 =
            identityOf (fun _ => ("::1", 9)) sender := by
  have h := (peer_id_honest_iff (fun _ => ("::1", 9)) (fun _ => 0) (.other [])
    accepted_twoFamilies).mpr ?_
  · exact ⟨_, rfl, h twoFamilies [] _ (List.append_nil _).symm rfl⟩
  · intro pre c post m e _
    have hc : c ∈ twoFamilies := e ▸ List.mem_append_right _ List.mem_cons_self
    simp only [twoFamilies, List.mem_cons, List.not_mem_nil, or_false] at hc
    rcases hc with rfl | rfl | rfl
    · trivial
    · exact nofun
    · trivial

/-- The second peer fails to resolve: the next `peer_id` returns the text of the first. -/
theorem stale_peer_id :
    ¬∀ (name : List UInt8 → String × Int) (ls : List PeerCall), (∀ c ∈ ls, c.Accepted) →
      ∀ pre fails post t, ls = pre ++ .peerId fails :: post →
        exec (peerStep name) (new (fun _ => 0) (.other [])) pre = some t →
        (t.askPeerId name fails).1 = "" ∨ ∃ sender,
          latest PeerCall.sender pre = some sender ∧
            (t.askPeerId name fails).1 = identityOf name sender := by
  intro H
  have h := H (fun _ => ("::1", 9)) (twoFamilies ++ [.peerId true, .peerId false]) ?_
    (twoFamilies ++ [.peerId true]) false [] _ rfl rfl
  · revert h
    decide
  · intro c hc
    rcases List.mem_append.mp hc with hc | hc
    · exact accepted_twoFamilies c hc
    · rcases List.mem_pair.mp hc with rfl | rfl <;> trivial

end examples

end StCoroutine.Listener
