import StCoroutine.RingBuf.Fifo

/-!
# RingBuf — the traffic counters and the noted count

Beside the packets the buffer keeps `writeCount`, `overwriteCnt` and `readCount`, and in
`curCount` the count it last computed.  `writeCount++` and `readCount++` stand before the tests
that may still refuse the call, so that what the counters say about the packets held is a matter
of which tests can fail after them.

`Ledger` is the account that is meant: the packets held, how many were offered, refused and
delivered, in numbers that do not wrap.  A buffer is `Tallied` by a ledger when it holds the
ledger's packets and its counters are the ledger's, modulo `2 ^ 32`; every call keeps that
(`apply_tallied`), and every ledger is `Sound` (`Sound.apply`).

The noted count is taken before the index moves, in a write and in a read alike: it is one off
from the first packet on (`curCount_eq_count_iff`).
-/

set_option autoImplicit false

namespace StCoroutine.RingBuf
open Lts SrsRingBuffer

variable {α : Type*}

/-- A call; each pointer may be `NULL`. -/
inductive Op (α : Type*) where
  | write (ptInBuffer : Option α)
  | read (ptOutBuffer : Option (Option α))
  | top (ptOutBuffer : Option (Option α))
  | destroy

/-- The call offers a packet. -/
def Op.offers : Op α → Bool
  | .write (some _) => true
  | _ => false

/-- The buffer after a call; `none` when a `Destroy` is still in its loop after `fuel` reads. -/
def apply (fuel : Nat) (b : PacketRingBuffer α) : Op α → Option (PacketRingBuffer α)
  | .write p => some (writePacketRingBuffer b p).buf
  | .read out => some (readPacketRingBuffer b out).buf
  | .top out => some (readPacketTopRingBuffer b out).buf
  | .destroy => (destroyPacketRingBuffer fuel b).map Prod.fst

/-- What a call that offers a packet answers. -/
def answer (b : PacketRingBuffer α) : Op α → List OperBufferRet
  | .write (some p) => [(writePacketRingBuffer b (some p)).ret]
  | _ => []

/-! ### The account -/

/-- The packets held, how many packets were offered, refused and delivered since the start, and
the count last noted. -/
structure Ledger (α : Type*) where
  held : List α
  offered : Nat
  refused : Nat
  delivered : Nat
  noted : Nat

namespace Ledger

variable {cap : Nat} {l : Ledger α}

/-- Nothing has happened. -/
def empty : Ledger α := ⟨[], 0, 0, 0, 0⟩

/-- A packet is offered to a buffer for `cap` packets. -/
def offer (cap : Nat) (l : Ledger α) (p : α) : Ledger α :=
  if l.held.length < cap then
    { l with held := l.held ++ [p], offered := l.offered + 1, noted := l.held.length }
  else { l with offered := l.offered + 1, refused := l.refused + 1 }

/-- The oldest packet is asked for. -/
def deliver (l : Ledger α) : Ledger α :=
  match l.held with
  | [] => l
  | _ :: q => { l with held := q, delivered := l.delivered + 1, noted := q.length + 1 }

/-- Every packet is asked for. -/
def drain (l : Ledger α) : Ledger α := deliver^[l.held.length] l

def apply (cap : Nat) (l : Ledger α) : Op α → Ledger α
  | .write none => l
  | .write (some p) => l.offer cap p
  | .read none => l
  | .read (some _) => l.deliver
  | .top _ => l
  | .destroy => l.drain

/-- A packet is taken if there is room, and refused if there is none. -/
def answer (cap : Nat) (l : Ledger α) : Op α → List OperBufferRet
  | .write (some _) => [if l.held.length < cap then .bufOk else .bufFull]
  | _ => []

theorem deliver_nil (h : l.held = []) : l.deliver = l := by
  simp only [deliver, h]

theorem deliver_cons {p : α} {q : List α} (h : l.held = p :: q) :
    l.deliver = { l with held := q, delivered := l.delivered + 1, noted := q.length + 1 } := by
  simp only [deliver, h]

theorem drain_nil (h : l.held = []) : l.drain = l := by
  simp only [drain, h, List.length_nil, Function.iterate_zero, id]

/-- A drain delivers the oldest packet and drains the rest. -/
theorem drain_cons {p : α} {q : List α} (h : l.held = p :: q) : l.drain = l.deliver.drain := by
  have hd : l.deliver.held = q := by rw [deliver_cons h]
  simp only [drain, h, hd, List.length_cons, Function.iterate_succ_apply]

/-- What one delivery keeps, a drain keeps. -/
theorem drain_keeps {P : Ledger α → Prop} (keep : ∀ l, P l → P l.deliver) (h : P l) :
    P l.drain := by
  have run : ∀ n, P (deliver^[n] l) := by
    intro n
    induction n with
    | zero => exact h
    | succ n ih =>
        rw [Function.iterate_succ_apply']
        exact keep _ ih
  exact run _

/-- An account in order: every packet offered was refused, was delivered or is held, and the
noted count is one off, except in a buffer without room and before the first packet. -/
structure Sound (cap : Nat) (l : Ledger α) : Prop where
  balance : l.offered = l.refused + l.delivered + l.held.length
  idle : cap = 0 ∨ l.offered = 0 → l.held = [] ∧ l.noted = 0
  stale : cap ≠ 0 → l.offered ≠ 0 → l.noted + 1 = l.held.length ∨ l.noted = l.held.length + 1

theorem Sound.empty : Sound cap (empty : Ledger α) :=
  ⟨rfl, fun _ => ⟨rfl, rfl⟩, fun _ h => absurd rfl h⟩

theorem Sound.offer (h : Sound cap l) (p : α) : Sound cap (l.offer cap p) := by
  have hb := h.balance
  unfold Ledger.offer
  split
  · next hroom =>
      refine ⟨?_, ?_, fun _ _ => .inl ?_⟩
      · simp only [List.length_append, List.length_singleton]
        omega
      · rintro (h0 | h0)
        · omega
        · exact absurd h0 (Nat.succ_ne_zero _)
      · simp only [List.length_append, List.length_singleton]
  · next hfull =>
      refine ⟨?_, ?_, ?_⟩
      · change l.offered + 1 = l.refused + 1 + l.delivered + l.held.length
        omega
      · rintro (h0 | h0)
        · exact h.idle (.inl h0)
        · exact absurd h0 (Nat.succ_ne_zero _)
      · -- a full buffer with room has seen a packet
        intro hcap _
        refine h.stale hcap fun h0 => hfull ?_
        rw [(h.idle (.inr h0)).1]
        exact Nat.pos_of_ne_zero hcap

theorem Sound.deliver (h : Sound cap l) : Sound cap l.deliver := by
  cases hq : l.held with
  | nil => rwa [deliver_nil hq]
  | cons p q =>
      have hb := h.balance
      rw [hq, List.length_cons] at hb
      rw [deliver_cons hq]
      refine ⟨?_, ?_, fun _ _ => .inr rfl⟩
      · change l.offered = l.refused + (l.delivered + 1) + q.length
        omega
      · intro h0
        have hnil := (h.idle h0).1
        rw [hq] at hnil
        cases hnil

/-- **Every call keeps the account in order.** -/
theorem Sound.apply (h : Sound cap l) (op : Op α) : Sound cap (l.apply cap op) := by
  cases op with
  | write p =>
      cases p with
      | none => exact h
      | some p => exact h.offer p
  | read out =>
      cases out with
      | none => exact h
      | some cell => exact h.deliver
  | top out => exact h
  | destroy => exact drain_keeps (P := Sound cap) (fun _ => Sound.deliver) h

theorem deliver_offered (l : Ledger α) : l.deliver.offered = l.offered := by
  unfold deliver
  split <;> rfl

theorem deliver_refused (l : Ledger α) : l.deliver.refused = l.refused := by
  unfold deliver
  split <;> rfl

/-- The packets offered are those of the calls that offer one. -/
theorem apply_offered (l : Ledger α) (op : Op α) :
    (l.apply cap op).offered = l.offered + [op].countP Op.offers := by
  cases op with
  | write p =>
      cases p with
      | none => rfl
      | some p =>
          simp only [apply, offer]
          split <;> rfl
  | read out =>
      cases out with
      | none => rfl
      | some cell => exact deliver_offered l
  | top out => rfl
  | destroy =>
      exact drain_keeps (P := fun m => m.offered = l.offered)
        (fun m hm => (deliver_offered m).trans hm) rfl

/-- The packets refused are those that were not answered with `bufOk`. -/
theorem apply_refused (l : Ledger α) (op : Op α) :
    (l.apply cap op).refused = l.refused + (l.answer cap op).countP (· ≠ .bufOk) := by
  cases op with
  | write p =>
      cases p with
      | none => rfl
      | some p =>
          simp only [apply, offer, answer]
          split <;> rfl
  | read out =>
      cases out with
      | none => rfl
      | some cell => exact deliver_refused l
  | top out => rfl
  | destroy =>
      exact drain_keeps (P := fun m => m.refused = l.refused)
        (fun m hm => (deliver_refused m).trans hm) rfl

end Ledger

/-! ### The buffer and its account -/

/-- The buffer `b`, of size `n`, holds what the ledger holds and counts as it does, modulo
`2 ^ 32`. -/
structure Tallied (b : PacketRingBuffer α) (n : UInt32) (l : Ledger α) : Prop where
  holds : Holds b n l.held
  writeCount : b.writeCount = UInt32.ofNat l.offered
  overwriteCnt : b.overwriteCnt = UInt32.ofNat l.refused
  readCount : b.readCount = UInt32.ofNat l.delivered
  curCount : b.curCount.toNat = l.noted

section tallied

variable {b : PacketRingBuffer α} {n : UInt32} {l : Ledger α}

theorem tallied_new (n : UInt32) :
    Tallied (new n : PacketRingBuffer α) (sizeOf n) Ledger.empty :=
  ⟨holds_new n, rfl, rfl, rfl, rfl⟩

theorem ofNat_succ (k : Nat) : UInt32.ofNat k + 1 = UInt32.ofNat (k + 1) := by
  rw [UInt32.ofNat_add]
  rfl

/-- A write counts its packet first; the full test then takes it or counts it again. -/
theorem Tallied.write (h : Tallied b n l) (p : α) :
    (writePacketRingBuffer b (some p)).ret =
        (if l.held.length < n.toNat - 1 then .bufOk else .bufFull) ∧
      Tallied (writePacketRingBuffer b (some p)).buf n (l.offer (n.toNat - 1) p) := by
  by_cases hroom : l.held.length < n.toNat - 1
  · -- the count is noted before the write index moves
    have hnoted : (written b p).curCount = getPacketRingBufferCount b := by
      rw [written, markWrited_eq]
      rfl
    have hcounters : (written b p).writeCount = b.writeCount + 1 ∧
        (written b p).overwriteCnt = b.overwriteCnt ∧ (written b p).readCount = b.readCount := by
      rw [written, markWrited_eq]
      exact ⟨rfl, rfl, rfl⟩
    obtain ⟨hw, ho, hr⟩ := hcounters
    simp only [write_ok_eq h.holds p hroom, Ledger.offer, if_pos hroom]
    refine ⟨trivial, h.holds.written p hroom, ?_, ho.trans h.overwriteCnt,
      hr.trans h.readCount, ?_⟩
    · rw [hw, h.writeCount, ofNat_succ]
    · rw [hnoted, h.holds.count_eq]
  · simp only [write_full_eq h.holds p hroom, Ledger.offer, if_neg hroom]
    refine ⟨trivial, h.holds.countWrite.countOverwrite, ?_, ?_, h.readCount, h.curCount⟩
    · change b.writeCount + 1 = UInt32.ofNat (l.offered + 1)
      rw [h.writeCount, ofNat_succ]
    · change b.overwriteCnt + 1 = UInt32.ofNat (l.refused + 1)
      rw [h.overwriteCnt, ofNat_succ]

/-- A read counts its packet first; nothing after it fails, for no slot in use is `NULL`. -/
theorem Tallied.read_cons {p : α} {q : List α} (h : Tallied b n l) (hq : l.held = p :: q)
    (cell : Option α) :
    readPacketRingBuffer b (some cell) = ⟨.bufOk, some (some p), taken b, [b.read]⟩ ∧
      Tallied (taken b) n l.deliver := by
  have hb : Holds b n (p :: q) := hq ▸ h.holds
  rw [Ledger.deliver_cons hq]
  refine ⟨read_cons_eq hb cell, hb.taken, h.writeCount, h.overwriteCnt, ?_, ?_⟩
  · change b.readCount + 1 = UInt32.ofNat (l.delivered + 1)
    rw [h.readCount, ofNat_succ]
  · -- the read index has not moved yet
    change (getPacketRingBufferCount b).toNat = q.length + 1
    rw [hb.count_eq, List.length_cons]

theorem Tallied.read_nil (h : Tallied b n l) (hq : l.held = []) (cell : Option α) :
    readPacketRingBuffer b (some cell) = ⟨.bufEmpty, some cell, b, []⟩ := by
  have hb : Holds b n [] := hq ▸ h.holds
  exact RingBuf.read_nil hb cell

theorem Tallied.read (h : Tallied b n l) (cell : Option α) :
    Tallied (readPacketRingBuffer b (some cell)).buf n l.deliver := by
  cases hq : l.held with
  | nil =>
      rw [h.read_nil hq, Ledger.deliver_nil hq]
      exact h
  | cons p q =>
      obtain ⟨hr, ht⟩ := h.read_cons hq cell
      rw [hr]
      exact ht

/-- A look at the oldest packet changes nothing. -/
theorem Tallied.top (h : Tallied b n l) (cell : Option α) :
    (readPacketTopRingBuffer b (some cell)).buf = b := by
  cases hq : l.held with
  | nil =>
      have hb : Holds b n [] := hq ▸ h.holds
      rw [top_nil hb]
  | cons p q =>
      have hb : Holds b n (p :: q) := hq ▸ h.holds
      rw [top_cons hb]

/-- The loop of `Destroy` drains the account. -/
theorem Tallied.destroyLoop {fuel : Nat} (h : Tallied b n l) (cell : Option α)
    (hlt : l.held.length < fuel) : ∃ b' used,
      destroyLoop fuel b cell = some (b', used) ∧ Tallied b' n l.drain := by
  -- a ledger that tallies the buffer, with the same account to come
  obtain ⟨b', used, hd, ⟨l', hheld, ht, hdrain⟩, -⟩ := destroyLoop_rule (n := n) (b := b)
    (I := fun b q => ∃ l' : Ledger α, l'.held = q ∧ Tallied b n l' ∧ l'.drain = l.drain)
    (fun b q ⟨l', hq, ht, _⟩ => hq ▸ ht.holds)
    (fun b p q ⟨l', hq, ht, hdrain⟩ => by
      refine ⟨l'.deliver, by rw [Ledger.deliver_cons hq], (ht.read_cons hq none).2, ?_⟩
      rw [← hdrain, Ledger.drain_cons hq])
    ⟨l, rfl, h, rfl⟩ cell hlt
  rw [Ledger.drain_nil hheld] at hdrain
  exact ⟨b', used, hd, hdrain ▸ ht⟩

/-- **Each call keeps the buffer tallied**, and answers as the account says. -/
theorem apply_tallied {fuel : Nat} (hfuel : n.toNat ≤ fuel) (h : Tallied b n l) (op : Op α) :
    ∃ b', apply fuel b op = some b' ∧ answer b op = l.answer (n.toNat - 1) op ∧
      Tallied b' n (l.apply (n.toNat - 1) op) := by
  cases op with
  | write p =>
      refine ⟨_, rfl, ?_⟩
      cases p with
      | none => exact ⟨rfl, h⟩
      | some p =>
          obtain ⟨hr, hb⟩ := h.write p
          exact ⟨congrArg (fun r => [r]) hr, hb⟩
  | read out =>
      refine ⟨_, rfl, rfl, ?_⟩
      cases out with
      | none => exact h
      | some cell => exact h.read cell
  | top out =>
      refine ⟨_, rfl, rfl, ?_⟩
      cases out with
      | none => exact h
      | some cell =>
          rw [h.top]
          exact h
  | destroy =>
      have hlt : l.held.length < fuel := Nat.lt_of_lt_of_le h.holds.ring.room hfuel
      obtain ⟨b', used, hd, hb'⟩ := h.destroyLoop none hlt
      refine ⟨b', ?_, rfl, hb'⟩
      simp [apply, destroyPacketRingBuffer, h.holds.isInit, hd]

end tallied

/-! ### Every sequence of calls -/

/-- The run of the account. -/
def Ledger.step (cap : Nat) (l : Ledger α) (op : Op α) : Option (Ledger α) :=
  some (l.apply cap op)

/-- **Every run is tallied.**  From the constructor every sequence of calls returns, the buffer it
leads to is tallied by the account of the calls, and the account is in order. -/
theorem exec_tallied (n : UInt32) {fuel : Nat} (hfuel : (sizeOf n).toNat ≤ fuel)
    (ops : List (Op α)) :
    ∃ b l, exec (apply fuel) (new n) ops = some b ∧ Tallied b (sizeOf n) l ∧
      Ledger.Sound ((sizeOf n).toNat - 1) l ∧ l.offered = ops.countP Op.offers ∧
      l.refused = (trace (apply fuel) answer (new n) ops).countP (· ≠ .bufOk) ∧
      ∀ r ∈ trace (apply fuel) answer (new n) ops, r = .bufOk ∨ r = .bufFull := by
  have hnext : ∀ (b : PacketRingBuffer α) l op, Tallied b (sizeOf n) l →
      ∃ b' l', apply fuel b op = some b' ∧ Ledger.step ((sizeOf n).toNat - 1) l op = some l' ∧
        answer b op = l.answer ((sizeOf n).toNat - 1) op ∧ Tallied b' (sizeOf n) l' := by
    intro b l op h
    obtain ⟨b', hb', hans, ht⟩ := apply_tallied hfuel h op
    exact ⟨b', _, hb', rfl, hans, ht⟩
  obtain ⟨b, l, hb, hl, htr, hbl⟩ := exec_lockstep hnext ops (tallied_new n)
  refine ⟨b, l, hb, hbl, ?_, ?_, ?_, ?_⟩
  · refine exec_inv (I := Ledger.Sound _) .empty ?_ hl
    rintro l op _ h ⟨⟩
    exact h.apply op
  · refine exec_ind (P := fun ops l => l.offered = ops.countP Op.offers) rfl ?_ hl
    rintro ops l op _ - h ⟨⟩
    rw [Ledger.apply_offered, h, List.countP_append]
  · rw [htr]
    refine trace_ind (P := fun tr l => l.refused = tr.countP (· ≠ OperBufferRet.bufOk)) rfl ?_ hl
    rintro tr l op _ h ⟨⟩
    rw [Ledger.apply_refused, h, List.countP_append]
  · rw [htr]
    refine trace_forall (I := fun _ => True)
      (P := fun r => r = OperBufferRet.bufOk ∨ r = OperBufferRet.bufFull) trivial ?_ hl
    intro l op l' _ _
    refine ⟨trivial, fun r hr => ?_⟩
    cases op with
    | write p =>
        cases p with
        | none => cases hr
        | some p =>
            rw [List.mem_singleton.mp hr]
            split
            · exact .inl rfl
            · exact .inr rfl
    | read out | top out | destroy => cases hr

theorem Tallied.count_eq {b : PacketRingBuffer α} {n : UInt32} {l : Ledger α}
    (h : Tallied b n l) : getPacketRingBufferCount b = UInt32.ofNat l.held.length := by
  rw [← h.holds.count_eq, UInt32.ofNat_toNat]

/-- **The counters account for every packet.**  After every sequence of calls, with `NULL`
pointers among them, `writeCount - overwriteCnt - readCount` is the number of packets held, in
arithmetic modulo `2 ^ 32`, and `overwriteCnt` is the number of packets that a write refused; no
packet is refused for another reason than a full buffer. -/
theorem counters_account_for_every_packet (n : UInt32) (ops : List (Op α)) :
    ∃ enough, ∀ fuel, enough ≤ fuel → ∃ b q, exec (apply fuel) (new n) ops = some b ∧
      Holds b (sizeOf n) q ∧ (getPacketRingBufferCount b).toNat = q.length ∧
      b.writeCount - b.overwriteCnt - b.readCount = getPacketRingBufferCount b ∧
      b.writeCount = UInt32.ofNat (ops.countP Op.offers) ∧
      b.overwriteCnt =
        UInt32.ofNat ((trace (apply fuel) answer (new n) ops).countP (· ≠ .bufOk)) ∧
      ∀ r ∈ trace (apply fuel) answer (new n) ops, r = .bufOk ∨ r = .bufFull := by
  refine ⟨(sizeOf n).toNat, fun fuel hfuel => ?_⟩
  obtain ⟨b, l, hb, ht, hs, hoff, href, hans⟩ := exec_tallied n hfuel ops
  refine ⟨b, l.held, hb, ht.holds, ht.holds.count_eq, ?_, hoff ▸ ht.writeCount,
    href ▸ ht.overwriteCnt, hans⟩
  calc b.writeCount - b.overwriteCnt - b.readCount
      = UInt32.ofNat l.refused + UInt32.ofNat l.delivered + UInt32.ofNat l.held.length -
          UInt32.ofNat l.refused - UInt32.ofNat l.delivered := by
        rw [ht.writeCount, ht.overwriteCnt, ht.readCount, hs.balance, UInt32.ofNat_add,
          UInt32.ofNat_add]
    _ = UInt32.ofNat l.held.length := by
        rw [UInt32.add_assoc, UInt32.add_comm, UInt32.add_sub_cancel, UInt32.add_comm,
          UInt32.add_sub_cancel]
    _ = getPacketRingBufferCount b := ht.count_eq.symm

theorem sizeOf_eq_one {n : UInt32} : (sizeOf n).toNat - 1 = 0 ↔ n = 1 := by
  have hpos := sizeOf_pos n
  have h1 : (1 : UInt32).toNat = 1 := rfl
  constructor
  · intro h
    have hone : (sizeOf n).toNat = 1 := by omega
    unfold sizeOf at hone
    split at hone
    · cases hone
    · exact UInt32.toNat_inj.mp (hone.trans h1.symm)
  · rintro rfl
    rfl

/-- **The noted count is exact only before the first packet**, or in a buffer without room for
one: a write notes the count before its packet is in, a read before its packet is out. -/
theorem curCount_eq_count_iff (n : UInt32) (ops : List (Op α)) :
    ∃ enough, ∀ fuel, enough ≤ fuel → ∃ b, exec (apply fuel) (new n) ops = some b ∧
      (b.curCount = getPacketRingBufferCount b ↔ n = 1 ∨ ∀ p, Op.write (some p) ∉ ops) := by
  refine ⟨(sizeOf n).toNat, fun fuel hfuel => ?_⟩
  obtain ⟨b, l, hb, ht, hs, hoff, -, -⟩ := exec_tallied n hfuel ops
  have hexact : b.curCount = getPacketRingBufferCount b ↔ l.noted = l.held.length := by
    rw [← UInt32.toNat_inj, ht.curCount, ht.holds.count_eq]
  have hnone : l.offered = 0 ↔ ∀ p, Op.write (some p) ∉ ops := by
    rw [hoff, List.countP_eq_zero]
    constructor
    · intro h p hp
      exact h _ hp rfl
    · intro h op hop
      cases op with
      | write p =>
          cases p with
          | none => exact Bool.false_ne_true
          | some p => exact absurd hop (h p)
      | read out | top out | destroy => exact Bool.false_ne_true
  refine ⟨b, hb, ?_⟩
  rw [hexact, ← sizeOf_eq_one, ← hnone]
  constructor
  · intro h
    by_contra hno
    rw [not_or] at hno
    have := hs.stale hno.1 hno.2
    omega
  · intro h
    obtain ⟨hheld, hnoted⟩ := hs.idle h
    rw [hnoted, hheld, List.length_nil]

/-- One packet is written: the buffer holds it, and has noted none. -/
theorem curCount_behind_write :
    ∃ b, exec (apply 1) (new 10 : PacketRingBuffer Nat) [.write (some 7)] = some b ∧
      getPacketRingBufferCount b = 1 ∧ b.curCount = 0 :=
  ⟨_, rfl, by decide, by decide⟩

end StCoroutine.RingBuf
