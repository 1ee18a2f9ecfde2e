import StCoroutine.Lib.Circular
import StCoroutine.Lib.Lts
import StCoroutine.RingBuf.Model

/-!
# RingBuf — the ring buffer is a bounded queue

`Holds b n q`: the buffer `b`, of size `n`, holds the packets `q`, oldest first.  The queue is
read off the two indices and the slots between them (`Circular.Holds`); none of these slots is
`NULL`, so the `NULL` check inside a read never fires.

Every call keeps the relation and does to `q` what `fifoCall` says (`call_refines`), a queue of
capacity `n - 1`.  `ring_is_bounded_fifo` carries it to every sequence of calls from the
constructor: same replies, same contents, every slot index in range, and `Destroy` comes to an
end.
-/

set_option autoImplicit false

namespace StCoroutine.RingBuf
open Lts SrsRingBuffer

variable {α : Type*}

/-! ### What a buffer holds -/

/-- The buffer `b`, of size `n`, holds the packets `q`, oldest first. -/
structure Holds (b : PacketRingBuffer α) (n : UInt32) (q : List α) : Prop where
  isInit : b.bIsInit = true
  size_eq : b.bufferSize = n
  size_le : n ≤ maxRingbufferSize
  ring : Circular.Holds b.ptArrayBuffer n.toNat b.read.toNat b.write.toNat q

/-- A step around a ring of at most a thousand slots does not wrap `unsigned int`. -/
theorem succ_mod_toNat {i n : UInt32} (hn : n ≤ maxRingbufferSize) (hi : i.toNat < n.toNat) :
    ((i + 1) % n).toNat = (i.toNat + 1) % n.toNat := by
  have hn' : n.toNat ≤ 1000 := UInt32.le_iff_toNat_le.mp hn
  have hw : (i.toNat + 1) % 2 ^ 32 = i.toNat + 1 := Nat.mod_eq_of_lt (by omega)
  have h1 : (1 : UInt32).toNat = 1 := rfl
  rw [UInt32.toNat_mod, UInt32.toNat_add, h1, hw]

theorem markWrited_eq (b : PacketRingBuffer α) : b.markWrited = { b with bIsWrited := true } := by
  unfold PacketRingBuffer.markWrited
  split
  · rfl
  · next h =>
      rw [Bool.not_eq_false] at h
      rw [← h]

namespace Holds

variable {b : PacketRingBuffer α} {n : UInt32} {q : List α}

theorem size_toNat_le (h : Holds b n q) : n.toNat ≤ 1000 := UInt32.le_iff_toNat_le.mp h.size_le

theorem size_ne_zero (h : Holds b n q) : b.bufferSize ≠ 0 := by
  intro e
  have hr := h.ring.read_lt
  rw [← h.size_eq, e] at hr
  exact absurd hr (Nat.not_lt_zero _)

theorem read_lt (h : Holds b n q) : b.read < n := UInt32.lt_iff_toNat_lt.mpr h.ring.read_lt

theorem write_lt (h : Holds b n q) : b.write < n := UInt32.lt_iff_toNat_lt.mpr h.ring.write_lt

theorem toWritePos_toNat (h : Holds b n q) :
    b.toWritePos.toNat = (b.write.toNat + 1) % n.toNat := by
  rw [PacketRingBuffer.toWritePos, h.size_eq, succ_mod_toNat h.size_le h.ring.write_lt]

theorem addReadPos_read (h : Holds b n q) :
    b.addReadPos.read.toNat = (b.read.toNat + 1) % n.toNat := by
  rw [PacketRingBuffer.addReadPos, h.size_eq, succ_mod_toNat h.size_le h.ring.read_lt]

theorem read_eq_write (h : Holds b n q) : b.read = b.write ↔ q = [] := by
  rw [← UInt32.toNat_inj, h.ring.read_eq_write]

/-- The full test of a write. -/
theorem toWritePos_eq_read (h : Holds b n q) :
    b.toWritePos = b.read ↔ ¬ q.length < n.toNat - 1 := by
  rw [← UInt32.toNat_inj, h.toWritePos_toNat, h.ring.next_write_eq_read]

theorem count_eq (h : Holds b n q) : (getPacketRingBufferCount b).toNat = q.length := by
  have hr := h.ring.read_lt
  have hw := h.ring.write_lt
  have hn := h.size_toNat_le
  have hs : (b.write + n - b.read).toNat = b.write.toNat + n.toNat - b.read.toNat := by
    rw [UInt32.toNat_sub, UInt32.toNat_add]
    omega
  rw [getPacketRingBufferCount, h.size_eq, UInt32.toNat_mod, hs, h.ring.length_eq]

/-- What a buffer holds is in its indices, its slots, its size and `bIsInit`. -/
theorem of_eq (h : Holds b n q) {b' : PacketRingBuffer α} (hi : b'.bIsInit = b.bIsInit)
    (hs : b'.bufferSize = b.bufferSize) (hp : b'.ptArrayBuffer = b.ptArrayBuffer)
    (hr : b'.read = b.read) (hw : b'.write = b.write) : Holds b' n q :=
  ⟨hi.trans h.isInit, hs.trans h.size_eq, h.size_le, by rw [hp, hr, hw]; exact h.ring⟩

theorem countWrite (h : Holds b n q) : Holds b.countWrite n q := h.of_eq rfl rfl rfl rfl rfl

theorem countOverwrite (h : Holds b n q) : Holds b.countOverwrite n q :=
  h.of_eq rfl rfl rfl rfl rfl

theorem countRead (h : Holds b n q) : Holds b.countRead n q := h.of_eq rfl rfl rfl rfl rfl

theorem setCurCount (h : Holds b n q) (k : UInt32) : Holds (b.setCurCount k) n q :=
  h.of_eq rfl rfl rfl rfl rfl

theorem markWrited (h : Holds b n q) : Holds b.markWrited n q := by
  rw [markWrited_eq]
  exact h.of_eq rfl rfl rfl rfl rfl

theorem front {x : α} (h : Holds b n (x :: q)) : b.curReadSlot = some x := h.ring.front

theorem addReadPos {x : α} (h : Holds b n (x :: q)) : Holds b.addReadPos n q := by
  refine ⟨h.isInit, h.size_eq, h.size_le, ?_⟩
  rw [h.addReadPos_read]
  exact h.ring.advance

theorem setWriteSlot (h : Holds b n q) (p : Option α) : Holds (b.setWriteSlot p) n q :=
  ⟨h.isInit, h.size_eq, h.size_le, h.ring.store p⟩

theorem addWritePos {p : α} (h : Holds b n q) (hp : b.ptArrayBuffer b.write.toNat = some p)
    (hroom : q.length < n.toNat - 1) : Holds b.addWritePos n (q ++ [p]) := by
  have hw : b.addWritePos.write.toNat = (b.write.toNat + 1) % n.toNat := h.toWritePos_toNat
  refine ⟨h.isInit, h.size_eq, h.size_le, ?_⟩
  rw [hw]
  exact h.ring.publish hp hroom

end Holds

/-- The size the constructor gives a buffer. -/
def sizeOf (iBufferSize : UInt32) : UInt32 :=
  if iBufferSize = 0 ∨ iBufferSize ≥ 1000 then 1000 else iBufferSize

theorem new_bufferSize (iBufferSize : UInt32) :
    (new iBufferSize : PacketRingBuffer α).bufferSize = sizeOf iBufferSize := by
  have h0 : iBufferSize ≤ 0 ↔ iBufferSize = 0 := by
    rw [UInt32.le_iff_toNat_le, ← UInt32.toNat_inj]
    exact Nat.le_zero
  simp only [new, sizeOf, maxRingbufferSize, h0]

theorem sizeOf_le (iBufferSize : UInt32) : sizeOf iBufferSize ≤ maxRingbufferSize := by
  simp only [sizeOf, maxRingbufferSize]
  split
  · exact UInt32.le_refl _
  · next h =>
      rw [UInt32.le_iff_toNat_le]
      rw [not_or, ge_iff_le, UInt32.le_iff_toNat_le] at h
      exact (Nat.lt_of_not_le h.2).le

theorem sizeOf_pos (iBufferSize : UInt32) : 0 < (sizeOf iBufferSize).toNat := by
  simp only [sizeOf]
  split
  · decide
  · next h =>
      rw [not_or, ← UInt32.toNat_inj] at h
      exact Nat.pos_of_ne_zero h.1

/-- The constructor makes an empty buffer of that size. -/
theorem holds_new (iBufferSize : UInt32) :
    Holds (new iBufferSize : PacketRingBuffer α) (sizeOf iBufferSize) [] :=
  ⟨rfl, new_bufferSize iBufferSize, sizeOf_le iBufferSize, .nil (sizeOf_pos iBufferSize)⟩

/-! ### Calls -/

/-- A call on the buffer.  Output parameters point to a cell, given with what it holds. -/
inductive Call (α : Type*) where
  | write (ptInBuffer : Option α)
  | read (cell : Option α)
  | top (cell : Option α)
  | count
  | destroy

/-- What a call answers: a code, a code and the cell of the output parameter, a number. -/
inductive Reply (α : Type*) where
  | ret (r : OperBufferRet)
  | out (r : OperBufferRet) (cell : Option (Option α))
  | num (k : Nat)
  | done
  deriving DecidableEq

/-- A call, with its reply, the slots it indexes and the buffer afterwards; `none` when a
`Destroy` is still in its loop after `fuel` reads. -/
def call (fuel : Nat) (b : PacketRingBuffer α) :
    Call α → Option (Reply α × List UInt32 × PacketRingBuffer α)
  | .write p =>
    let o := writePacketRingBuffer b p
    some (.ret o.ret, o.used, o.buf)
  | .read cell =>
    let o := readPacketRingBuffer b (some cell)
    some (.out o.ret o.ptOutBuffer, o.used, o.buf)
  | .top cell =>
    let o := readPacketTopRingBuffer b (some cell)
    some (.out o.ret o.ptOutBuffer, o.used, o.buf)
  | .count => some (.num (getPacketRingBufferCount b).toNat, [], b)
  | .destroy => (destroyPacketRingBuffer fuel b).map fun r => (.done, r.2, r.1)

/-- The buffer after a call. -/
def step (fuel : Nat) (b : PacketRingBuffer α) (c : Call α) : Option (PacketRingBuffer α) :=
  (call fuel b c).map fun r => r.2.2

/-- The reply of a call. -/
def reply (fuel : Nat) (b : PacketRingBuffer α) (c : Call α) : List (Reply α) :=
  ((call fuel b c).map fun r => r.1).toList

/-- The slots a call indexes. -/
def slots (fuel : Nat) (b : PacketRingBuffer α) (c : Call α) : List UInt32 :=
  ((call fuel b c).map fun r => r.2.1).getD []

/-- **The purpose of the buffer**: a queue that holds at most `cap` packets. -/
def fifoCall (cap : Nat) (q : List α) : Call α → Reply α × List α
  | .write none => (.ret .bufNull, q)
  | .write (some p) => if q.length < cap then (.ret .bufOk, q ++ [p]) else (.ret .bufFull, q)
  | .read cell =>
    match q with
    | [] => (.out .bufEmpty (some cell), [])
    | p :: q' => (.out .bufOk (some (some p)), q')
  | .top cell =>
    match q with
    | [] => (.out .bufEmpty (some cell), [])
    | p :: q' => (.out .bufOk (some (some p)), p :: q')
  | .count => (.num q.length, q)
  | .destroy => (.done, [])

def fifoStep (cap : Nat) (q : List α) (c : Call α) : Option (List α) := some (fifoCall cap q c).2

def fifoReply (cap : Nat) (q : List α) (c : Call α) : List (Reply α) := [(fifoCall cap q c).1]

/-! ### Each call does what the queue does -/

section spec

variable {b : PacketRingBuffer α} {n : UInt32} {q : List α}

theorem write_null (b : PacketRingBuffer α) :
    writePacketRingBuffer b none = ⟨.bufNull, none, b, []⟩ := rfl

/-- A write into a full buffer is refused, and counted. -/
theorem write_full_eq (h : Holds b n q) (p : α) (hfull : ¬ q.length < n.toNat - 1) :
    writePacketRingBuffer b (some p) = ⟨.bufFull, none, b.countWrite.countOverwrite, []⟩ := by
  have hw : b.countWrite.toWritePos = b.countWrite.read :=
    h.countWrite.toWritePos_eq_read.mpr hfull
  simp only [writePacketRingBuffer, if_neg h.size_ne_zero, h.isInit, Bool.true_eq_false, if_false,
    if_pos hw]

theorem write_full (h : Holds b n q) (p : α) (hfull : ¬ q.length < n.toNat - 1) :
    ∃ b', writePacketRingBuffer b (some p) = ⟨.bufFull, none, b', []⟩ ∧ Holds b' n q :=
  ⟨_, write_full_eq h p hfull, h.countWrite.countOverwrite⟩

/-- The buffer after a write of `p` that finds room. -/
def written (b : PacketRingBuffer α) (p : α) : PacketRingBuffer α :=
  let b₂ := b.countWrite.setWriteSlot (some p)
  (b₂.setCurCount (getPacketRingBufferCount b₂)).addWritePos.markWrited

theorem Holds.written (h : Holds b n q) (p : α) (hroom : q.length < n.toNat - 1) :
    Holds (written b p) n (q ++ [p]) := by
  have h₃ := (h.countWrite.setWriteSlot (some p)).setCurCount
    (getPacketRingBufferCount (b.countWrite.setWriteSlot (some p)))
  exact (h₃.addWritePos (Function.update_self _ _ _) hroom).markWrited

theorem write_ok_eq (h : Holds b n q) (p : α) (hroom : q.length < n.toNat - 1) :
    writePacketRingBuffer b (some p) = ⟨.bufOk, none, written b p, [b.write]⟩ := by
  have hw : b.countWrite.toWritePos ≠ b.countWrite.read :=
    fun e => h.countWrite.toWritePos_eq_read.mp e hroom
  simp only [writePacketRingBuffer, if_neg h.size_ne_zero, h.isInit, Bool.true_eq_false, if_false,
    if_neg hw]
  rfl

/-- A write into a buffer with room appends its packet. -/
theorem write_ok (h : Holds b n q) (p : α) (hroom : q.length < n.toNat - 1) :
    ∃ b', writePacketRingBuffer b (some p) = ⟨.bufOk, none, b', [b.write]⟩ ∧
      Holds b' n (q ++ [p]) :=
  ⟨_, write_ok_eq h p hroom, h.written p hroom⟩

theorem read_nil (h : Holds b n []) (cell : Option α) :
    readPacketRingBuffer b (some cell) = ⟨.bufEmpty, some cell, b, []⟩ := by
  have hr : b.read = b.write := h.read_eq_write.mpr rfl
  simp only [readPacketRingBuffer, h.isInit, Bool.true_eq_false, if_false, if_pos hr]

/-- The buffer after a read that delivers. -/
def taken (b : PacketRingBuffer α) : PacketRingBuffer α :=
  (b.countRead.setCurCount (getPacketRingBufferCount b.countRead)).addReadPos

theorem Holds.taken {p : α} (h : Holds b n (p :: q)) : Holds (taken b) n q :=
  (h.countRead.setCurCount (getPacketRingBufferCount b.countRead)).addReadPos

theorem read_cons_eq {p : α} (h : Holds b n (p :: q)) (cell : Option α) :
    readPacketRingBuffer b (some cell) = ⟨.bufOk, some (some p), taken b, [b.read]⟩ := by
  have hr : b.read ≠ b.write := fun e => by cases h.read_eq_write.mp e
  simp only [readPacketRingBuffer, h.isInit, Bool.true_eq_false, if_false, if_neg hr,
    h.countRead.front]
  rfl

/-- A read of a non-empty buffer delivers and removes the oldest packet. -/
theorem read_cons {p : α} (h : Holds b n (p :: q)) (cell : Option α) :
    ∃ b', readPacketRingBuffer b (some cell) = ⟨.bufOk, some (some p), b', [b.read]⟩ ∧
      Holds b' n q :=
  ⟨_, read_cons_eq h cell, h.taken⟩

theorem top_nil (h : Holds b n []) (cell : Option α) :
    readPacketTopRingBuffer b (some cell) = ⟨.bufEmpty, some cell, b, []⟩ := by
  have hr : b.read = b.write := h.read_eq_write.mpr rfl
  simp only [readPacketTopRingBuffer, if_neg h.size_ne_zero, h.isInit, Bool.true_eq_false,
    if_false, if_pos hr]

theorem top_cons {p : α} (h : Holds b n (p :: q)) (cell : Option α) :
    readPacketTopRingBuffer b (some cell) = ⟨.bufOk, some (some p), b, [b.read]⟩ := by
  have hr : b.read ≠ b.write := fun e => by cases h.read_eq_write.mp e
  simp only [readPacketTopRingBuffer, if_neg h.size_ne_zero, h.isInit, Bool.true_eq_false,
    if_false, if_neg hr, h.front]

/-- **The loop of `Destroy`** reads one packet a turn and leaves on the empty buffer: what one read
that delivers keeps of the buffer and its packets, holds of the buffer it leaves. -/
theorem destroyLoop_rule {I : PacketRingBuffer α → List α → Prop}
    (holds : ∀ b q, I b q → Holds b n q) (next : ∀ b p q, I b (p :: q) → I (taken b) q)
    {fuel : Nat} : ∀ {b : PacketRingBuffer α} {q : List α}, I b q →
    ∀ cell, q.length < fuel → ∃ b' used, destroyLoop fuel b cell = some (b', used) ∧
      I b' [] ∧ ∀ i ∈ used, i < n := by
  induction fuel with
  | zero => exact fun _ _ hlt => absurd hlt (Nat.not_lt_zero _)
  | succ fuel ih =>
      intro b q h cell hlt
      cases q with
      | nil => exact ⟨b, [], by simp [destroyLoop, read_nil (holds b [] h)], h, by simp⟩
      | cons p q =>
          have hread := read_cons_eq (holds b (p :: q) h) cell
          obtain ⟨b', used, hd, hb', hu⟩ := ih (next b p q h) (some p) (by simpa using hlt)
          refine ⟨b', b.read :: used, ?_, hb', ?_⟩
          · simp [destroyLoop, hread, hd]
          · intro i hi
            rcases List.mem_cons.mp hi with rfl | hi
            · exact (holds b (p :: q) h).read_lt
            · exact hu i hi

/-- **Each call refines the queue's**: same reply, the queue's contents afterwards, and only
slots of the ring indexed. -/
theorem call_refines (h : Holds b n q) {fuel : Nat} (hfuel : n.toNat ≤ fuel) (c : Call α) :
    ∃ r used b', call fuel b c = some (r, used, b') ∧ (fifoCall (n.toNat - 1) q c).1 = r ∧
      Holds b' n (fifoCall (n.toNat - 1) q c).2 ∧ ∀ i ∈ used, i < n := by
  cases c with
  | write p =>
      refine ⟨_, _, _, rfl, ?_⟩
      cases p with
      | none => exact ⟨rfl, h, by simp [write_null]⟩
      | some p =>
          by_cases hroom : q.length < n.toNat - 1
          · obtain ⟨b', hw, hb'⟩ := write_ok h p hroom
            simp only [fifoCall, if_pos hroom, hw]
            exact ⟨trivial, hb', by simp [h.write_lt]⟩
          · obtain ⟨b', hw, hb'⟩ := write_full h p hroom
            simp only [fifoCall, if_neg hroom, hw]
            exact ⟨trivial, hb', by simp⟩
  | read cell =>
      refine ⟨_, _, _, rfl, ?_⟩
      cases q with
      | nil => simpa [fifoCall, read_nil h] using h
      | cons p q =>
          obtain ⟨b', hread, hb'⟩ := read_cons h cell
          simp only [fifoCall, hread]
          exact ⟨trivial, hb', by simp [h.read_lt]⟩
  | top cell =>
      refine ⟨_, _, _, rfl, ?_⟩
      cases q with
      | nil => simpa [fifoCall, top_nil h] using h
      | cons p q => simpa [fifoCall, top_cons h, h.read_lt] using h
  | count => exact ⟨_, _, _, rfl, by rw [h.count_eq]; rfl, h, by simp⟩
  | destroy =>
      -- one read for each packet, and the read that finds nothing
      have hlt : q.length < fuel := Nat.lt_of_lt_of_le h.ring.room hfuel
      obtain ⟨b', used, hd, hb', hu⟩ := destroyLoop_rule (fun _ _ h => h)
        (fun _ _ _ h => h.taken) h none hlt
      refine ⟨.done, used, b', ?_, rfl, hb', hu⟩
      simp [call, destroyPacketRingBuffer, h.isInit, hd]

end spec

/-! ### Every sequence of calls -/

/-- The queue never holds more than its capacity. -/
theorem fifo_length_le {cap : Nat} {calls : List (Call α)} {q : List α}
    (h : exec (fifoStep cap) [] calls = some q) : q.length ≤ cap := by
  refine exec_inv (I := fun q => q.length ≤ cap) (Nat.zero_le _) ?_ h
  intro q c q' hq hs
  cases hs
  cases c with
  | write p =>
      cases p with
      | none => exact hq
      | some p =>
          simp only [fifoCall]
          split
          · next hlt =>
              rw [List.length_append, List.length_singleton]
              exact hlt
          · exact hq
  | read cell =>
      cases q with
      | nil => exact hq
      | cons p q => exact Nat.le_of_succ_le hq
  | top cell => cases q <;> exact hq
  | count => exact hq
  | destroy => exact Nat.zero_le _

/-- The queue delivers packets, never `NULL`. -/
theorem fifo_delivers {cap : Nat} {q : List α} {c : Call α} {cell : Option (Option α)}
    (h : (fifoCall cap q c).1 = .out .bufOk cell) : ∃ p, cell = some (some p) := by
  cases c with
  | write p => cases p <;> simp only [fifoCall] at h <;> (try split at h) <;> cases h
  | read _ | top _ =>
      cases q with
      | nil => cases h
      | cons p q =>
          cases h
          exact ⟨p, rfl⟩
  | count | destroy => cases h

/-- **The ring buffer is a bounded first-in first-out queue.**  For every constructor argument
and every sequence of calls, every call returns (a `Destroy` needs at most `bufferSize` reads),
the replies are those of a queue of capacity `bufferSize - 1`, and the buffer holds what the
queue holds.  No read delivers `NULL`, and every slot index is below `bufferSize`, which is at
most 1000. -/
theorem ring_is_bounded_fifo (n : UInt32) (calls : List (Call α)) :
    ∃ fuel₀, ∀ fuel, fuel₀ ≤ fuel →
      ∃ b q, exec (step fuel) (new n) calls = some b ∧
        exec (fifoStep ((sizeOf n).toNat - 1)) [] calls = some q ∧
        trace (step fuel) (reply fuel) (new n) calls =
          trace (fifoStep ((sizeOf n).toNat - 1)) (fifoReply ((sizeOf n).toNat - 1)) [] calls ∧
        Holds b (sizeOf n) q ∧ q.length ≤ (sizeOf n).toNat - 1 ∧
        (∀ cell, Reply.out .bufOk cell ∈ trace (step fuel) (reply fuel) (new n) calls →
          ∃ p, cell = some (some p)) ∧
        (∀ i ∈ trace (step fuel) (slots fuel) (new n) calls, i < b.bufferSize) ∧
        b.bufferSize = sizeOf n ∧ b.bufferSize ≤ 1000 := by
  refine ⟨(sizeOf n).toNat, fun fuel hfuel => ?_⟩
  have hnext : ∀ (b : PacketRingBuffer α) q c, Holds b (sizeOf n) q →
      ∃ b' q', step fuel b c = some b' ∧ fifoStep ((sizeOf n).toNat - 1) q c = some q' ∧
        reply fuel b c = fifoReply ((sizeOf n).toNat - 1) q c ∧ Holds b' (sizeOf n) q' := by
    intro b q c h
    obtain ⟨r, used, b', hc, hr, hb', -⟩ := call_refines h hfuel c
    exact ⟨b', _, by simp [step, hc], rfl, by simp [reply, fifoReply, hc, hr], hb'⟩
  obtain ⟨b, q, hb, hq, htr, hbq⟩ := exec_lockstep hnext calls (holds_new n)
  refine ⟨b, q, hb, hq, htr, hbq, fifo_length_le hq, ?_, ?_, hbq.size_eq,
    hbq.size_eq ▸ hbq.size_le⟩
  · -- the replies are the queue's, which has no `NULL`
    intro cell hcell
    rw [htr] at hcell
    refine trace_forall (I := fun _ => True)
      (P := fun r => ∀ cell, r = .out .bufOk cell → ∃ p, cell = some (some p)) trivial ?_ hq
      _ hcell cell rfl
    intro q c q' _ _
    refine ⟨trivial, fun e he cell hcell => ?_⟩
    rw [List.mem_singleton.mp he] at hcell
    exact fifo_delivers hcell
  · rw [hbq.size_eq]
    refine trace_forall (I := fun b => ∃ q, Holds b (sizeOf n) q) ⟨[], holds_new n⟩ ?_ hb
    rintro b c b' ⟨q, h⟩ hs
    obtain ⟨r, used, b₁, hc, -, hb₁, hu⟩ := call_refines h hfuel c
    simp only [step, hc, Option.map_some, Option.some.injEq] at hs
    subst hs
    exact ⟨⟨_, hb₁⟩, by simpa [slots, hc] using hu⟩

end StCoroutine.RingBuf
