import StCoroutine.Lib.Queue
import StCoroutine.RingBuf.Fifo

/-!
# RingBuf — one writer and one reader at the same time

`main.cc` writes the buffer from a `std::thread` and reads it from a coroutine, with no lock.
`step` interleaves a thread in `Write_Packet_RingBuffer` with one in `Read_Packet_RingBuffer` at
the granularity of their accesses to the buffer, over a sequentially consistent memory: a step of
either side reads or writes one field that the other side can change.  (The writer alone changes
`write` and the slot there, the reader alone changes `read`, and nobody changes `bufferSize` and
`bIsInit`.)  `exec_write` and `exec_read` check the steps against the functions of `Model.lean`.

A write is *accepted* when it publishes the write position, after which it can only return
`E_RET_BUF_OK`; a read *delivers* when it advances the read position, and returns
`E_RET_BUF_OK` with that step.

`SpscSafety.lean` proves what holds along every interleaving.
-/

set_option autoImplicit false

namespace StCoroutine.RingBuf.Spsc
open Lts SrsRingBuffer

variable {α : Type*}

/-! ### The two threads -/

/-- Where the writing thread is: the access of `Write_Packet_RingBuffer` it makes next. -/
inductive Writer (α : Type*) where
  | idle
  | checkSize (p : α)
  | checkInit (p : α)
  | countWrite (p : α)
  | compare (p : α)
  | countOverwrite
  | store (p : α)
  | count (p : α)
  | setCount (p : α) (k : UInt32)
  | publish (p : α)
  | mark (p : α)

/-- Where the reading thread is: the access of `Read_Packet_RingBuffer` it makes next. -/
inductive Reader (α : Type*) where
  | idle
  | checkInit
  | compare
  | countRead
  | load
  | nullCheck (v : Option α)
  | count (p : α)
  | setCount (p : α) (k : UInt32)
  | advance (p : α)

/-- The buffer, and where the two threads are. -/
structure Shared (α : Type*) where
  buf : PacketRingBuffer α
  writer : Writer α
  reader : Reader α

inductive Label (α : Type*) where
  | writeCall (ptInBuffer : Option α)
  | writeStep
  | readCall (ptOutBuffer : Bool)
  | readStep

/-- The next access of a write in progress. -/
def writeStep (b : PacketRingBuffer α) : Writer α → Option (PacketRingBuffer α × Writer α)
  | .idle => none
  | .checkSize p => some (b, if b.bufferSize = 0 then .idle else .checkInit p)
  | .checkInit p => some (b, if b.bIsInit = false then .idle else .countWrite p)
  | .countWrite p => some (b.countWrite, .compare p)
  | .compare p => some (b, if b.toWritePos = b.read then .countOverwrite else .store p)
  | .countOverwrite => some (b.countOverwrite, .idle)
  | .store p => some (b.setWriteSlot (some p), .count p)
  | .count p => some (b, .setCount p (getPacketRingBufferCount b))
  | .setCount p k => some (b.setCurCount k, .publish p)
  | .publish p => some (b.addWritePos, .mark p)
  | .mark _ => some (b.markWrited, .idle)

/-- The next access of a read in progress. -/
def readStep (b : PacketRingBuffer α) : Reader α → Option (PacketRingBuffer α × Reader α)
  | .idle => none
  | .checkInit => some (b, if b.bIsInit = false then .idle else .compare)
  | .compare => some (b, if b.read = b.write then .idle else .countRead)
  | .countRead => some (b.countRead, .load)
  | .load => some (b, .nullCheck b.curReadSlot)
  | .nullCheck none => some (b, .idle)
  | .nullCheck (some p) => some (b, .count p)
  | .count p => some (b, .setCount p (getPacketRingBufferCount b))
  | .setCount p k => some (b.setCurCount k, .advance p)
  | .advance _ => some (b.addReadPos, .idle)

/-- One step of either thread.  A thread in no call may make one; a `NULL` argument is refused
at once, before any access to the buffer. -/
def step (s : Shared α) : Label α → Option (Shared α)
  | .writeCall ptInBuffer =>
    match s.writer, ptInBuffer with
    | .idle, none => some s
    | .idle, some p => some { s with writer := .checkSize p }
    | _, _ => none
  | .writeStep => (writeStep s.buf s.writer).map fun r => { s with buf := r.1, writer := r.2 }
  | .readCall ptOutBuffer =>
    match s.reader, ptOutBuffer with
    | .idle, false => some s
    | .idle, true => some { s with reader := .checkInit }
    | _, _ => none
  | .readStep => (readStep s.buf s.reader).map fun r => { s with buf := r.1, reader := r.2 }

/-- A new buffer, with both threads outside. -/
def init (iBufferSize : UInt32) : Shared α := ⟨new iBufferSize, .idle, .idle⟩

/-! ### What a run shows -/

/-- A packet stored in a slot, a write that published its packet, one that returned
`E_RET_BUF_OK`, a read that delivered a packet from a slot. -/
inductive Event (α : Type*) where
  | stored (slot : UInt32) (p : α)
  | accepted (p : α)
  | writeOk (p : α)
  | delivered (slot : UInt32) (p : α)

def writeEvents (b : PacketRingBuffer α) : Writer α → List (Event α)
  | .store p => [.stored b.write p]
  | .publish p => [.accepted p]
  | .mark p => [.writeOk p]
  | _ => []

def readEvents (b : PacketRingBuffer α) : Reader α → List (Event α)
  | .advance p => [.delivered b.read p]
  | _ => []

def events (s : Shared α) : Label α → List (Event α)
  | .writeStep => writeEvents s.buf s.writer
  | .readStep => readEvents s.buf s.reader
  | .writeCall _ | .readCall _ => []

/-- An acceptance inserts, a delivery removes. -/
def queueEvent : Event α → Option (Queue.Ev α)
  | .accepted p => some (.enq p)
  | .delivered _ p => some (.deq p)
  | .stored _ _ | .writeOk _ => none

def queueEvents (tr : List (Event α)) : List (Queue.Ev α) := tr.filterMap queueEvent

/-- The packets accepted, in order. -/
def accepted (tr : List (Event α)) : List α := Queue.enqs (queueEvents tr)

/-- The packets delivered, in order. -/
def delivered (tr : List (Event α)) : List α := Queue.deqs (queueEvents tr)

/-- The packets of the writes that returned `E_RET_BUF_OK`, in order. -/
def writeOks (tr : List (Event α)) : List α :=
  tr.filterMap fun
    | .writeOk p => some p
    | _ => none

/-- A store fills its slot, a delivery empties it. -/
def slotEff (i : Nat) : Event α → Option (Option α)
  | .stored slot p => if slot.toNat = i then some (some p) else none
  | .delivered slot _ => if slot.toNat = i then some none else none
  | .accepted _ | .writeOk _ => none

/-- The packet stored in the slot `i` since it was last consumed. -/
def fresh (tr : List (Event α)) (i : Nat) : Option α := latest (slotEff i) tr

@[simp] theorem queueEvents_append (tr tr' : List (Event α)) :
    queueEvents (tr ++ tr') = queueEvents tr ++ queueEvents tr' :=
  List.filterMap_append

@[simp] theorem writeOks_append (tr tr' : List (Event α)) :
    writeOks (tr ++ tr') = writeOks tr ++ writeOks tr' :=
  List.filterMap_append

theorem fresh_stored (tr : List (Event α)) (slot : UInt32) (p : α) :
    fresh (tr ++ [.stored slot p]) = Function.update (fresh tr) slot.toNat (some p) := by
  refine latest_update (f := slotEff) (if_pos rfl) fun i hi => ?_
  exact if_neg (Ne.symm hi)

theorem fresh_delivered (tr : List (Event α)) (slot : UInt32) (p : α) :
    fresh (tr ++ [.delivered slot p]) = Function.update (fresh tr) slot.toNat none := by
  refine latest_update (f := slotEff) (if_pos rfl) fun i hi => ?_
  exact if_neg (Ne.symm hi)

theorem fresh_accepted (tr : List (Event α)) (p : α) : fresh (tr ++ [.accepted p]) = fresh tr := by
  funext i
  simp only [fresh, latest_snoc, slotEff, Option.getD_none]

theorem fresh_writeOk (tr : List (Event α)) (p : α) : fresh (tr ++ [.writeOk p]) = fresh tr := by
  funext i
  simp only [fresh, latest_snoc, slotEff, Option.getD_none]

/-! ### The steps against the functions -/

section alone

variable {b : PacketRingBuffer α}

theorem exec_writeSteps (w : Writer α) (r : Reader α) (k : Nat) :
    exec step ⟨b, w, r⟩ (List.replicate (k + 1) .writeStep) = (writeStep b w).bind fun next =>
      exec step ⟨next.1, next.2, r⟩ (List.replicate k .writeStep) := by
  rw [List.replicate_succ, exec, step, Option.bind_map]
  rfl

theorem exec_readSteps (w : Writer α) (r : Reader α) (k : Nat) :
    exec step ⟨b, w, r⟩ (List.replicate (k + 1) .readStep) = (readStep b r).bind fun next =>
      exec step ⟨next.1, w, next.2⟩ (List.replicate k .readStep) := by
  rw [List.replicate_succ, exec, step, Option.bind_map]
  rfl

/-- A write that is not interfered with is `Write_Packet_RingBuffer`. -/
theorem exec_write (p : α) (r : Reader α) :
    ∃ k, exec step ⟨b, .idle, r⟩ (.writeCall (some p) :: List.replicate k .writeStep) =
      some ⟨(writePacketRingBuffer b (some p)).buf, .idle, r⟩ := by
  have hcall : ∀ k, exec step ⟨b, .idle, r⟩ (.writeCall (some p) :: List.replicate k .writeStep) =
      exec step ⟨b, .checkSize p, r⟩ (List.replicate k .writeStep) := fun k => rfl
  by_cases h₁ : b.bufferSize = 0
  · refine ⟨1, (hcall 1).trans ?_⟩
    simp only [exec_writeSteps, writeStep, Option.bind_some, if_pos h₁, writePacketRingBuffer]
    rfl
  by_cases h₂ : b.bIsInit = false
  · refine ⟨2, (hcall 2).trans ?_⟩
    simp only [exec_writeSteps, writeStep, Option.bind_some, if_neg h₁, if_pos h₂,
      writePacketRingBuffer]
    rfl
  by_cases h₃ : b.countWrite.toWritePos = b.countWrite.read
  · refine ⟨5, (hcall 5).trans ?_⟩
    simp only [exec_writeSteps, writeStep, Option.bind_some, if_neg h₁, if_neg h₂, if_pos h₃,
      writePacketRingBuffer]
    rfl
  · refine ⟨9, (hcall 9).trans ?_⟩
    simp only [exec_writeSteps, writeStep, Option.bind_some, if_neg h₁, if_neg h₂, if_neg h₃,
      writePacketRingBuffer]
    rfl

/-- A read that is not interfered with is `Read_Packet_RingBuffer`. -/
theorem exec_read (w : Writer α) (cell : Option α) :
    ∃ k, exec step ⟨b, w, .idle⟩ (.readCall true :: List.replicate k .readStep) =
      some ⟨(readPacketRingBuffer b (some cell)).buf, w, .idle⟩ := by
  have hcall : ∀ k, exec step ⟨b, w, .idle⟩ (.readCall true :: List.replicate k .readStep) =
      exec step ⟨b, w, .checkInit⟩ (List.replicate k .readStep) := fun k => rfl
  by_cases h₁ : b.bIsInit = false
  · refine ⟨1, (hcall 1).trans ?_⟩
    simp only [exec_readSteps, readStep, Option.bind_some, if_pos h₁, readPacketRingBuffer]
    rfl
  by_cases h₂ : b.read = b.write
  · refine ⟨2, (hcall 2).trans ?_⟩
    simp only [exec_readSteps, readStep, Option.bind_some, if_neg h₁, if_pos h₂,
      readPacketRingBuffer]
    rfl
  cases h₃ : b.countRead.curReadSlot with
  | none =>
      refine ⟨5, (hcall 5).trans ?_⟩
      simp only [exec_readSteps, readStep, Option.bind_some, if_neg h₁, if_neg h₂, h₃,
        readPacketRingBuffer]
      rfl
  | some p =>
      refine ⟨8, (hcall 8).trans ?_⟩
      simp only [exec_readSteps, readStep, Option.bind_some, if_neg h₁, if_neg h₂, h₃,
        readPacketRingBuffer]
      rfl

end alone

end StCoroutine.RingBuf.Spsc
