import Mathlib.Logic.Function.Basic

/-!
# RingBuf — the ring buffer as the code has it

`srs_app_ringbuf.hpp`.  A packet is a pointer: `none` is `NULL`, and `α` is the type of the
non-`NULL` pointers.  `unsigned int` is `UInt32`, so every sum wraps.  An output parameter
`T** ptOutBuffer` is `none` when it is `NULL`, and otherwise the cell it points to: a call
returns what that cell holds afterwards.

The slot array is a total function of the index.  In its place every call lists the slots it
indexes (`used`), so that an index beyond the array is something a theorem can exclude.
-/

set_option autoImplicit false

namespace StCoroutine.RingBuf

/-- `MAX_RINGBUFFER_SIZE`. -/
def maxRingbufferSize : UInt32 := 1000

/-- `E_OPER_BUFFER_RET`. -/
inductive OperBufferRet where
  | bufNull
  | bufFull
  | bufEmpty
  | bufNotInit
  | bufOk
  deriving DecidableEq, Repr

/-- `T_PacketRing_Buffer`. -/
structure PacketRingBuffer (α : Type*) where
  ptArrayBuffer : Nat → Option α
  write : UInt32
  read : UInt32
  bufferSize : UInt32
  curCount : UInt32
  writeCount : UInt32
  readCount : UInt32
  bIsInit : Bool
  bIsWrited : Bool
  overwriteCnt : UInt32

variable {α : Type*}

/-- What a call on the buffer returns, what it leaves in the cell of its output parameter, the
buffer afterwards, and the slots it indexed. -/
structure Outcome (α : Type*) where
  ret : OperBufferRet
  ptOutBuffer : Option (Option α)
  buf : PacketRingBuffer α
  used : List UInt32

namespace PacketRingBuffer

/-- `RING_BUFFER_TO_WRITE_POS`. -/
def toWritePos (b : PacketRingBuffer α) : UInt32 := (b.write + 1) % b.bufferSize

/-- `RING_BUFFER_ADD_WRITE_POS`. -/
def addWritePos (b : PacketRingBuffer α) : PacketRingBuffer α :=
  { b with write := (b.write + 1) % b.bufferSize }

/-- `RING_BUFFER_ADD_READ_POS`. -/
def addReadPos (b : PacketRingBuffer α) : PacketRingBuffer α :=
  { b with read := (b.read + 1) % b.bufferSize }

/-- `ptArrayBuffer[RING_BUFFER_CUR_READ_POS]`. -/
def curReadSlot (b : PacketRingBuffer α) : Option α := b.ptArrayBuffer b.read.toNat

/-- `ptArrayBuffer[RING_BUFFER_CUR_WRITE_POS] = p`. -/
def setWriteSlot (b : PacketRingBuffer α) (p : Option α) : PacketRingBuffer α :=
  { b with ptArrayBuffer := Function.update b.ptArrayBuffer b.write.toNat p }

/-- `writeCount++`. -/
def countWrite (b : PacketRingBuffer α) : PacketRingBuffer α :=
  { b with writeCount := b.writeCount + 1 }

/-- `overwriteCnt++`. -/
def countOverwrite (b : PacketRingBuffer α) : PacketRingBuffer α :=
  { b with overwriteCnt := b.overwriteCnt + 1 }

/-- `readCount++`. -/
def countRead (b : PacketRingBuffer α) : PacketRingBuffer α :=
  { b with readCount := b.readCount + 1 }

/-- `curCount = k`. -/
def setCurCount (b : PacketRingBuffer α) (k : UInt32) : PacketRingBuffer α :=
  { b with curCount := k }

/-- `if (FALSE == bIsWrited) bIsWrited = TRUE`. -/
def markWrited (b : PacketRingBuffer α) : PacketRingBuffer α :=
  if b.bIsWrited = false then { b with bIsWrited := true } else b

end PacketRingBuffer

namespace SrsRingBuffer

/-- The constructor: `memset` to zero, then the size, clamped. -/
def new (iBufferSize : UInt32) : PacketRingBuffer α where
  ptArrayBuffer := fun _ => none
  write := 0
  read := 0
  bufferSize :=
    if iBufferSize ≤ 0 ∨ iBufferSize ≥ maxRingbufferSize then maxRingbufferSize else iBufferSize
  curCount := 0
  writeCount := 0
  readCount := 0
  bIsInit := true
  bIsWrited := false
  overwriteCnt := 0

/-- `Get_Packet_RingBuffer_Count`. -/
def getPacketRingBufferCount (b : PacketRingBuffer α) : UInt32 :=
  (b.write + b.bufferSize - b.read) % b.bufferSize

/-- `Read_Packet_RingBuffer`. -/
def readPacketRingBuffer (b : PacketRingBuffer α) (ptOutBuffer : Option (Option α)) : Outcome α :=
  match ptOutBuffer with
  | none => ⟨.bufNull, none, b, []⟩
  | some out =>
    if b.bIsInit = false then ⟨.bufNotInit, some out, b, []⟩
    else if b.read = b.write then ⟨.bufEmpty, some out, b, []⟩
    else
      let b₁ := b.countRead
      match b₁.curReadSlot with
      | none => ⟨.bufEmpty, some none, b₁, [b₁.read]⟩
      | some p =>
        let b₂ := b₁.setCurCount (getPacketRingBufferCount b₁)
        ⟨.bufOk, some (some p), b₂.addReadPos, [b₁.read]⟩

/-- `Read_Packet_Top_RingBuffer`. -/
def readPacketTopRingBuffer (b : PacketRingBuffer α) (ptOutBuffer : Option (Option α)) :
    Outcome α :=
  match ptOutBuffer with
  | none => ⟨.bufNull, none, b, []⟩
  | some out =>
    if b.bufferSize = 0 then ⟨.bufNull, some out, b, []⟩
    else if b.bIsInit = false then ⟨.bufNotInit, some out, b, []⟩
    else if b.read = b.write then ⟨.bufEmpty, some out, b, []⟩
    else
      match b.curReadSlot with
      | none => ⟨.bufEmpty, some none, b, [b.read]⟩
      | some p => ⟨.bufOk, some (some p), b, [b.read]⟩

/-- `Write_Packet_RingBuffer`.  `iReadIdx` is not used by the code. -/
def writePacketRingBuffer (b : PacketRingBuffer α) (ptInBuffer : Option α) : Outcome α :=
  match ptInBuffer with
  | none => ⟨.bufNull, none, b, []⟩
  | some p =>
    if b.bufferSize = 0 then ⟨.bufNull, none, b, []⟩
    else if b.bIsInit = false then ⟨.bufNotInit, none, b, []⟩
    else
      let b₁ := b.countWrite
      if b₁.toWritePos = b₁.read then ⟨.bufFull, none, b₁.countOverwrite, []⟩
      else
        let b₂ := b₁.setWriteSlot (some p)
        let b₃ := b₂.setCurCount (getPacketRingBufferCount b₂)
        ⟨.bufOk, none, b₃.addWritePos.markWrited, [b₁.write]⟩

/-- The `while (1)` of `Destroy_Packet_RingBuffer`, for at most `fuel` reads; `none` when it has
not left the loop by then. -/
def destroyLoop : Nat → PacketRingBuffer α → Option α → Option (PacketRingBuffer α × List UInt32)
  | 0, _, _ => none
  | fuel + 1, b, ptBuffer =>
    let o := readPacketRingBuffer b (some ptBuffer)
    if o.ret ≠ .bufOk then some (o.buf, o.used)
    else (destroyLoop fuel o.buf (o.ptOutBuffer.getD none)).map fun r => (r.1, o.used ++ r.2)

/-- `Destroy_Packet_RingBuffer`. -/
def destroyPacketRingBuffer (fuel : Nat) (b : PacketRingBuffer α) :
    Option (PacketRingBuffer α × List UInt32) :=
  if b.bIsInit = false then some (b, []) else destroyLoop fuel b none

end SrsRingBuffer

end StCoroutine.RingBuf
