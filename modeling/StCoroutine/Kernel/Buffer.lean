import StCoroutine.Lib.Bytes
import StCoroutine.Lib.Lts

/-!
# Kernel — the byte buffer

`SrsBuffer` of `srs_kernel_buffer.cpp`.  A buffer is three numbers, the addresses `p` and `bytes`
and the size `nb_bytes`, and the memory behind them.  A method goes through its statements one by
one, and ends at the first `srs_assert` that fails, with what it has done until then.

An `int16_t value` that is read or written byte by byte through `char* pp` is the table of its
bytes; the host is little-endian, so `pp[0]` is the least significant one.  An address is a number,
`0` is `NULL`.
-/

set_option autoImplicit false

namespace StCoroutine.Kernel
open Bytes

/-- An `int`, of a number that may not fit into one. -/
def int (z : Int) : Int := z.bmod (2 ^ 32)

theorem int_of_lt {z : Int} (h₀ : 0 ≤ z) (h : z < 2 ^ 31) : int z = z := by
  refine Int.bmod_eq_of_le ?_ ?_ <;> omega

theorem int_natCast {n : Nat} (h : n < 2 ^ 31) : int n = n :=
  int_of_lt (Int.natCast_nonneg n) (by omega)

/-- A buffer, with the memory it is over. -/
structure SrsBuffer where
  p : Int
  bytes : Int
  nbBytes : Int
  mem : Mem

namespace SrsBuffer

/-- `SrsBuffer::SrsBuffer`. -/
def new (b nn : Int) (mem : Mem) : SrsBuffer := ⟨b, b, nn, mem⟩

/-- `SrsBuffer::size`. -/
def size (s : SrsBuffer) : Int := s.nbBytes

/-- `SrsBuffer::pos`. -/
def pos (s : SrsBuffer) : Int := int (s.p - s.bytes)

/-- `SrsBuffer::left`. -/
def left (s : SrsBuffer) : Int := s.nbBytes - int (s.p - s.bytes)

/-- `SrsBuffer::empty`. -/
def empty (s : SrsBuffer) : Bool := s.bytes = 0 ∨ s.p ≥ s.bytes + s.nbBytes

/-- `SrsBuffer::require`. -/
def require (s : SrsBuffer) (requiredSize : Int) : Bool :=
  if requiredSize < 0 then false else requiredSize ≤ s.nbBytes - (s.p - s.bytes)

theorem require_eq_true {s : SrsBuffer} {n : Int} :
    s.require n = true ↔ 0 ≤ n ∧ n ≤ s.nbBytes - (s.p - s.bytes) := by
  unfold require
  split
  · simp; omega
  · simp; omega

/-- A method of a buffer: it may fail an assertion. -/
abbrev Op (α : Type) := OptionT (StateM SrsBuffer) α

/-- What a method returns, if no assertion fails, and the buffer it leaves. -/
def run {α : Type} (x : Op α) (s : SrsBuffer) : Option α × SrsBuffer := StateT.run (OptionT.run x) s

/-- `srs_assert`. -/
def srsAssert (c : SrsBuffer → Bool) : Op Unit := do
  if c (← get) then pure () else failure

/-- `*p++`. -/
def next : Op Byte := do
  let s ← get
  set { s with p := s.p + 1 }
  return s.mem s.p

/-- `*p++ = c`. -/
def put (c : Byte) : Op Unit :=
  modify fun s => { s with p := s.p + 1, mem := Function.update s.mem s.p c }

/-- `pp[k] = *p++`, for one `k` after the other. -/
def fill : List Nat → (Nat → Byte) → Op (Nat → Byte)
  | [], pp => pure pp
  | k :: ks, pp => do
    let c ← next
    fill ks (Function.update pp k c)

/-- `*p++ = pp[k]`, for one `k` after the other. -/
def drain : List Nat → (Nat → Byte) → Op Unit
  | [], _ => pure ()
  | k :: ks, pp => do
    put (pp k)
    drain ks pp

/-- `SrsBuffer::skip`. -/
def skip (size : Int) : Op Unit := do
  srsAssert fun s => s.p ≠ 0
  srsAssert fun s => s.p + size ≥ s.bytes
  srsAssert fun s => s.p + size ≤ s.bytes + s.nbBytes
  modify fun s => { s with p := s.p + size }

/-! ### Integers

An integer of `n` bytes takes `size` bytes of the buffer, which go to the places `order` of it. -/

/-- The readers: the bytes that are not read are `0`. -/
def readInt (size : Int) (order : List Nat) (n : Nat) : Op (BitVec (8 * n)) := do
  srsAssert (require · size)
  let pp ← fill order fun _ => 0
  return ofBytes n pp

/-- The writers. -/
def writeInt {n : Nat} (size : Int) (order : List Nat) (value : BitVec (8 * n)) : Op Unit := do
  srsAssert (require · size)
  drain order (byte value)

def read1bytes : Op (BitVec 8) := readInt 1 [0] 1
def read2bytes : Op (BitVec 16) := readInt 2 [1, 0] 2
def readLe2bytes : Op (BitVec 16) := readInt 2 [0, 1] 2
def read3bytes : Op (BitVec 32) := readInt 3 [2, 1, 0] 4
def readLe3bytes : Op (BitVec 32) := readInt 3 [0, 1, 2] 4
def read4bytes : Op (BitVec 32) := readInt 4 [3, 2, 1, 0] 4
def readLe4bytes : Op (BitVec 32) := readInt 4 [0, 1, 2, 3] 4
def read8bytes : Op (BitVec 64) := readInt 8 [7, 6, 5, 4, 3, 2, 1, 0] 8
def readLe8bytes : Op (BitVec 64) := readInt 8 [0, 1, 2, 3, 4, 5, 6, 7] 8

def write1bytes (value : BitVec 8) : Op Unit := writeInt (n := 1) 1 [0] value
def write2bytes (value : BitVec 16) : Op Unit := writeInt (n := 2) 2 [1, 0] value
def writeLe2bytes (value : BitVec 16) : Op Unit := writeInt (n := 2) 2 [0, 1] value
def write3bytes (value : BitVec 32) : Op Unit := writeInt (n := 4) 3 [2, 1, 0] value
def writeLe3bytes (value : BitVec 32) : Op Unit := writeInt (n := 4) 3 [0, 1, 2] value
def write4bytes (value : BitVec 32) : Op Unit := writeInt (n := 4) 4 [3, 2, 1, 0] value
def writeLe4bytes (value : BitVec 32) : Op Unit := writeInt (n := 4) 4 [0, 1, 2, 3] value
def write8bytes (value : BitVec 64) : Op Unit := writeInt (n := 8) 8 [7, 6, 5, 4, 3, 2, 1, 0] value
def writeLe8bytes (value : BitVec 64) : Op Unit :=
  writeInt (n := 8) 8 [0, 1, 2, 3, 4, 5, 6, 7] value

/-! ### Strings and blocks -/

/-- `SrsBuffer::read_string`. -/
def readString (len : Int) : Op (List Byte) := do
  srsAssert (require · len)
  let s ← get
  set { s with p := s.p + len }
  return load s.mem s.p len.toNat

/-- `SrsBuffer::read_bytes`, which returns what it copies to `data`. -/
def readBytes (size : Int) : Op (List Byte) := do
  srsAssert (require · size)
  let s ← get
  set { s with p := s.p + size }
  return load s.mem s.p size.toNat

/-- `SrsBuffer::write_string`: the check is made on the length as an `int`, the copy is not. -/
def writeString (value : List Byte) : Op Unit := do
  srsAssert (require · (int value.length))
  modify fun s => { s with mem := store s.mem s.p value }
  modify fun s => { s with p := s.p + value.length }

/-- `SrsBuffer::write_bytes`, with `data` the bytes at the address it is given. -/
def writeBytes (data : Nat → Byte) (size : Int) : Op Unit := do
  srsAssert (require · size)
  modify fun s => { s with mem := store s.mem s.p ((List.range size.toNat).map data) }
  modify fun s => { s with p := s.p + size }

/-! ### Running a method -/

section run

variable {α β : Type} {s : SrsBuffer}

@[simp] theorem run_pure (a : α) : run (pure a) s = (some a, s) := rfl

@[simp] theorem run_bind (x : Op α) (f : α → Op β) :
    run (x >>= f) s =
      match run x s with
      | (some a, s') => run (f a) s'
      | (none, s') => (none, s') := by
  rcases hx : run x s with ⟨_ | a, s'⟩
  all_goals
    rw [run] at hx
    rw [run, OptionT.run_bind, Option.elimM, StateT.run_bind, hx]
    rfl

@[simp] theorem run_get : run get s = (some s, s) := rfl

@[simp] theorem run_set (s' : SrsBuffer) : run (set s') s = (some ⟨⟩, s') := rfl

@[simp] theorem run_modify (f : SrsBuffer → SrsBuffer) : run (modify f) s = (some ⟨⟩, f s) := rfl

@[simp] theorem run_srsAssert (c : SrsBuffer → Bool) :
    run (srsAssert c) s = if c s then (some (), s) else (none, s) := by
  show run (if c s then pure () else failure) s = _
  split <;> rfl

theorem run_srsAssert_bind (c : SrsBuffer → Bool) (f : Unit → Op β) :
    run (srsAssert c >>= f) s = if c s then run (f ()) s else (none, s) := by
  rw [run_bind, run_srsAssert]
  by_cases h : c s = true
  · simp only [if_pos h]
  · simp only [if_neg h]

/-- The buffer `n` bytes on. -/
def advance (s : SrsBuffer) (n : Int) : SrsBuffer := { s with p := s.p + n }

/-- The buffer with `bs` written to it. -/
def write (s : SrsBuffer) (bs : List Byte) : SrsBuffer :=
  { s with p := s.p + bs.length, mem := store s.mem s.p bs }

theorem run_fill (ks : List Nat) (pp : Nat → Byte) :
    run (fill ks pp) s = (some (assign ks pp (load s.mem s.p ks.length)), s.advance ks.length) := by
  induction ks generalizing pp s with
  | nil => simp [fill, assign, advance]
  | cons k ks ih =>
      simp only [fill, next, run_bind, run_get, run_set, run_pure, ih, List.length_cons, load_succ,
        assign, advance, Int.natCast_succ, Int.add_assoc, Int.add_comm 1]

theorem run_drain (ks : List Nat) (pp : Nat → Byte) :
    run (drain ks pp) s = (some (), s.write (ks.map pp)) := by
  induction ks generalizing s with
  | nil => simp [drain, write]
  | cons k ks ih =>
      simp only [drain, put, run_bind, run_modify, ih, List.map_cons, write, store,
        List.length_cons, Int.natCast_succ, Int.add_assoc, Int.add_comm 1]

end run

/-! ### The kinds of methods -/

/-- The method checks for `n` bytes, computes `f` of them and moves on. -/
def Reads {α : Type} (x : Op α) (n : Int) (f : List Byte → α) : Prop :=
  ∀ s, run x s =
    if s.require n then (some (f (load s.mem s.p n.toNat)), s.advance n) else (none, s)

/-- The method checks for `n` bytes and writes `bs`. -/
def Writes (x : Op Unit) (n : Int) (bs : List Byte) : Prop :=
  ∀ s, run x s = if s.require n then (some (), s.write bs) else (none, s)

theorem readInt_reads (order : List Nat) (n : Nat) :
    Reads (readInt order.length order n) order.length
      fun bs => ofBytes n (assign order (fun _ => 0) bs) := by
  intro s
  simp only [readInt, run_srsAssert_bind]
  split
  · simp only [run_bind, run_fill, run_pure, Int.toNat_natCast]
  · rfl

theorem writeInt_writes {n : Nat} (order : List Nat) (value : BitVec (8 * n)) :
    Writes (writeInt order.length order value) order.length (order.map (byte value)) := by
  intro s
  simp only [writeInt, run_srsAssert_bind]
  split
  · simp only [run_drain]
  · rfl

theorem readString_reads (len : Int) : Reads (readString len) len id := by
  intro s
  rw [readString, run_srsAssert_bind]
  split <;> rfl

theorem readBytes_reads (size : Int) : Reads (readBytes size) size id := by
  intro s
  rw [readBytes, run_srsAssert_bind]
  split <;> rfl

theorem run_writeString (value : List Byte) (s : SrsBuffer) :
    run (writeString value) s =
      if s.require (int value.length) then (some (), s.write value) else (none, s) := by
  rw [writeString, run_srsAssert_bind]
  split <;> rfl

/-- The length of a string is checked as it is, when it is that of an `int`. -/
theorem writeString_writes {value : List Byte} (h : value.length < 2 ^ 31) :
    Writes (writeString value) value.length value := by
  intro s
  rw [run_writeString, int_natCast h]

theorem writeBytes_writes (data : Nat → Byte) (size : Int) :
    Writes (writeBytes data size) size ((List.range size.toNat).map data) := by
  intro s
  rw [writeBytes, run_srsAssert_bind]
  split
  · next h =>
      have hpos : 0 ≤ size := (require_eq_true.mp h).1
      simp only [run_bind, run_modify, write, List.length_map, List.length_range,
        Int.toNat_of_nonneg hpos]
  · rfl

/-! ### The integers -/

/-- The types of the integers in a buffer. -/
inductive IntType where
  | b1 | b2 | le2 | b3 | le3 | b4 | le4 | b8 | le8

namespace IntType

/-- The bytes the integer has in the buffer. -/
def size : IntType → Nat
  | b1 => 1
  | b2 | le2 => 2
  | b3 | le3 => 3
  | b4 | le4 => 4
  | b8 | le8 => 8

/-- The bytes of the type the methods give it. -/
def width : IntType → Nat
  | b1 => 1
  | b2 | le2 => 2
  | b3 | le3 | b4 | le4 => 4
  | b8 | le8 => 8

def read : (f : IntType) → Op (BitVec (8 * f.width))
  | b1 => read1bytes
  | b2 => read2bytes
  | le2 => readLe2bytes
  | b3 => read3bytes
  | le3 => readLe3bytes
  | b4 => read4bytes
  | le4 => readLe4bytes
  | b8 => read8bytes
  | le8 => readLe8bytes

def write : (f : IntType) → BitVec (8 * f.width) → Op Unit
  | b1 => write1bytes
  | b2 => write2bytes
  | le2 => writeLe2bytes
  | b3 => write3bytes
  | le3 => writeLe3bytes
  | b4 => write4bytes
  | le4 => writeLe4bytes
  | b8 => write8bytes
  | le8 => writeLe8bytes

/-- The most significant byte comes first. -/
def bigEndian : IntType → Bool
  | b1 | b2 | b3 | b4 | b8 => true
  | le2 | le3 | le4 | le8 => false

/-- The places of the bytes of the integer, in the order of the buffer. -/
def order (f : IntType) : List Nat :=
  if f.bigEndian then (List.range f.size).reverse else List.range f.size

@[simp] theorem length_order (f : IntType) : f.order.length = f.size := by
  unfold order
  split <;> simp

@[simp] theorem mem_order {f : IntType} {i : Nat} : i ∈ f.order ↔ i < f.size := by
  unfold order
  split <;> simp

theorem nodup_order (f : IntType) : f.order.Nodup := by
  unfold order
  split
  · exact List.nodup_reverse.mpr List.nodup_range
  · exact List.nodup_range

/-- The integer of its bytes in the buffer. -/
def decode (f : IntType) (bs : List Byte) : BitVec (8 * f.width) :=
  ofBytes f.width (assign f.order (fun _ => 0) bs)

/-- The bytes of the integer in the buffer. -/
def encode (f : IntType) (value : BitVec (8 * f.width)) : List Byte := f.order.map (byte value)

theorem read_reads (f : IntType) : Reads f.read f.size f.decode := by
  have h := readInt_reads f.order f.width
  rw [length_order] at h
  cases f <;> exact h

theorem write_writes (f : IntType) (value : BitVec (8 * f.width)) :
    Writes (f.write value) f.size (f.encode value) := by
  have h := writeInt_writes f.order value
  rw [length_order] at h
  cases f <;> exact h

end IntType

end SrsBuffer

end StCoroutine.Kernel
