import Mathlib.Algebra.Ring.Nat
import StCoroutine.Kernel.Bounds

/-!
# Kernel — what a buffer writes is what it reads

A schema is a list of typed fields: integers of every width in both byte orders, strings and
blocks of a fixed length.  `schema_round_trip`: where a schema fits into what is left of a buffer,
writing values, going back and reading the schema returns the values, and reading the schema, going
back and writing what was read leaves every byte as it was.
-/

set_option autoImplicit false

namespace StCoroutine.Kernel.SrsBuffer
open Bytes

/-! ### Integers -/

namespace IntType

variable {f : IntType}

theorem size_le_width (f : IntType) : f.size ≤ f.width := by
  cases f <;> decide

/-- Integers of three bytes are not negative, and have three bytes. -/
def Fits (f : IntType) (value : BitVec (8 * f.width)) : Prop := f.size = 3 → value.toNat < 2 ^ 24

theorem Fits.lt {value : BitVec (8 * f.width)} (h : f.Fits value) :
    value.toNat < 2 ^ (8 * f.size) := by
  have hlt := value.isLt
  cases f
  case b3 | le3 => exact h rfl
  all_goals exact hlt

theorem decode_encode {value : BitVec (8 * f.width)} (h : f.Fits value) :
    f.decode (f.encode value) = value := by
  have hbyte : ∀ i < f.width, assign f.order (fun _ => 0) (f.encode value) i = byte value i := by
    intro i _
    by_cases hi : i < f.size
    · exact assign_map _ (mem_order.mpr hi)
    · rw [assign_of_not_mem fun hm => hi (mem_order.mp hm), byte_eq_zero h.lt (not_lt.mp hi)]
      rfl
  rw [decode, ofBytes_congr hbyte, ofBytes_byte]

theorem encode_decode {bs : List Byte} (h : bs.length = f.size) : f.encode (f.decode bs) = bs := by
  have hbyte : f.encode (f.decode bs) = f.order.map (assign f.order (fun _ => 0) bs) := by
    refine List.map_congr_left fun i hi => byte_ofBytes _ ?_
    exact (mem_order.mp hi).trans_le f.size_le_width
  rw [hbyte, map_assign f.nodup_order (by rw [h, length_order])]

@[simp] theorem length_encode (value : BitVec (8 * f.width)) :
    (f.encode value).length = f.size := by
  simp [encode]

end IntType

/-! ### Fields -/

/-- The type of a field. -/
inductive Field where
  | int (f : IntType)
  | string (n : Nat)
  | block (n : Nat)

namespace Field

/-- The values of a field, and more. -/
def Val : Field → Type
  | int f => BitVec (8 * f.width)
  | string _ | block _ => List Byte

/-- The bytes of a field in a buffer. -/
def size : Field → Nat
  | int f => f.size
  | string n | block n => n

/-- The value is one of the field. -/
def Fits : (f : Field) → f.Val → Prop
  | int f, value => f.Fits value
  | string n, value | block n, value => List.length value = n

def read : (f : Field) → Op f.Val
  | int f => f.read
  | string n => readString n
  | block n => readBytes n

def write : (f : Field) → f.Val → Op Unit
  | int f, value => f.write value
  | string _, value => writeString value
  | block n, value => writeBytes (fun i => List.getD value i 0) n

/-- The bytes of a value: an integer with the most significant byte first or last. -/
def encode : (f : Field) → f.Val → List Byte
  | int f, value => f.encode value
  | string _, value | block _, value => value

def decode : (f : Field) → List Byte → f.Val
  | int f, bs => f.decode bs
  | string _, bs | block _, bs => bs

variable {f : Field}

theorem length_encode {v : f.Val} (h : f.Fits v) : (f.encode v).length = f.size := by
  cases f with
  | int f => exact IntType.length_encode v
  | string n | block n => exact h

theorem decode_encode {v : f.Val} (h : f.Fits v) : f.decode (f.encode v) = v := by
  cases f with
  | int f => exact IntType.decode_encode h
  | string n | block n => rfl

theorem encode_decode {bs : List Byte} (h : bs.length = f.size) : f.encode (f.decode bs) = bs := by
  cases f with
  | int f => exact IntType.encode_decode h
  | string n | block n => rfl

theorem read_reads (f : Field) : Reads f.read f.size f.decode := by
  cases f with
  | int f => exact f.read_reads
  | string n => exact readString_reads n
  | block n => exact readBytes_reads n

/-- A block that is written whole. -/
theorem writeBytes_list {l : List Byte} {n : Nat} (h : l.length = n) :
    Writes (writeBytes (l.getD · 0) n) n l := by
  subst h
  have hl : (List.range l.length).map (l.getD · 0) = l := by
    refine List.ext_getElem (by simp) fun i h₁ h₂ => ?_
    simp [List.getElem?_eq_getElem h₂]
  have hw := writeBytes_writes (l.getD · 0) l.length
  rwa [Int.toNat_natCast, hl] at hw

theorem write_writes {v : f.Val} (h : (f.encode v).length = f.size) (hn : f.size < 2 ^ 31) :
    Writes (f.write v) f.size (f.encode v) := by
  cases f with
  | int f => exact f.write_writes v
  | string n =>
      rw [← h] at hn ⊢
      exact writeString_writes hn
  | block n =>
      exact writeBytes_list h

end Field

/-! ### Schemas -/

/-- The bytes of a schema. -/
def total (fs : List Field) : Nat := (fs.map Field.size).sum

/-- Values, with the fields they are for. -/
abbrev Record := List ((f : Field) × f.Val)

namespace Record

/-- The schema of some values. -/
def schema (vs : Record) : List Field := vs.map Sigma.fst

/-- The values are those of their fields. -/
def Fits (vs : Record) : Prop := ∀ v ∈ vs, v.1.Fits v.2

def encode (vs : Record) : List Byte := vs.flatMap fun v => v.1.encode v.2

def decode : List Field → List Byte → Record
  | [], _ => []
  | f :: fs, bs => ⟨f, f.decode (bs.take f.size)⟩ :: decode fs (bs.drop f.size)

/-- The fields one after the other. -/
def read : List Field → Op Record
  | [] => pure []
  | f :: fs => do
    let v ← f.read
    let vs ← read fs
    return ⟨f, v⟩ :: vs

def write : Record → Op Unit
  | [] => pure ()
  | v :: vs => do
    v.1.write v.2
    write vs

@[simp] theorem total_nil : total [] = 0 := rfl

@[simp] theorem total_cons (f : Field) (fs : List Field) : total (f :: fs) = f.size + total fs := by
  simp [total]

@[simp] theorem encode_cons (v : (f : Field) × f.Val) (vs : Record) :
    encode (v :: vs) = v.1.encode v.2 ++ encode vs := rfl

theorem length_encode {vs : Record} (h : vs.Fits) : vs.encode.length = total vs.schema := by
  induction vs with
  | nil => rfl
  | cons v vs ih =>
      obtain ⟨hv, hvs⟩ := List.forall_mem_cons.mp h
      rw [encode_cons, List.length_append, Field.length_encode hv, ih hvs]
      exact (total_cons _ _).symm

theorem decode_encode {vs : Record} (h : vs.Fits) : decode vs.schema vs.encode = vs := by
  induction vs with
  | nil => rfl
  | cons v vs ih =>
      obtain ⟨hv, hvs⟩ := List.forall_mem_cons.mp h
      have hl := Field.length_encode hv
      show decode (v.1 :: schema vs) (v.1.encode v.2 ++ encode vs) = v :: vs
      rw [decode, ← hl, List.take_left, List.drop_left, Field.decode_encode hv, ih hvs]

theorem encode_decode (fs : List Field) {bs : List Byte} (h : bs.length = total fs) :
    encode (decode fs bs) = bs := by
  induction fs generalizing bs with
  | nil => exact (List.length_eq_zero_iff.mp h).symm
  | cons f fs ih =>
      rw [total_cons] at h
      show f.encode (f.decode (bs.take f.size)) ++ encode (decode fs (bs.drop f.size)) = bs
      rw [Field.encode_decode (by rw [List.length_take]; omega),
        ih (by rw [List.length_drop]; omega), List.take_append_drop]

theorem schema_decode (fs : List Field) (bs : List Byte) : (decode fs bs).schema = fs := by
  induction fs generalizing bs with
  | nil => rfl
  | cons f fs ih => exact congrArg (f :: ·) (ih _)

theorem length_encode_decode (fs : List Field) {bs : List Byte} (h : bs.length = total fs) :
    ∀ v ∈ decode fs bs, (v.1.encode v.2).length = v.1.size := by
  induction fs generalizing bs with
  | nil => exact fun v hv => absurd hv List.not_mem_nil
  | cons f fs ih =>
      rw [total_cons] at h
      have hl : (bs.take f.size).length = f.size := by rw [List.length_take]; omega
      refine List.forall_mem_cons.mpr ⟨?_, ih (by rw [List.length_drop]; omega)⟩
      exact (congrArg List.length (Field.encode_decode hl)).trans hl

end Record

/-- The buffer after `n` of the bytes left. -/
theorem Valid.further {s : SrsBuffer} (h : s.Valid) {n : Nat} (hn : n ≤ s.left) (mem : Mem) :
    Valid { s with p := s.p + n, mem := mem } ∧
      left { s with p := s.p + n, mem := mem } = s.left - n := by
  have hlower := h.lower
  rw [h.left_eq] at hn
  have h' : Valid { s with p := s.p + n, mem := mem } := h.move (by omega) (by omega)
  refine ⟨h', ?_⟩
  rw [h'.left_eq, h.left_eq]
  dsimp only
  omega

namespace Record

/-- **Reading a schema** that fits into the bytes left. -/
theorem run_read (fs : List Field) {s : SrsBuffer} (h : s.Valid) (hk : total fs ≤ s.left) :
    run (read fs) s = (some (decode fs (load s.mem s.p (total fs))), s.advance (total fs)) := by
  induction fs generalizing s with
  | nil => simp [read, decode, advance]
  | cons f fs ih =>
      rw [total_cons] at hk ⊢
      have hr : s.require f.size = true := h.require_iff.mpr ⟨by omega, by omega⟩
      obtain ⟨h', hl⟩ := h.further (n := f.size) (by omega) s.mem
      have hrest := ih (s := s.advance f.size) h' (by rw [advance, hl]; omega)
      simp only [read, run_bind, f.read_reads s, hr, if_true, hrest, run_pure]
      have hlen : (load s.mem s.p f.size).length = f.size := length_load
      rw [decode, load_add, List.take_left' hlen, List.drop_left' hlen, Int.toNat_natCast]
      simp only [advance, Int.add_assoc, Int.natCast_add]

/-- **Writing values** that fit into the bytes left. -/
theorem run_write {vs : Record} {s : SrsBuffer} (h : s.Valid)
    (hlen : ∀ v ∈ vs, (v.1.encode v.2).length = v.1.size) (hk : total vs.schema ≤ s.left) :
    run (write vs) s = (some (), SrsBuffer.write s vs.encode) := by
  induction vs generalizing s with
  | nil => simp [write, encode, SrsBuffer.write]
  | cons v vs ih =>
      obtain ⟨hv, hvs⟩ := List.forall_mem_cons.mp hlen
      rw [show schema (v :: vs) = v.1 :: schema vs from rfl, total_cons] at hk
      have hr : s.require v.1.size = true := h.require_iff.mpr ⟨by omega, by omega⟩
      obtain ⟨h', hl⟩ := h.further (n := v.1.size) (by omega) (store s.mem s.p (v.1.encode v.2))
      rw [← hv] at h' hl
      -- the size of the value is an `int`, as it is no more than what is left
      have hsize : v.1.size < 2 ^ 31 := by
        have h₁ := h.size_lt
        have h₂ := h.lower
        have h₃ := h.left_eq
        omega
      have hrest := ih (s := SrsBuffer.write s (v.1.encode v.2)) h' hvs (by
        rw [SrsBuffer.write, hl]; omega)
      simp only [write, run_bind, Field.write_writes hv hsize s, hr, if_true, hrest]
      rw [encode_cons, SrsBuffer.write, SrsBuffer.write, SrsBuffer.write, store_append]
      simp only [List.length_append, Int.natCast_add, Int.add_assoc]

end Record

/-- Back over what was read or written. -/
theorem run_skip_back {s : SrsBuffer} (h : s.Valid) (hb : s.bytes ≠ 0) (mem : Mem) (n : Nat) :
    run (skip (-n)) { s with p := s.p + n, mem := mem } = (some (), { s with mem := mem }) := by
  have h₁ := h.bytes_nonneg
  have h₂ := h.lower
  have h₃ := h.upper
  rw [run_skip, if_pos]
  · simp only [advance, Int.add_neg_cancel_right]
  · refine ⟨?_, ?_, ?_⟩ <;> dsimp only <;> omega

/-- **What a buffer writes is what it reads.**  For every schema that fits into the bytes left of a
buffer that is not over `NULL`: values that are written and read back are the same, with their
bytes in the order of their types, the position is behind them and no other byte has changed;
and values that are read and written back leave every byte as it was.  A buffer over `NULL` is
excluded by `skip`, which goes back and asserts that its data is not `NULL`. -/
theorem schema_round_trip {s : SrsBuffer} (h : s.Valid) (hb : s.bytes ≠ 0) {fs : List Field}
    (hk : total fs ≤ s.left) :
    (∀ vs : Record, vs.schema = fs → vs.Fits → ∃ s',
      run (do vs.write; skip (-total fs); Record.read fs) s = (some vs, s') ∧
        s'.pos = s.pos + total fs ∧ load s'.mem s.p (total fs) = vs.encode ∧
        ∀ a, a < s.p ∨ s.p + total fs ≤ a → s'.mem a = s.mem a) ∧
    ∃ s', run (do let vs ← Record.read fs; skip (-total fs); vs.write) s = (some (), s') ∧
      s'.pos = s.pos + total fs ∧ s'.mem = s.mem := by
  constructor
  · rintro vs rfl hfits
    have hlen := Record.length_encode hfits
    have hw := Record.run_write h (fun v hv => Field.length_encode (hfits v hv)) hk
    rw [write, hlen] at hw
    have hm : Valid { s with mem := store s.mem s.p vs.encode } := h.move h.lower h.upper
    obtain ⟨h', -⟩ := h.further hk (store s.mem s.p vs.encode)
    refine ⟨{ s with p := s.p + total vs.schema, mem := store s.mem s.p vs.encode }, ?_, ?_, ?_, ?_⟩
    · rw [run_bind, hw]
      dsimp only
      rw [run_bind, run_skip_back h hb]
      dsimp only
      rw [Record.run_read _ hm hk]
      have hload : load (store s.mem s.p vs.encode) s.p (total vs.schema) = vs.encode := by
        rw [← hlen, load_store]
      dsimp only
      rw [hload, Record.decode_encode hfits]
      rfl
    · rw [h'.pos_eq, h.pos_eq]
      dsimp only
      omega
    · rw [← hlen]
      exact load_store
    · intro a ha
      rw [← hlen] at ha
      exact store_of_outside ha
  · have hlen : (load s.mem s.p (total fs)).length = total fs := length_load
    have henc := Record.encode_decode fs hlen
    obtain ⟨h', -⟩ := h.further hk s.mem
    refine ⟨s.advance (total fs), ?_, ?_, rfl⟩
    · rw [run_bind, Record.run_read fs h hk]
      dsimp only
      rw [advance, run_bind, run_skip_back h hb]
      dsimp only
      -- what is stored is what was loaded from there
      have hw := Record.run_write h (Record.length_encode_decode fs hlen)
        (by rw [Record.schema_decode]; exact hk)
      rw [write, henc, hlen, store_load] at hw
      exact hw
    · rw [advance, h'.pos_eq, h.pos_eq]
      dsimp only
      omega

/-- A big-endian integer, a string and a little-endian integer of three bytes, in eight bytes. -/
theorem schema_round_trip_three :
    ∃ s', run (do
        Record.write [⟨.int .b2, (0x1234 : BitVec 16)⟩, ⟨.string 1, [7]⟩, ⟨.int .le3, 0xabcdef#32⟩]
        skip (-6)
        Record.read [.int .b2, .string 1, .int .le3]) (new (5 : Nat) 8 fun _ => 0) =
          (some [⟨.int .b2, (0x1234 : BitVec 16)⟩, ⟨.string 1, [7]⟩,
            ⟨.int .le3, 0xabcdef#32⟩], s') ∧
      load s'.mem 5 6 = [0x12, 0x34, 7, 0xef, 0xcd, 0xab] := by
  have h : Valid (new (5 : Nat) 8 fun _ => 0) :=
    ⟨by decide, by decide, by decide, by decide, by decide⟩
  have hk : total [.int .b2, .string 1, .int .le3] ≤ left (new (5 : Nat) 8 fun _ => 0) := by decide
  obtain ⟨s', hrun, -, hload, -⟩ := (schema_round_trip h (by decide) hk).1
      [⟨.int .b2, (0x1234 : BitVec 16)⟩, ⟨.string 1, [7]⟩, ⟨.int .le3, 0xabcdef#32⟩] rfl (by
        simp [Record.Fits, Field.Fits, IntType.Fits, IntType.size])
  exact ⟨s', hrun, hload⟩

end StCoroutine.Kernel.SrsBuffer
