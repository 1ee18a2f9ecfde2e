import StCoroutine.Kernel.Bounds

/-!
# Kernel — the bit buffer

`SrsBitBuffer` of `srs_kernel_buffer.cpp`.  It has the byte it is reading, how many bits of that are
left, and the buffer that the next byte is from.  A failed `srs_assert` is `none`.

The bits to come are those that are `left` of the byte and then those of the buffer: reading takes
the first of them away (`readBit_spec`), whatever the sign of the byte is.

* `bits_spec`: from any buffer, all bits of all bytes are read, and a byte is taken from the buffer
  with its first bit.
-/

set_option autoImplicit false

namespace StCoroutine.Kernel

open Bytes Lts

/-- A bit buffer. -/
structure SrsBitBuffer where
  cb : BitVec 8
  cbLeft : Nat
  stream : SrsBuffer

namespace SrsBitBuffer

/-- `SrsBitBuffer::SrsBitBuffer`. -/
def new (b : SrsBuffer) : SrsBitBuffer := ⟨0, 0, b⟩

/-- `SrsBitBuffer::empty`. -/
def empty (s : SrsBitBuffer) : Bool := if s.cbLeft ≠ 0 then false else s.stream.empty

/-- The next byte. -/
def refill (s : SrsBitBuffer) : Option SrsBitBuffer :=
  if s.stream.empty then none
  else
    match SrsBuffer.run SrsBuffer.read1bytes s.stream with
    | (some cb, stream) => some ⟨cb, 8, stream⟩
    | (none, _) => none

/-- `SrsBitBuffer::read_bit`: the shift is one of an `int`. -/
def readBit (s : SrsBitBuffer) : Option (BitVec 8 × SrsBitBuffer) := do
  let s ← if s.cbLeft = 0 then s.refill else some s
  let v := ((s.cb.signExtend 32).sshiftRight (s.cbLeft - 1) &&& 0x01#32).setWidth 8
  return (v, { s with cbLeft := s.cbLeft - 1 })

/-- `m` bits, one after the other. -/
def readBits : Nat → SrsBitBuffer → Option (List (BitVec 8) × SrsBitBuffer)
  | 0, s => some ([], s)
  | m + 1, s => do
    let (v, s) ← s.readBit
    let (vs, s) ← readBits m s
    return (v :: vs, s)

/-- The bits that are read while the buffer is not empty. -/
def readWhile : Nat → SrsBitBuffer → Option (List (BitVec 8) × SrsBitBuffer)
  | 0, _ => none
  | fuel + 1, s =>
    if s.empty then some ([], s)
    else do
      let (v, s) ← s.readBit
      let (vs, s) ← readWhile fuel s
      return (v :: vs, s)

/-! ### The bits to come -/

/-- The `n` least significant bits of a byte, the most significant of them first. -/
def lowBits (b : Byte) : Nat → List (BitVec 8)
  | 0 => []
  | n + 1 => (if b.getLsbD n then 1 else 0) :: lowBits b n

@[simp] theorem length_lowBits (b : Byte) (n : Nat) : (lowBits b n).length = n := by
  induction n with
  | zero => rfl
  | succ n ih => rw [lowBits, List.length_cons, ih]

/-- The bits of some bytes. -/
def bits (bs : List Byte) : List (BitVec 8) := bs.flatMap (lowBits · 8)

theorem length_bits (bs : List Byte) : (bits bs).length = 8 * bs.length := by
  induction bs with
  | nil => rfl
  | cons b bs ih =>
      rw [bits] at ih
      rw [bits, List.flatMap_cons, List.length_append, length_lowBits, ih, List.length_cons]
      omega

/-- The bytes that are left in a buffer. -/
def rest (s : SrsBuffer) : List Byte := load s.mem s.p s.left.toNat

/-- The bits that have not been read. -/
def pending (s : SrsBitBuffer) : List (BitVec 8) := lowBits s.cb s.cbLeft ++ bits (rest s.stream)

/-- The sign of a byte makes no difference to its bits. -/
theorem shift_and_one (cb : Byte) {n : Nat} (hn : n < 8) :
    ((cb.signExtend 32).sshiftRight n &&& 0x01#32).setWidth 8 =
      if cb.getLsbD n then 1#8 else 0#8 := by
  have hbit : ((cb.signExtend 32).sshiftRight n).getLsbD 0 = cb.getLsbD n := by
    have hn32 : n < 32 := by omega
    rw [BitVec.getLsbD_sshiftRight, Nat.add_zero, if_pos hn32, BitVec.getLsbD_signExtend, if_pos hn]
    simp [hn32]
  rw [BitVec.and_one_eq_setWidth_ofBool_getLsbD, hbit]
  cases cb.getLsbD n <;> rfl

section read

variable {s : SrsBitBuffer}

theorem rest_advance {b : SrsBuffer} (h : b.Valid) (hleft : b.left ≠ 0) :
    (b.advance 1).Valid ∧ rest b = b.mem b.p :: rest (b.advance 1) := by
  have hl := h.left_eq
  have hlower := h.lower
  have hupper := h.upper
  have hvalid : (b.advance 1).Valid := @SrsBuffer.Valid.move b h _ b.mem (by omega) (by omega)
  refine ⟨hvalid, ?_⟩
  have hsucc : b.left.toNat = (b.advance 1).left.toNat + 1 := by
    rw [hvalid.left_eq, hl]
    dsimp only [SrsBuffer.advance]
    omega
  rw [rest, hsucc, load_succ]
  rfl

theorem decode_b1 (x : Byte) : SrsBuffer.IntType.decode .b1 [x] = x := by
  have hbyte := byte_ofBytes (n := 1) (assign [0] (fun _ => 0) [x]) Nat.zero_lt_one
  rwa [byte, Nat.mul_zero, BitVec.extractLsb'_eq_self] at hbyte

theorem run_read1bytes {b : SrsBuffer} (h : b.Valid) (hleft : b.left ≠ 0) :
    SrsBuffer.run SrsBuffer.read1bytes b = (some (b.mem b.p), b.advance 1) := by
  have hl := h.left_eq
  have hupper := h.upper
  have hread : SrsBuffer.Reads SrsBuffer.read1bytes 1 _ := SrsBuffer.IntType.read_reads .b1
  rw [hread, if_pos (h.require_iff.mpr ⟨by decide, by omega⟩)]
  rw [Int.toNat_one, load_succ, load_zero, decode_b1]

/-- Between two reads: a byte whose bits are all there has not been taken yet. -/
structure Ready (s : SrsBitBuffer) : Prop where
  stream : s.stream.Valid
  cbLeft_lt : s.cbLeft < 8

theorem ready_new {b : SrsBuffer} (h : b.Valid) : (new b).Ready := ⟨h, Nat.succ_pos 7⟩

/-- The bit buffer is empty when there are no bits to come. -/
theorem empty_iff (h : s.Ready) : s.empty = true ↔ s.pending = [] := by
  have hleft : s.stream.left.toNat = 0 ↔ s.stream.left = 0 := by
    have hl := h.stream.left_eq
    have hupper := h.stream.upper
    omega
  rw [empty, pending, List.append_eq_nil_iff, ← List.length_eq_zero_iff, length_lowBits,
    ← List.length_eq_zero_iff, length_bits, rest, length_load]
  split
  · next hne => exact iff_of_false Bool.false_ne_true fun hnil => hne hnil.1
  · next hz =>
      rw [h.stream.empty_iff, ← hleft]
      omega

/-- **One bit** is the first of those to come. -/
theorem readBit_spec (h : s.Ready) {v : BitVec 8} {vs : List (BitVec 8)}
    (hp : s.pending = v :: vs) : ∃ s', s.readBit = some (v, s') ∧ s'.pending = vs ∧ s'.Ready ∧
      ∃ n, s'.stream = s.stream.advance n := by
  -- with bits of the byte left, the stream is as it was
  have hbit : ∀ (cb : Byte) (n : Nat) (stream : SrsBuffer), n < 8 →
      lowBits cb (n + 1) ++ bits (rest stream) = v :: vs →
      ((cb.signExtend 32).sshiftRight (n + 1 - 1) &&& 0x01#32).setWidth 8 = v ∧
        (⟨cb, n, stream⟩ : SrsBitBuffer).pending = vs := by
    intro cb n stream hn hvs
    rw [lowBits, List.cons_append] at hvs
    obtain ⟨hv, hvs⟩ := List.cons.inj hvs
    exact ⟨(shift_and_one cb hn).trans hv, hvs⟩
  obtain ⟨cb, cbLeft, stream⟩ := s
  cases cbLeft with
  | zero =>
      have hne : stream.left ≠ 0 := by
        intro hz
        rw [pending, lowBits, rest, hz] at hp
        cases hp
      obtain ⟨hvalid, hrest⟩ := rest_advance h.stream hne
      have hfull : stream.empty = false := by
        rw [← Bool.not_eq_true, h.stream.empty_iff]
        exact hne
      have hpend : lowBits (stream.mem stream.p) 8 ++ bits (rest (stream.advance 1)) = v :: vs := by
        rw [← hp, pending, hrest]
        rfl
      obtain ⟨hv, hvs⟩ := hbit _ 7 _ (Nat.lt_succ_self 7) hpend
      refine ⟨⟨stream.mem stream.p, 7, stream.advance 1⟩, ?_, hvs, ⟨hvalid, Nat.lt_succ_self 7⟩, 1,
        rfl⟩
      rw [readBit, if_pos rfl, refill, if_neg (Bool.not_eq_true _ ▸ hfull),
        run_read1bytes h.stream hne]
      exact congrArg (fun v => some (v, _)) hv
  | succ n =>
      obtain ⟨hv, hvs⟩ := hbit cb n stream (Nat.lt_of_succ_lt h.cbLeft_lt) hp
      refine ⟨⟨cb, n, stream⟩, ?_, hvs, ⟨h.stream, Nat.lt_of_succ_lt h.cbLeft_lt⟩, 0, ?_⟩
      · rw [readBit, if_neg (Nat.succ_ne_zero n)]
        exact congrArg (fun v => some (v, _)) hv
      · show stream = stream.advance 0
        rw [SrsBuffer.advance, Int.add_zero]

/-- **Any number of bits** are the first of those to come. -/
theorem readBits_spec (h : s.Ready) {m : Nat} (hm : m ≤ s.pending.length) :
    ∃ s', readBits m s = some (s.pending.take m, s') ∧ s'.pending = s.pending.drop m ∧ s'.Ready ∧
      ∃ n, s'.stream = s.stream.advance n := by
  induction m generalizing s with
  | zero =>
      refine ⟨s, rfl, rfl, h, 0, ?_⟩
      rw [SrsBuffer.advance, Int.add_zero]
  | succ m ih =>
      obtain ⟨v, vs, hp⟩ := List.exists_cons_of_length_pos (Nat.lt_of_lt_of_le (Nat.succ_pos m) hm)
      obtain ⟨s₁, hread, hp₁, h₁, n₁, hs₁⟩ := readBit_spec h hp
      rw [hp, List.length_cons, Nat.succ_le_succ_iff, ← hp₁] at hm
      obtain ⟨s₂, hreads, hp₂, h₂, n₂, hs₂⟩ := ih h₁ hm
      refine ⟨s₂, ?_, ?_, h₂, n₁ + n₂, ?_⟩
      · rw [readBits, hread, Option.bind_eq_bind, Option.bind_some]
        dsimp only
        rw [hreads, hp, hp₁]
        rfl
      · rw [hp₂, hp₁, hp, List.drop_succ_cons]
      · rw [hs₂, hs₁, SrsBuffer.advance, SrsBuffer.advance, SrsBuffer.advance, Int.add_assoc]

/-- **All bits** are read while the buffer is not empty. -/
theorem readWhile_spec (h : s.Ready) {fuel : Nat} (hfuel : s.pending.length < fuel) :
    ∃ s', readWhile fuel s = some (s.pending, s') ∧ s'.empty = true := by
  induction fuel generalizing s with
  | zero => exact absurd hfuel (Nat.not_lt_zero _)
  | succ fuel ih =>
      rw [readWhile]
      cases hp : s.pending with
      | nil =>
          have hempty : s.empty = true := (empty_iff h).mpr hp
          exact ⟨s, if_pos hempty, hempty⟩
      | cons v vs =>
          have hempty : ¬ s.empty = true := by
            rw [empty_iff h, hp]
            exact List.cons_ne_nil v vs
          obtain ⟨s₁, hread, hp₁, h₁, -⟩ := readBit_spec h hp
          rw [hp, List.length_cons, Nat.succ_lt_succ_iff, ← hp₁] at hfuel
          obtain ⟨s', hwhile, hend⟩ := ih h₁ hfuel
          refine ⟨s', ?_, hend⟩
          rw [if_neg hempty, hread, Option.bind_eq_bind, Option.bind_some]
          dsimp only
          rw [hwhile, hp₁]
          rfl

end read

/-- What is left of a bit buffer over `b` after `m` bits of it. -/
theorem consumed {b : SrsBuffer} (hb : b.Valid) {s : SrsBitBuffer} (h : s.Ready) {n : Int}
    (hs : s.stream = b.advance n) {m : Nat} (hm : m ≤ 8 * b.left.toNat)
    (hp : s.pending.length = 8 * b.left.toNat - m) :
    s.stream.pos = b.pos + ((m + 7) / 8 : Nat) ∧ (s.empty = true ↔ m = 8 * b.left.toNat) := by
  have hlt := h.cbLeft_lt
  have hlen : s.cbLeft + 8 * s.stream.left.toNat = 8 * b.left.toNat - m := by
    rw [← hp, pending, List.length_append, length_lowBits, length_bits, rest, length_load]
  constructor
  · have hl := hb.left_eq
    have hl' := h.stream.left_eq
    have hu := hb.upper
    have hu' := h.stream.upper
    rw [h.stream.pos_eq, hb.pos_eq]
    rw [hs] at hl' hu' hlen ⊢
    dsimp only [SrsBuffer.advance] at hl' hu' hlen ⊢
    omega
  · rw [empty_iff h, ← List.length_eq_zero_iff, hp]
    omega

/-- **Every bit of every buffer.**  From the construction of a buffer on, whatever the calls: while
it is not empty, a bit buffer reads the bits of the bytes that are left, the most significant bit of
each first, and `m` bits of them take as many bytes from the buffer as they are in. -/
theorem bits_spec {b : Nat} {nn : Int} {mem : Mem} {cs : List SrsBuffer.Call} {s : SrsBuffer}
    (hnn : 0 ≤ nn) (hint : nn < 2 ^ 31) (hb : b = 0 → nn = 0) (hcs : ∀ c ∈ cs, c.Short)
    (h : exec SrsBuffer.step (SrsBuffer.new b nn mem) cs = some s) :
    (∀ fuel, 8 * s.left.toNat < fuel → ∃ t,
      readWhile fuel (new s) = some (bits (rest s), t) ∧ t.empty = true) ∧
      ∀ m ≤ 8 * s.left.toNat, ∃ t, readBits m (new s) = some ((bits (rest s)).take m, t) ∧
        t.stream.pos = s.pos + ((m + 7) / 8 : Nat) ∧
          (t.empty = true ↔ m = 8 * s.left.toNat) := by
  have hv := SrsBuffer.valid_of_exec hnn hint hb hcs h
  have hpend : (new s).pending = bits (rest s) := rfl
  have hlen : (bits (rest s)).length = 8 * s.left.toNat := by
    rw [length_bits, rest, length_load]
  refine ⟨fun fuel hfuel => ?_, fun m hm => ?_⟩
  · rw [← hpend]
    exact readWhile_spec (ready_new hv) (by rwa [hpend, hlen])
  · have hle : m ≤ (new s).pending.length := by rwa [hpend, hlen]
    obtain ⟨t, hread, hp, ht, n, hs⟩ := readBits_spec (ready_new hv) hle
    rw [hpend] at hread hp
    refine ⟨t, hread, consumed hv ht hs hm ?_⟩
    rw [hp, List.length_drop, hlen]

/-- The bits of `80 01`, and ten of them. -/
theorem bits_spec_two :
    (∃ t, readWhile 17 (new (SrsBuffer.new (7 : Nat) 2 fun i => if i = 7 then 0x80 else 1)) =
        some ([1, 0, 0, 0, 0, 0, 0, 0, 0, 0, 0, 0, 0, 0, 0, 1], t) ∧ t.empty = true) ∧
      ∃ t, readBits 10 (new (SrsBuffer.new (7 : Nat) 2 fun i => if i = 7 then 0x80 else 1)) =
          some ([1, 0, 0, 0, 0, 0, 0, 0, 0, 0], t) ∧ t.stream.pos = 2 ∧ t.empty = false := by
  have h := @bits_spec 7 2 (fun i => if i = 7 then 0x80 else 1) [] _ (by decide) (by decide)
    (by decide) (by simp) rfl
  obtain ⟨t, hread, hpos, hempty⟩ := h.2 10 (by decide)
  refine ⟨h.1 17 (by decide), t, hread, hpos, Bool.eq_false_iff.mpr fun he => ?_⟩
  exact absurd (hempty.mp he) (by decide)

end SrsBitBuffer

end StCoroutine.Kernel
