import StCoroutine.Kernel.Buffer

/-!
# Kernel — the methods of a buffer stay inside it

`calls_spec`: from its construction on, whatever methods are called with whatever arguments, a
method of a buffer fails an assertion and leaves everything as it was, or moves the position as
it was asked to, inside the buffer, and touches the bytes it moves over and no others.
-/

set_option autoImplicit false

namespace StCoroutine.Kernel.SrsBuffer
open Bytes Lts

/-! ### The position -/

/-- The position is inside the buffer, and the size is an `int`; there is nothing behind `NULL`. -/
structure Valid (s : SrsBuffer) : Prop where
  size_lt : s.nbBytes < 2 ^ 31
  bytes_nonneg : 0 ≤ s.bytes
  null : s.bytes = 0 → s.nbBytes = 0
  lower : s.bytes ≤ s.p
  upper : s.p ≤ s.bytes + s.nbBytes

namespace Valid

variable {s : SrsBuffer} (h : s.Valid)
include h

theorem int_eq : int (s.p - s.bytes) = s.p - s.bytes := by
  have h₁ := h.size_lt
  have h₂ := h.lower
  have h₃ := h.upper
  exact int_of_lt (by omega) (by omega)

theorem pos_eq : s.pos = s.p - s.bytes := h.int_eq

theorem left_eq : s.left = s.nbBytes - (s.p - s.bytes) := by rw [left, h.int_eq]

theorem require_iff {n : Int} : s.require n = true ↔ 0 ≤ n ∧ n ≤ s.left := by
  rw [require_eq_true, h.left_eq]

/-- A buffer is empty when it has no bytes left. -/
theorem empty_iff : s.empty = true ↔ s.left = 0 := by
  have hnull := h.null
  have hlower := h.lower
  have hupper := h.upper
  rw [h.left_eq, empty, decide_eq_true_iff]
  constructor
  · rintro (hb | hp)
    · have := hnull hb
      omega
    · omega
  · intro hl
    exact .inr (by omega)

/-- The position is moved inside the buffer. -/
theorem move {p : Int} {mem : Mem} (h₁ : s.bytes ≤ p) (h₂ : p ≤ s.bytes + s.nbBytes) :
    Valid { s with p := p, mem := mem } :=
  ⟨h.size_lt, h.bytes_nonneg, h.null, h₁, h₂⟩

end Valid

/-! ### The calls -/

/-- A call of a method, with its arguments. -/
inductive Call where
  | read (f : IntType)
  | readString (len : Int)
  | readBytes (size : Int)
  | write (f : IntType) (value : BitVec (8 * f.width))
  | writeString (value : List Byte)
  | writeBytes (data : Nat → Byte) (size : Int)
  | skip (size : Int)

namespace Call

/-- What the method returns. -/
def Ret : Call → Type
  | read f => BitVec (8 * f.width)
  | readString _ | readBytes _ => List Byte
  | write .. | writeString _ | writeBytes .. | skip _ => Unit

def op : (c : Call) → Op c.Ret
  | read f => f.read
  | readString len => SrsBuffer.readString len
  | readBytes size => SrsBuffer.readBytes size
  | write f value => f.write value
  | writeString value => SrsBuffer.writeString value
  | writeBytes data size => SrsBuffer.writeBytes data size
  | skip size => SrsBuffer.skip size

/-- The bytes the call asks for. -/
def amount : Call → Int
  | read f | write f _ => f.size
  | readString len => len
  | readBytes size | writeBytes _ size | skip size => size
  | writeString value => value.length

/-- The length of the string, if it writes one, is an `int`. -/
def Short : Call → Prop
  | writeString value => value.length < 2 ^ 31
  | _ => True

def IsSkip : Call → Prop
  | skip _ => True
  | _ => False

end Call

/-- A call goes through; a failed assertion ends the program. -/
def step (s : SrsBuffer) (c : Call) : Option SrsBuffer :=
  match run c.op s with
  | (some _, s') => some s'
  | (none, _) => none

/-- What a method that asks for `n` bytes does to a buffer. -/
structure Stays {α : Type} (x : Op α) (n : Int) (s : SrsBuffer) : Prop where
  /-- When an assertion fails, nothing has changed. -/
  failed : ∀ s', run x s = (none, s') → s' = s
  /-- Otherwise the position is moved by `n`, inside the buffer. -/
  moved : ∀ r s', run x s = (some r, s') → 0 ≤ s'.pos ∧ s'.pos ≤ s'.size ∧
    s'.pos + s'.left = s'.size ∧ s'.size = s.size ∧ s'.pos = s.pos + n
  /-- Only bytes between the old position and the new one are written. -/
  written : ∀ r s', run x s = (some r, s') → ∀ a, a < s.p ∨ s'.p ≤ a → s'.mem a = s.mem a
  /-- Only bytes between the old position and the new one are read: the others make no difference
  to what is returned and written there. -/
  read : ∀ r s', run x s = (some r, s') → ∀ m : Mem, (∀ a, s.p ≤ a → a < s'.p → m a = s.mem a) →
    ∃ m', run x { s with mem := m } = (some r, { s' with mem := m' }) ∧
      ∀ a, s.p ≤ a → a < s'.p → m' a = s'.mem a

/-- The method goes through. -/
def Succeeds {α : Type} (x : Op α) (s : SrsBuffer) : Prop := ∃ r s', run x s = (some r, s')

section kinds

variable {α : Type} {s : SrsBuffer} {n : Int}

/-- A method that goes through leaves a position that is `n` further and inside the buffer. -/
def Moves (x : Op α) (n : Int) (s : SrsBuffer) : Prop :=
  ∀ r s', run x s = (some r, s') → ∃ mem, s' = { s with p := s.p + n, mem := mem } ∧
    s.bytes ≤ s.p + n ∧ s.p + n ≤ s.bytes + s.nbBytes

theorem Moves.valid {x : Op α} (hx : Moves x n s) (h : s.Valid) {r : α} {s' : SrsBuffer}
    (e : run x s = (some r, s')) : s'.Valid := by
  obtain ⟨mem, rfl, h₁, h₂⟩ := hx r s' e
  exact h.move h₁ h₂

theorem Moves.moved {x : Op α} (hx : Moves x n s) (h : s.Valid) {r : α} {s' : SrsBuffer}
    (e : run x s = (some r, s')) :
    0 ≤ s'.pos ∧ s'.pos ≤ s'.size ∧ s'.pos + s'.left = s'.size ∧ s'.size = s.size ∧
      s'.pos = s.pos + n := by
  have h' := hx.valid h e
  obtain ⟨mem, rfl, h₁, h₂⟩ := hx r s' e
  rw [h'.pos_eq, h'.left_eq, h.pos_eq, size, size]
  dsimp only
  omega

/-- A method that goes through when the bytes are left, and returns `r s` and leaves `t s`. -/
def Checks (x : Op α) (n : Int) (r : SrsBuffer → α) (t : SrsBuffer → SrsBuffer) : Prop :=
  ∀ s, run x s = if s.require n then (some (r s), t s) else (none, s)

namespace Checks

variable {x : Op α} {r : SrsBuffer → α} {t : SrsBuffer → SrsBuffer} (hx : Checks x n r t)
include hx

theorem failed {s' : SrsBuffer} (e : run x s = (none, s')) : s' = s := by
  rw [hx] at e
  split at e <;> cases e
  rfl

theorem passed {a : α} {s' : SrsBuffer} :
    run x s = (some a, s') ↔ s.require n = true ∧ r s = a ∧ t s = s' := by
  rw [hx]
  split
  · next hr => simp [hr]
  · next hr => simp [hr]

theorem succeeds (h : s.Valid) : Succeeds x s ↔ 0 ≤ n ∧ n ≤ s.left := by
  rw [← h.require_iff]
  constructor
  · rintro ⟨a, s', e⟩
    exact (hx.passed.mp e).1
  · intro hr
    exact ⟨_, _, hx.passed.mpr ⟨hr, rfl, rfl⟩⟩

end Checks

theorem Reads.moves {x : Op α} {f : List Byte → α} (hx : Reads x n f) (h : s.Valid) :
    Moves x n s := by
  have hc : Checks x n (fun s => f (load s.mem s.p n.toNat)) (·.advance n) := hx
  intro r s' e
  obtain ⟨hr, -, rfl⟩ := hc.passed.mp e
  obtain ⟨h₁, h₂⟩ := require_eq_true.mp hr
  have hlower := h.lower
  exact ⟨s.mem, rfl, by omega, by omega⟩

theorem Reads.stays {x : Op α} {f : List Byte → α} (hx : Reads x n f) (h : s.Valid) :
    Stays x n s := by
  have hc : Checks x n (fun s => f (load s.mem s.p n.toNat)) (·.advance n) := hx
  refine ⟨fun s' e => hc.failed e, fun r s' e => (hx.moves h).moved h e, ?_, ?_⟩
  · intro r s' e a _
    obtain ⟨-, -, rfl⟩ := hc.passed.mp e
    rfl
  · intro r s' e m hm
    obtain ⟨hr, rfl, rfl⟩ := hc.passed.mp e
    have hn := (require_eq_true.mp hr).1
    refine ⟨m, hc.passed.mpr ⟨hr, ?_, rfl⟩, hm⟩
    -- what is returned is made of the bytes up to the new position
    refine congrArg f (load_congr fun a (h₁ : s.p ≤ a) (h₂ : a < s.p + n.toNat) => hm a h₁ ?_)
    show a < s.p + n
    omega

theorem Writes.moves {x : Op Unit} {bs : List Byte} (hx : Writes x n bs)
    (hn : 0 ≤ n → bs.length = n) (h : s.Valid) : Moves x n s := by
  have hc : Checks x n (fun _ => ()) (·.write bs) := hx
  intro r s' e
  obtain ⟨hr, -, rfl⟩ := hc.passed.mp e
  obtain ⟨h₁, h₂⟩ := require_eq_true.mp hr
  have hlower := h.lower
  have hlen := hn h₁
  refine ⟨store s.mem s.p bs, ?_, by omega, by omega⟩
  rw [write, hlen]

theorem Writes.stays {x : Op Unit} {bs : List Byte} (hx : Writes x n bs)
    (hn : 0 ≤ n → bs.length = n) (h : s.Valid) : Stays x n s := by
  have hc : Checks x n (fun _ => ()) (·.write bs) := hx
  refine ⟨fun s' e => hc.failed e, fun r s' e => (hx.moves hn h).moved h e, ?_, ?_⟩
  · intro r s' e a ha
    obtain ⟨-, -, rfl⟩ := hc.passed.mp e
    exact store_of_outside ha
  · intro r s' e m hm
    obtain ⟨hr, -, rfl⟩ := hc.passed.mp e
    refine ⟨store m s.p bs, hc.passed.mpr ⟨hr, rfl, rfl⟩, fun a h₁ h₂ => ?_⟩
    -- the bytes between the positions are those that were written
    exact store_congr h₁ h₂

/-- What `skip` checks. -/
def Skips (s : SrsBuffer) (n : Int) : Prop :=
  s.p ≠ 0 ∧ s.bytes ≤ s.p + n ∧ s.p + n ≤ s.bytes + s.nbBytes

instance (s : SrsBuffer) (n : Int) : Decidable (s.Skips n) := inferInstanceAs (Decidable (_ ∧ _))

theorem run_skip : run (skip n) s = if s.Skips n then (some (), s.advance n) else (none, s) := by
  rw [skip, run_srsAssert_bind, run_srsAssert_bind, run_srsAssert_bind, run_modify]
  simp only [decide_eq_true_iff, ← ite_and]
  rfl

theorem skip_moves : Moves (skip n) n s := by
  intro r s' e
  rw [run_skip] at e
  split at e
  · next hs =>
      cases e
      exact ⟨s.mem, rfl, hs.2.1, hs.2.2⟩
  · cases e

theorem skip_stays (h : s.Valid) : Stays (skip n) n s := by
  refine ⟨fun s' e => ?_, fun r s' e => skip_moves.moved h e, ?_, ?_⟩
  · rw [run_skip] at e
    split at e <;> cases e
    rfl
  · intro r s' e a _
    rw [run_skip] at e
    split at e <;> cases e
    rfl
  · intro r s' e m hm
    rw [run_skip] at e ⊢
    split at e
    · next hs =>
        cases e
        exact ⟨m, if_pos hs, hm⟩
    · cases e

end kinds

theorem length_data {data : Nat → Byte} {size : Int} (h : 0 ≤ size) :
    ((List.range size.toNat).map data).length = size := by
  rw [List.length_map, List.length_range, Int.toNat_of_nonneg h]

theorem call_moves {s : SrsBuffer} (h : s.Valid) {c : Call} (hc : c.Short) :
    Moves c.op c.amount s := by
  cases c with
  | read f => exact f.read_reads.moves h
  | readString len => exact (readString_reads len).moves h
  | readBytes size => exact (readBytes_reads size).moves h
  | write f value => exact (f.write_writes value).moves (by simp [IntType.encode]) h
  | writeString value => exact (writeString_writes hc).moves (fun _ => rfl) h
  | writeBytes data size => exact (writeBytes_writes data size).moves length_data h
  | skip size => exact skip_moves

theorem call_stays {s : SrsBuffer} (h : s.Valid) {c : Call} (hc : c.Short) :
    Stays c.op c.amount s := by
  cases c with
  | read f => exact f.read_reads.stays h
  | readString len => exact (readString_reads len).stays h
  | readBytes size => exact (readBytes_reads size).stays h
  | write f value => exact (f.write_writes value).stays (by simp [IntType.encode]) h
  | writeString value => exact (writeString_writes hc).stays (fun _ => rfl) h
  | writeBytes data size => exact (writeBytes_writes data size).stays length_data h
  | skip size => exact skip_stays h

theorem call_succeeds {s : SrsBuffer} (h : s.Valid) {c : Call} (hc : c.Short) (hs : ¬ c.IsSkip) :
    Succeeds c.op s ↔ 0 ≤ c.amount ∧ c.amount ≤ s.left := by
  cases c with
  | read f => exact Checks.succeeds f.read_reads h
  | readString len => exact Checks.succeeds (readString_reads len) h
  | readBytes size => exact Checks.succeeds (readBytes_reads size) h
  | write f value => exact Checks.succeeds (f.write_writes value) h
  | writeString value => exact Checks.succeeds (writeString_writes hc) h
  | writeBytes data size => exact Checks.succeeds (writeBytes_writes data size) h
  | skip size => exact absurd trivial hs

/-- A buffer stays valid, over every run of calls. -/
theorem valid_of_exec {b : Nat} {nn : Int} {mem : Mem} {cs : List Call} {s : SrsBuffer}
    (hnn : 0 ≤ nn) (hint : nn < 2 ^ 31) (hb : b = 0 → nn = 0) (hcs : ∀ c ∈ cs, c.Short)
    (h : exec step (new b nn mem) cs = some s) : s.Valid := by
  refine exec_ind (P := fun cs s => (∀ c ∈ cs, c.Short) → s.Valid) ?_ ?_ h hcs
  · intro _
    exact ⟨hint, Int.natCast_nonneg b, fun e => hb (Int.natCast_eq_zero.mp e), Int.le_refl b,
      Int.le_add_of_nonneg_right hnn⟩
  · intro cs s c s' _ ih hstep hcs
    have hv := ih fun c hc => hcs c (List.mem_append_left _ hc)
    have hc := hcs c (by simp)
    unfold step at hstep
    split at hstep
    · next r s₁ e =>
        cases hstep
        exact (call_moves hv hc).valid hv e
    · cases hstep

/-- **Every call of every run.**  From the construction of a buffer over `nn` bytes on, whatever
the calls: the buffer is empty exactly when no bytes are left, and a call, with any arguments,
fails and changes nothing, or stays inside the buffer; a read or a write succeeds exactly when
the bytes it asks for are left. -/
theorem calls_spec {b : Nat} {nn : Int} {mem : Mem} {cs : List Call} {s : SrsBuffer} (hnn : 0 ≤ nn)
    (hint : nn < 2 ^ 31) (hb : b = 0 → nn = 0) (hcs : ∀ c ∈ cs, c.Short)
    (h : exec step (new b nn mem) cs = some s) :
    (s.empty = true ↔ s.left = 0) ∧ ∀ c : Call, c.Short → Stays c.op c.amount s ∧
      (¬ c.IsSkip → (Succeeds c.op s ↔ 0 ≤ c.amount ∧ c.amount ≤ s.left)) := by
  have hv := valid_of_exec hnn hint hb hcs h
  exact ⟨hv.empty_iff, fun c hc => ⟨call_stays hv hc, call_succeeds hv hc⟩⟩

/-- Two of four bytes are left after a write: a string of two is written, an integer of three is
not read. -/
theorem calls_spec_two_left :
    Stays (writeString [1, 2]) 2 ⟨9, 7, 4, store (fun _ => 0) 7 (IntType.encode .b2 0x1234)⟩ ∧
      ¬ Succeeds (IntType.read .b3)
          ⟨9, 7, 4, store (fun _ => 0) 7 (IntType.encode .b2 0x1234)⟩ := by
  have h : exec step (new (7 : Nat) 4 fun _ => 0) [.write .b2 0x1234] =
      some ⟨9, 7, 4, store (fun _ => 0) 7 (IntType.encode .b2 0x1234)⟩ := rfl
  have hs := (calls_spec (by decide) (by decide) (by decide) (by simp [Call.Short]) h).2
  refine ⟨(hs (.writeString [1, 2]) (by simp [Call.Short])).1, fun hb => ?_⟩
  exact absurd (((hs (.read .b3) trivial).2 id).mp hb).2 (by decide)

end StCoroutine.Kernel.SrsBuffer
