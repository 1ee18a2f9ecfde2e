import StCoroutine.RingBuf.Spsc

/-!
# RingBuf — no packet is lost, repeated or reordered between the two threads

`spsc_safe`: along every interleaving of a writer and a reader the delivered packets are a prefix
of the accepted ones, the difference is at most `bufferSize - 1`, and every delivery is of a
packet stored in its slot since the slot was last consumed.

The invariant (`Inv`) relates the buffer and the history to the queue `q` of the packets accepted
and not yet delivered.  Of a side in the middle of its call it says what that side's stale view of
the other index still guarantees: the writer has room, because the reader can only have made
more, and the reader has a head to take, because the writer can only have appended.
-/

set_option autoImplicit false

namespace StCoroutine.RingBuf.Spsc
open Lts SrsRingBuffer

variable {α : Type*}

/-! ### The invariant -/

/-- What the writer knows: after the full test there is room, and after the store its packet is
in the free slot. -/
def WriterInv (n : UInt32) (tr : List (Event α)) (b : PacketRingBuffer α) (q : List α) :
    Writer α → Prop
  | .store _ => q.length < n.toNat - 1
  | .count p | .setCount p _ | .publish p =>
    q.length < n.toNat - 1 ∧ b.ptArrayBuffer b.write.toNat = some p ∧
      fresh tr b.write.toNat = some p
  | _ => True

/-- What the reader knows: after the empty test there is a head, and after the load it holds it. -/
def ReaderInv (q : List α) : Reader α → Prop
  | .countRead | .load => q ≠ []
  | .nullCheck v => ∃ p q', q = p :: q' ∧ v = some p
  | .count p | .setCount p _ | .advance p => ∃ q', q = p :: q'
  | _ => True

/-- The packet of a write that has published it and not yet returned. -/
def inFlight : Writer α → List α
  | .mark p => [p]
  | _ => []

/-- After the history `tr`, the packets accepted and not delivered are `q`; they lie in the
buffer, and each was stored in its slot since the slot was last consumed. -/
structure Inv (n : UInt32) (tr : List (Event α)) (s : Shared α) (q : List α) : Prop where
  holds : Holds s.buf n q
  run : Queue.Run (n.toNat - 1) (queueEvents tr) q
  stored : Circular.Holds (fresh tr) n.toNat s.buf.read.toNat s.buf.write.toNat q
  writer : WriterInv n tr s.buf q s.writer
  reader : ReaderInv q s.reader
  returned : accepted tr = writeOks tr ++ inFlight s.writer

theorem inv_init (n : UInt32) : Inv (sizeOf n) [] (init n : Shared α) [] :=
  ⟨holds_new n, .nil, .nil (sizeOf_pos n), trivial, trivial, rfl⟩

section keep

variable {n : UInt32} {tr : List (Event α)} {b : PacketRingBuffer α} {w w' : Writer α}
  {r r' : Reader α} {q : List α} {p : α}

/-- A step that shows nothing and keeps the indices and the slots keeps the invariant, when the
threads' next accesses are justified. -/
theorem Inv.silent (h : Inv n tr ⟨b, w, r⟩ q) {b' : PacketRingBuffer α} (hb : Holds b' n q)
    (hp : b'.ptArrayBuffer = b.ptArrayBuffer) (hr : b'.read = b.read) (hw : b'.write = b.write)
    (hwr : WriterInv n tr b q w') (hrd : ReaderInv q r') (hf : inFlight w' = inFlight w) :
    Inv n (tr ++ []) ⟨b', w', r'⟩ q := by
  rw [List.append_nil]
  refine ⟨hb, h.run, ?_, ?_, hrd, by rw [h.returned, hf]⟩
  · show Circular.Holds _ _ b'.read.toNat b'.write.toNat q
    rw [hr, hw]
    exact h.stored
  · show WriterInv n tr b' q w'
    cases w' <;> simp only [WriterInv, hp, hw] at hwr ⊢ <;> exact hwr

/-- The writer fills the free slot. -/
theorem Inv.store (h : Inv n tr ⟨b, .store p, r⟩ q) :
    Inv n (tr ++ [.stored b.write p]) ⟨b.setWriteSlot (some p), .count p, r⟩ q := by
  have hq : queueEvents (tr ++ [.stored b.write p]) = queueEvents tr := by
    rw [queueEvents_append]
    exact List.append_nil _
  refine ⟨h.holds.setWriteSlot _, hq ▸ h.run, ?_, ⟨h.writer, Function.update_self _ _ _, ?_⟩,
    h.reader, ?_⟩
  · rw [fresh_stored]
    exact h.stored.store _
  · rw [fresh_stored]
    exact Function.update_self _ _ _
  · rw [accepted, hq, writeOks_append]
    exact h.returned.trans (by simp [writeOks, inFlight])

/-- The writer publishes: its packet joins the queue. -/
theorem Inv.publish (h : Inv n tr ⟨b, .publish p, r⟩ q) :
    Inv n (tr ++ [.accepted p]) ⟨b.addWritePos, .mark p, r⟩ (q ++ [p]) := by
  obtain ⟨hroom, hslot, hfresh⟩ := h.writer
  have hq : queueEvents (tr ++ [.accepted p]) = queueEvents tr ++ [.enq p] := queueEvents_append _ _
  refine ⟨h.holds.addWritePos hslot hroom, hq ▸ h.run.enq p hroom, ?_, trivial, ?_, ?_⟩
  · have hw : b.addWritePos.write.toNat = (b.write.toNat + 1) % n.toNat := h.holds.toWritePos_toNat
    rw [fresh_accepted, hw]
    exact h.stored.publish hfresh hroom
  · -- the reader's head stays when the queue grows at its end
    have hr := h.reader
    cases r <;> simp only [ReaderInv] at hr ⊢
    case countRead | load => exact List.append_ne_nil_of_left_ne_nil hr _
    case nullCheck v =>
      obtain ⟨x, q', rfl, rfl⟩ := hr
      exact ⟨x, q' ++ [p], rfl, rfl⟩
    case count x | setCount x _ | advance x =>
      obtain ⟨q', rfl⟩ := hr
      exact ⟨q' ++ [p], rfl⟩
  · have hret : accepted tr = writeOks tr := h.returned.trans (List.append_nil _)
    rw [accepted, hq, Queue.enqs_append, writeOks_append]
    show accepted tr ++ [p] = _
    rw [hret]
    simp [writeOks, inFlight]

/-- The reader advances: the head leaves the queue. -/
theorem Inv.advance (h : Inv n tr ⟨b, w, .advance p⟩ q) :
    ∃ q', q = p :: q' ∧ fresh tr b.read.toNat = some p ∧
      Inv n (tr ++ [.delivered b.read p]) ⟨b.addReadPos, w, .idle⟩ q' := by
  obtain ⟨q', rfl⟩ := h.reader
  have hq : queueEvents (tr ++ [.delivered b.read p]) = queueEvents tr ++ [.deq p] :=
    queueEvents_append _ _
  refine ⟨q', rfl, h.stored.front, h.holds.addReadPos, hq ▸ h.run.deq, ?_, ?_, trivial, ?_⟩
  · have hr : b.addReadPos.read.toNat = (b.read.toNat + 1) % n.toNat := h.holds.addReadPos_read
    rw [fresh_delivered, hr]
    exact h.stored.advance_update none
  · -- the writer's room only grows, and the slot it filled is not the one just freed
    have hne : b.write.toNat ≠ b.read.toNat := fun e => by
      cases h.holds.ring.read_eq_write.mp e.symm
    have hw := h.writer
    cases w <;> simp only [WriterInv, fresh_delivered, List.length_cons] at hw ⊢
    case store x => omega
    case count x | setCount x _ | publish x =>
      obtain ⟨hroom, hslot, hfresh⟩ := hw
      refine ⟨by omega, hslot, ?_⟩
      show Function.update _ _ _ b.write.toNat = _
      rw [Function.update_of_ne hne]
      exact hfresh
  · rw [accepted, hq, Queue.enqs_append, writeOks_append, Queue.enqs_deq, List.append_nil]
    show accepted tr = writeOks tr ++ [] ++ _
    rw [List.append_nil]
    exact h.returned

/-- The writer returns. -/
theorem Inv.mark (h : Inv n tr ⟨b, .mark p, r⟩ q) :
    Inv n (tr ++ [.writeOk p]) ⟨b.markWrited, .idle, r⟩ q := by
  have hq : queueEvents (tr ++ [.writeOk p]) = queueEvents tr := by
    rw [queueEvents_append]
    exact List.append_nil _
  refine ⟨h.holds.markWrited, hq ▸ h.run, ?_, trivial, h.reader, ?_⟩
  · rw [fresh_writeOk]
    show Circular.Holds _ _ b.markWrited.read.toNat b.markWrited.write.toNat q
    rw [markWrited_eq]
    exact h.stored
  · rw [accepted, hq, writeOks_append]
    exact h.returned.trans (by simp [writeOks, inFlight])

/-- **An access of the writer keeps the invariant.** -/
theorem inv_writeStep {b' : PacketRingBuffer α} (h : Inv n tr ⟨b, w, r⟩ q)
    (hs : writeStep b w = some (b', w')) :
    ∃ q', Inv n (tr ++ writeEvents b w) ⟨b', w', r⟩ q' := by
  cases w with
  | idle => cases hs
  | checkSize p =>
      cases hs
      refine ⟨q, h.silent h.holds rfl rfl rfl ?_ h.reader ?_⟩ <;> split <;> trivial
  | checkInit p =>
      cases hs
      refine ⟨q, h.silent h.holds rfl rfl rfl ?_ h.reader ?_⟩ <;> split <;> trivial
  | countWrite p =>
      cases hs
      exact ⟨q, h.silent h.holds.countWrite rfl rfl rfl trivial h.reader rfl⟩
  | compare p =>
      cases hs
      by_cases hfull : b.toWritePos = b.read
      · rw [if_pos hfull]
        exact ⟨q, h.silent h.holds rfl rfl rfl trivial h.reader rfl⟩
      · rw [if_neg hfull]
        -- the room found here stays until the store: the reader only takes
        have hroom : q.length < n.toNat - 1 := by
          by_contra hc
          exact hfull (h.holds.toWritePos_eq_read.mpr hc)
        exact ⟨q, h.silent h.holds rfl rfl rfl hroom h.reader rfl⟩
  | countOverwrite =>
      cases hs
      exact ⟨q, h.silent h.holds.countOverwrite rfl rfl rfl trivial h.reader rfl⟩
  | store p =>
      cases hs
      exact ⟨q, h.store⟩
  | count p =>
      cases hs
      exact ⟨q, h.silent h.holds rfl rfl rfl h.writer h.reader rfl⟩
  | setCount p k =>
      cases hs
      exact ⟨q, h.silent (h.holds.setCurCount k) rfl rfl rfl h.writer h.reader rfl⟩
  | publish p =>
      cases hs
      exact ⟨q ++ [p], h.publish⟩
  | mark p =>
      cases hs
      exact ⟨q, h.mark⟩

/-- **An access of the reader keeps the invariant**, and what it delivers is fresh. -/
theorem inv_readStep {b' : PacketRingBuffer α} (h : Inv n tr ⟨b, w, r⟩ q)
    (hs : readStep b r = some (b', r')) :
    (∃ q', Inv n (tr ++ readEvents b r) ⟨b', w, r'⟩ q') ∧
      ∀ i p, .delivered i p ∈ readEvents b r → fresh tr i.toNat = some p := by
  cases r with
  | idle => cases hs
  | checkInit =>
      cases hs
      refine ⟨⟨q, h.silent h.holds rfl rfl rfl h.writer ?_ rfl⟩, by simp [readEvents]⟩
      split <;> trivial
  | compare =>
      cases hs
      refine ⟨⟨q, h.silent h.holds rfl rfl rfl h.writer ?_ rfl⟩, by simp [readEvents]⟩
      by_cases he : b.read = b.write
      · rw [if_pos he]
        trivial
      · -- the packet found here stays until it is taken: the writer only adds
        rw [if_neg he]
        exact fun hq => he (h.holds.read_eq_write.mpr hq)
  | countRead =>
      cases hs
      exact ⟨⟨q, h.silent h.holds.countRead rfl rfl rfl h.writer h.reader rfl⟩,
        by simp [readEvents]⟩
  | load =>
      cases hs
      refine ⟨⟨q, h.silent h.holds rfl rfl rfl h.writer ?_ rfl⟩, by simp [readEvents]⟩
      have hne : q ≠ [] := h.reader
      obtain ⟨p, q', rfl⟩ := List.exists_cons_of_ne_nil hne
      exact ⟨p, q', rfl, h.holds.front⟩
  | nullCheck v =>
      obtain ⟨p, q', rfl, rfl⟩ := h.reader
      cases hs
      exact ⟨⟨_, h.silent h.holds rfl rfl rfl h.writer ⟨q', rfl⟩ rfl⟩, by simp [readEvents]⟩
  | count p =>
      cases hs
      exact ⟨⟨q, h.silent h.holds rfl rfl rfl h.writer h.reader rfl⟩, by simp [readEvents]⟩
  | setCount p k =>
      cases hs
      exact ⟨⟨q, h.silent (h.holds.setCurCount k) rfl rfl rfl h.writer h.reader rfl⟩,
        by simp [readEvents]⟩
  | advance p =>
      cases hs
      obtain ⟨q', rfl, hf, hinv⟩ := h.advance
      refine ⟨⟨q', hinv⟩, fun i x hi => ?_⟩
      cases List.mem_singleton.mp hi
      exact hf

/-- Every step keeps the invariant, and what it delivers is fresh. -/
theorem inv_step {s s' : Shared α} {l : Label α} (h : Inv n tr s q) (hs : step s l = some s') :
    (∃ q', Inv n (tr ++ events s l) s' q') ∧
      ∀ i p, .delivered i p ∈ events s l → fresh tr i.toNat = some p := by
  obtain ⟨b, w, r⟩ := s
  cases l with
  | writeCall ptInBuffer =>
      refine ⟨⟨q, ?_⟩, by simp [events]⟩
      cases w <;> cases ptInBuffer <;> simp only [step, Option.some.injEq, reduceCtorEq] at hs
      · subst hs
        exact h.silent h.holds rfl rfl rfl trivial h.reader rfl
      · subst hs
        exact h.silent h.holds rfl rfl rfl trivial h.reader rfl
  | readCall ptOutBuffer =>
      refine ⟨⟨q, ?_⟩, by simp [events]⟩
      cases r <;> cases ptOutBuffer <;> simp only [step, Option.some.injEq, reduceCtorEq] at hs
      · subst hs
        exact h.silent h.holds rfl rfl rfl h.writer trivial rfl
      · subst hs
        exact h.silent h.holds rfl rfl rfl h.writer trivial rfl
  | writeStep =>
      obtain ⟨⟨b', w'⟩, hw, rfl⟩ := Option.map_eq_some_iff.mp hs
      refine ⟨inv_writeStep h hw, fun i p hi => ?_⟩
      cases w <;> simp [events, writeEvents] at hi
  | readStep =>
      obtain ⟨⟨b', r'⟩, hr, rfl⟩ := Option.map_eq_some_iff.mp hs
      exact inv_readStep h hr

end keep

/-! ### Every interleaving -/

/-- Every delivery of the history is of a packet that is fresh in its slot. -/
def AllFresh (tr : List (Event α)) : Prop :=
  ∀ pre i p post, tr = pre ++ .delivered i p :: post → fresh pre i.toNat = some p

theorem allFresh_append_events {tr : List (Event α)} {s : Shared α} {l : Label α}
    (h : AllFresh tr) (hl : ∀ i p, .delivered i p ∈ events s l → fresh tr i.toNat = some p) :
    AllFresh (tr ++ events s l) := by
  have hlen : events s l = [] ∨ ∃ e, events s l = [e] := by
    obtain ⟨b, w, r⟩ := s
    cases l with
    | writeCall _ | readCall _ => exact .inl rfl
    | writeStep => cases w <;> simp [events, writeEvents]
    | readStep => cases r <;> simp [events, readEvents]
  rcases hlen with e | ⟨e, he⟩
  · rwa [e, List.append_nil]
  · intro pre i p post hsplit
    rw [he] at hsplit hl
    rcases snoc_eq_split hsplit with ⟨rfl, rfl, -⟩ | ⟨post', -, hpre⟩
    · exact hl i p (List.mem_singleton.mpr rfl)
    · exact h pre i p post' hpre

theorem inv_run (n : UInt32) {ls : List (Label α)} {s : Shared α}
    (h : exec step (init n) ls = some s) :
    (∃ q, Inv (sizeOf n) (trace step events (init n) ls) s q) ∧
      AllFresh (trace step events (init n) ls) := by
  refine trace_ind (P := fun tr s => (∃ q, Inv (sizeOf n) tr s q) ∧ AllFresh tr)
    ⟨⟨[], inv_init n⟩, fun pre i p post e => by simp at e⟩ ?_ h
  rintro tr s l s' ⟨⟨q, hinv⟩, hfresh⟩ hs
  obtain ⟨hinv', hl⟩ := inv_step hinv hs
  exact ⟨hinv', allFresh_append_events hfresh hl⟩

/-- **One writer and one reader.**  Along every interleaving of their accesses, for every buffer
size:

* the delivered packets are, in order, a prefix of the accepted ones;
* at most `bufferSize - 1` packets are accepted and not delivered;
* a delivered packet was stored in its slot, and the slot neither stored to nor consumed again
  before the delivery;
* the accepted packets are those of the writes that returned `E_RET_BUF_OK`, and at most one more
  at the end, of a write that has published its packet and is about to return. -/
theorem spsc_safe (n : UInt32) (ls : List (Label α)) (s : Shared α)
    (h : exec step (init n) ls = some s) :
    let tr := trace step events (init n) ls
    delivered tr <+: accepted tr ∧
      (accepted tr).length ≤ (delivered tr).length + ((sizeOf n).toNat - 1) ∧
      (∀ pre i p post, tr = pre ++ .delivered i p :: post →
        ∃ pre₁ pre₂, pre = pre₁ ++ .stored i p :: pre₂ ∧
          ∀ p', .stored i p' ∉ pre₂ ∧ .delivered i p' ∉ pre₂) ∧
      accepted tr = writeOks tr ++ inFlight s.writer := by
  intro tr
  obtain ⟨⟨q, hinv⟩, hfresh⟩ := inv_run n h
  refine ⟨hinv.run.deqs_prefix, ?_, fun pre i p post hsplit => ?_, hinv.returned⟩
  · have hsub : (accepted tr).length - (delivered tr).length ≤ _ := hinv.run.length_sub_le
    omega
  · obtain ⟨pre₁, e, pre₂, rfl, he, hpost⟩ := latest_eq_some.mp (hfresh pre i p post hsplit)
    -- the event that set the slot is the store of this packet
    cases e with
    | stored j p' =>
        simp only [slotEff] at he
        split at he
        · next hj =>
            cases he
            obtain rfl := UInt32.toNat_inj.mp hj
            refine ⟨pre₁, pre₂, rfl, fun p' => ⟨fun hm => ?_, fun hm => ?_⟩⟩
            · have := hpost _ hm
              simp [slotEff] at this
            · have := hpost _ hm
              simp [slotEff] at this
        · cases he
    | delivered j p' =>
        simp only [slotEff] at he
        split at he <;> cases he
    | accepted p' | writeOk p' => cases he

/-- A read that overtakes the write it depends on: the writer has published its packet and not
returned, and the packet is delivered. -/
def overtaking : List (Label Nat) :=
  .writeCall (some 7) :: List.replicate 8 .writeStep ++ .readCall true :: List.replicate 8 .readStep

theorem spsc_safe_overtaking :
    ∃ s, exec step (init 2) overtaking = some s ∧
      accepted (trace step events (init 2) overtaking) =
        writeOks (trace step events (init 2) overtaking) ++ inFlight s.writer :=
  ⟨_, rfl, (spsc_safe 2 overtaking _ rfl).2.2.2⟩

end StCoroutine.RingBuf.Spsc
