import StCoroutine.RingBuf.Fifo

/-!
# RingBuf — the condition built on the ring buffer

`srs_app_stcondition.hpp`.  `StCondition<T, N>` keeps its pending notifications in a ring buffer
made with `N`: `notify()` writes a new `T` and ignores what the write returns, and `wait()` polls
until a read returns `E_RET_BUF_OK`.  A run interleaves calls of `notify()` with polls.

The ring has `min (N, 1000)` slots and keeps one free, so it takes `min (N, 1000) - 1`
notifications.  `noLoss_iff`: no notification is lost exactly when never more than that are
outstanding.  For `N ≤ 1000` that is `N - 1` (`condition_lossless_iff`); for the default `N`,
which is 1024, it is 24 short of it (`notify_lost`).
-/

set_option autoImplicit false

namespace StCoroutine.RingBuf
open SrsRingBuffer

variable {α : Type*}

/-- `StCondition`. -/
structure StCondition (α : Type*) where
  notifyRingbuf : PacketRingBuffer α

namespace StCondition

/-- `StCondition()`, at the template argument `N`. -/
def new (N : UInt32) : StCondition α := ⟨SrsRingBuffer.new N⟩

/-- The default of the template argument `N`. -/
def defaultN : UInt32 := 1024

/-- `notify()`, where `new T()` is `notifyPkg`. -/
def notify (c : StCondition α) (notifyPkg : α) : StCondition α :=
  ⟨(writePacketRingBuffer c.notifyRingbuf (some notifyPkg)).buf⟩

/-- One test of the loop of `wait()`, with what `notify_pkg` holds: whether the loop is left. -/
def waitPoll (c : StCondition α) (notifyPkg : Option α) : Bool × StCondition α :=
  let o := readPacketRingBuffer c.notifyRingbuf (some notifyPkg)
  (o.ret == .bufOk, ⟨o.buf⟩)

/-- The notifications pending in the ring. -/
def pending (c : StCondition α) : Nat := (getPacketRingBufferCount c.notifyRingbuf).toNat

end StCondition

/-! ### The ring of a condition -/

namespace StCondition

variable {c : StCondition α} {n : UInt32} {q : List α}

theorem notify_holds (h : Holds c.notifyRingbuf n q) (x : α) :
    ∃ q', Holds (c.notify x).notifyRingbuf n q' := by
  by_cases hroom : q.length < n.toNat - 1
  · obtain ⟨b', hw, hb'⟩ := write_ok h x hroom
    exact ⟨q ++ [x], by rwa [notify, hw]⟩
  · obtain ⟨b', hw, hb'⟩ := write_full h x hroom
    exact ⟨q, by rwa [notify, hw]⟩

theorem waitPoll_nil (h : Holds c.notifyRingbuf n []) : c.waitPoll none = (false, c) := by
  rw [waitPoll, read_nil h none]
  rfl

theorem waitPoll_cons {p : α} (h : Holds c.notifyRingbuf n (p :: q)) :
    ∃ c', c.waitPoll none = (true, c') ∧ Holds c'.notifyRingbuf n q := by
  obtain ⟨b', hread, hb'⟩ := read_cons h none
  exact ⟨⟨b'⟩, by rw [waitPoll, hread]; rfl, hb'⟩

theorem waitPoll_holds (h : Holds c.notifyRingbuf n q) :
    ∃ q', Holds (c.waitPoll none).2.notifyRingbuf n q' := by
  cases q with
  | nil => exact ⟨[], by rwa [waitPoll_nil h]⟩
  | cons p q =>
      obtain ⟨c', hc', hq⟩ := waitPoll_cons h
      exact ⟨q, by rwa [hc']⟩

theorem pending_eq (h : Holds c.notifyRingbuf n q) : c.pending = q.length := h.count_eq

end StCondition

/-! ### Runs -/

/-- A call of `notify()`, or a poll of a `wait()` in progress. -/
inductive CondLabel (α : Type*) where
  | notify (notifyPkg : α)
  | poll

/-- A condition, and the number of waits completed on it. -/
structure CondState (α : Type*) where
  cond : StCondition α
  completed : Nat

def condStep (s : CondState α) : CondLabel α → CondState α
  | .notify notifyPkg => { s with cond := s.cond.notify notifyPkg }
  | .poll =>
    let r := s.cond.waitPoll none
    ⟨r.2, if r.1 then s.completed + 1 else s.completed⟩

/-- The state after the run `ls` on a new condition. -/
def condRun (N : UInt32) (ls : List (CondLabel α)) : CondState α :=
  ls.foldl condStep ⟨.new N, 0⟩

/-- The calls of `notify()` in a run. -/
def issued (ls : List (CondLabel α)) : Nat :=
  ls.countP fun
    | .notify _ => true
    | .poll => false

/-- The notifications outstanding after a run, when a poll consumes one whenever there is one: a
count over the calls alone. -/
def outstanding (ls : List (CondLabel α)) : Nat :=
  ls.foldl (fun k l =>
    match l with
    | .notify _ => k + 1
    | .poll => k - 1) 0

/-- After every prefix of the run, every notification is consumed or pending. -/
def NoLoss (N : UInt32) (ls : List (CondLabel α)) : Prop :=
  ∀ pre, pre <+: ls → issued pre = (condRun N pre).completed + (condRun N pre).cond.pending

/-- After every prefix of the run, at most `N - 1` notifications are issued and not consumed. -/
def WithinN (N : UInt32) (ls : List (CondLabel α)) : Prop :=
  ∀ pre, pre <+: ls → issued pre ≤ (condRun N pre).completed + (N.toNat - 1)

section run

variable {N : UInt32} {ls : List (CondLabel α)} {l : CondLabel α}

theorem condRun_snoc : condRun N (ls ++ [l]) = condStep (condRun N ls) l := by
  simp [condRun, List.foldl_append]

theorem issued_notify (x : α) : issued (ls ++ [CondLabel.notify x]) = issued ls + 1 := by
  simp [issued, List.countP_append]

theorem issued_poll : issued (ls ++ [CondLabel.poll]) = issued ls := by
  simp [issued, List.countP_append]

theorem outstanding_notify (x : α) :
    outstanding (ls ++ [CondLabel.notify x]) = outstanding ls + 1 := by
  simp [outstanding, List.foldl_append]

theorem outstanding_poll : outstanding (ls ++ [CondLabel.poll]) = outstanding ls - 1 := by
  simp [outstanding, List.foldl_append]

/-- The ring of a condition holds a queue all along a run. -/
theorem condRun_holds (N : UInt32) (ls : List (CondLabel α)) :
    ∃ q, Holds (condRun N ls).cond.notifyRingbuf (sizeOf N) q := by
  induction ls using List.reverseRecOn with
  | nil => exact ⟨[], holds_new N⟩
  | append_singleton ls l ih =>
      obtain ⟨q, h⟩ := ih
      rw [condRun_snoc]
      cases l with
      | notify x => exact StCondition.notify_holds h x
      | poll => exact StCondition.waitPoll_holds h

theorem pending_le (N : UInt32) (ls : List (CondLabel α)) :
    (condRun N ls).cond.pending ≤ (sizeOf N).toNat - 1 := by
  obtain ⟨q, h⟩ := condRun_holds N ls
  have hroom := h.ring.room
  rw [StCondition.pending, h.count_eq]
  omega

/-- A notification is pending when there is room, and dropped when there is none. -/
theorem run_notify (N : UInt32) (ls : List (CondLabel α)) (x : α) :
    (condRun N (ls ++ [CondLabel.notify x])).completed = (condRun N ls).completed ∧
      (condRun N (ls ++ [CondLabel.notify x])).cond.pending =
        if (condRun N ls).cond.pending < (sizeOf N).toNat - 1
        then (condRun N ls).cond.pending + 1 else (condRun N ls).cond.pending := by
  obtain ⟨q, h⟩ := condRun_holds N ls
  rw [condRun_snoc]
  refine ⟨rfl, ?_⟩
  simp only [StCondition.pending, condStep, StCondition.notify, h.count_eq]
  by_cases hroom : q.length < (sizeOf N).toNat - 1
  · obtain ⟨b', hw, hb'⟩ := write_ok h x hroom
    rw [if_pos hroom, hw, hb'.count_eq, List.length_append, List.length_singleton]
  · obtain ⟨b', hw, hb'⟩ := write_full h x hroom
    rw [if_neg hroom, hw, hb'.count_eq]

/-- A poll completes its wait, and consumes one notification, exactly when one is pending. -/
theorem run_poll (N : UInt32) (ls : List (CondLabel α)) :
    ((condRun N ls).cond.pending = 0 ∧ (condRun N (ls ++ [CondLabel.poll])).cond.pending = 0 ∧
        (condRun N (ls ++ [CondLabel.poll])).completed = (condRun N ls).completed) ∨
      ((condRun N (ls ++ [CondLabel.poll])).cond.pending + 1 = (condRun N ls).cond.pending ∧
        (condRun N (ls ++ [CondLabel.poll])).completed = (condRun N ls).completed + 1) := by
  obtain ⟨q, h⟩ := condRun_holds N ls
  rw [condRun_snoc]
  cases q with
  | nil =>
      left
      have hread := read_nil h none
      simp only [StCondition.pending, condStep, StCondition.waitPoll, hread, h.count_eq]
      exact ⟨rfl, rfl, rfl⟩
  | cons p q =>
      right
      obtain ⟨b', hread, hb'⟩ := read_cons h none
      simp only [StCondition.pending, condStep, StCondition.waitPoll, hread, h.count_eq,
        hb'.count_eq]
      exact ⟨rfl, rfl⟩

theorem noLoss_snoc :
    NoLoss N (ls ++ [l]) ↔ NoLoss N ls ∧ issued (ls ++ [l]) =
      (condRun N (ls ++ [l])).completed + (condRun N (ls ++ [l])).cond.pending := by
  refine ⟨fun h => ⟨fun pre hp => h pre (hp.trans (List.prefix_append _ _)), h _ List.prefix_rfl⟩,
    fun ⟨h, hl⟩ pre hp => ?_⟩
  rcases List.prefix_concat_iff.mp hp with rfl | hp
  · exact hl
  · exact h pre hp

/-- As long as nothing is lost, what is pending is what is outstanding. -/
theorem pending_of_noLoss (h : NoLoss N ls) : (condRun N ls).cond.pending = outstanding ls := by
  induction ls using List.reverseRecOn with
  | nil => exact (holds_new N).count_eq
  | append_singleton ls l ih =>
      obtain ⟨h, hl⟩ := noLoss_snoc.mp h
      have hls := h ls List.prefix_rfl
      have hp := ih h
      cases l with
      | notify x =>
          obtain ⟨hc, -⟩ := run_notify N ls x
          rw [issued_notify, hc] at hl
          rw [outstanding_notify]
          omega
      | poll =>
          rw [outstanding_poll]
          rcases run_poll N ls with ⟨h₀, h₁, -⟩ | ⟨h₁, -⟩ <;> omega

/-- **No notification is lost** exactly when never more are outstanding than the ring takes. -/
theorem noLoss_iff :
    NoLoss N ls ↔ ∀ pre, pre <+: ls → outstanding pre ≤ (sizeOf N).toNat - 1 := by
  constructor
  · intro h pre hp
    rw [← pending_of_noLoss fun pre' hp' => h pre' (hp'.trans hp)]
    exact pending_le N pre
  · induction ls using List.reverseRecOn with
    | nil =>
        intro _ pre hp
        rw [List.prefix_nil.mp hp]
        exact ((Nat.zero_add _).trans (holds_new N).count_eq).symm
    | append_singleton ls l ih =>
        intro hout
        have h := ih fun pre hp => hout pre (hp.trans (List.prefix_append _ _))
        have hls := h ls List.prefix_rfl
        have hp := pending_of_noLoss h
        refine noLoss_snoc.mpr ⟨h, ?_⟩
        cases l with
        | notify x =>
            -- the new notification is outstanding too, so the ring had room for it
            have hroom := hout _ List.prefix_rfl
            rw [outstanding_notify] at hroom
            obtain ⟨hc, hpend⟩ := run_notify N ls x
            rw [if_pos (by omega)] at hpend
            rw [issued_notify, hc, hpend]
            omega
        | poll =>
            rw [issued_poll]
            rcases run_poll N ls with ⟨h₀, h₁, h₂⟩ | ⟨h₁, h₂⟩ <;> omega

/-- Below the clamp the ring has `N` slots, so it takes what `WithinN` allows. -/
theorem noLoss_of_withinN (e : sizeOf N = N) : WithinN N ls → NoLoss N ls := by
  induction ls using List.reverseRecOn with
  | nil =>
      intro _
      refine noLoss_iff.mpr fun pre hp => ?_
      rw [List.prefix_nil.mp hp]
      exact Nat.zero_le _
  | append_singleton ls l ih =>
      intro hls
      have h := ih fun pre hp => hls pre (hp.trans (List.prefix_append _ _))
      have hp := pending_of_noLoss h
      have hiss := h ls List.prefix_rfl
      have hold := noLoss_iff.mp h ls List.prefix_rfl
      have hw := hls _ List.prefix_rfl
      refine noLoss_iff.mpr fun pre hpre => ?_
      rcases List.prefix_concat_iff.mp hpre with rfl | hpre
      · rw [e] at hold ⊢
        cases l with
        | notify x =>
            rw [issued_notify, (run_notify N ls x).1] at hw
            rw [outstanding_notify]
            omega
        | poll =>
            rw [outstanding_poll]
            omega
      · exact noLoss_iff.mp h pre hpre

end run

/-! ### The outstanding notifications allowed by `N` -/

/-- **No notification is lost while at most `N - 1` are outstanding, as long as these are at most
999**, one less than the ring's own limit; and every completed wait consumes exactly one. -/
theorem condition_lossless_iff (N : UInt32) (hN : 2 ≤ N) (ls : List (CondLabel α))
    (hls : WithinN N ls) :
    (NoLoss N ls ↔ ∀ pre, pre <+: ls → outstanding pre ≤ 999) ∧
      ∀ pre, pre ++ [CondLabel.poll] <+: ls →
        (condRun N (pre ++ [CondLabel.poll])).completed ≠ (condRun N pre).completed →
        (condRun N (pre ++ [CondLabel.poll])).completed = (condRun N pre).completed + 1 ∧
          (condRun N (pre ++ [CondLabel.poll])).cond.pending + 1 =
            (condRun N pre).cond.pending := by
  refine ⟨⟨fun h pre hp => ?_, fun h => ?_⟩, fun pre _ hne => ?_⟩
  · have hle := noLoss_iff.mp h pre hp
    have hsize : (sizeOf N).toNat ≤ 1000 := UInt32.le_iff_toNat_le.mp (sizeOf_le N)
    omega
  · by_cases hbig : N ≥ 1000
    · refine noLoss_iff.mpr fun pre hp => ?_
      have e : sizeOf N = 1000 := if_pos (.inr hbig)
      rw [e]
      exact h pre hp
    · have e : sizeOf N = N := by
        refine if_neg ?_
        rintro (rfl | hc)
        · exact absurd hN (by decide)
        · exact hbig hc
      exact noLoss_of_withinN e hls
  · rcases run_poll N pre with ⟨-, -, h₂⟩ | ⟨h₁, h₂⟩
    · exact absurd h₂ hne
    · exact ⟨h₂, h₁⟩

/-- A thousand notifications with no waiter. -/
def burst : List (CondLabel Unit) := List.replicate 1000 (.notify ())

theorem outstanding_replicate (k : Nat) (x : α) :
    outstanding (List.replicate k (.notify x)) = k := by
  induction k with
  | zero => rfl
  | succ k ih => rw [List.replicate_succ', outstanding_notify, ih]

/-- At the default `N` the thousandth notification of a burst is lost, with 1000 outstanding, 24
below the 1023 allowed. -/
theorem notify_lost :
    2 ≤ StCondition.defaultN ∧ WithinN StCondition.defaultN burst ∧
      ¬ NoLoss StCondition.defaultN burst := by
  refine ⟨by decide, fun pre hp => ?_, fun h => ?_⟩
  · have hlen : pre.length ≤ 1000 := hp.length_le.trans_eq List.length_replicate
    have hiss : issued pre ≤ pre.length := List.countP_le_length
    have hN : StCondition.defaultN.toNat - 1 = 1023 := rfl
    omega
  · have hout := noLoss_iff.mp h burst List.prefix_rfl
    rw [burst, outstanding_replicate] at hout
    exact absurd hout (by decide)

/-- A notification consumed at once, at the default `N`. -/
theorem condition_lossless_iff_pair :
    NoLoss StCondition.defaultN [.notify (), .poll] ↔
      ∀ pre, pre <+: ([.notify (), .poll] : List (CondLabel Unit)) → outstanding pre ≤ 999 :=
  (condition_lossless_iff StCondition.defaultN (by decide) [.notify (), .poll] (by
    intro pre hp
    have hlen : pre.length ≤ 2 := hp.length_le
    have hiss : issued pre ≤ pre.length := List.countP_le_length
    have hN : StCondition.defaultN.toNat - 1 = 1023 := rfl
    omega)).1

end StCoroutine.RingBuf
