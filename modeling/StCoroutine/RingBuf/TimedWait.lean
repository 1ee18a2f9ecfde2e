import StCoroutine.Kernel.Clock
import StCoroutine.RingBuf.Condition

/-!
# RingBuf — a wait with a timeout

`StCondition::wait(timeout)` of `srs_app_stcondition.hpp`, while others notify, wait, and update the
system time.  A run is the steps after the call: what is done by others, and the polls of the loop.

The loop reads the start-up time, which moves by the jumps of the clock only.
`timed_wait_iff`: the wait times out when it should exactly when at every poll of the empty ring the
jumps make up the timeout if and only if the system time does.
-/

set_option autoImplicit false

namespace StCoroutine.RingBuf
open Kernel Lts

variable {α : Type*}

/-- A `wait(timeout)` in progress, or with what it has returned, on a condition and the clock. -/
structure TimedWait (α : Type*) where
  cond : StCondition α
  clock : SystemTime
  usBeg : Int
  timeout : Int
  ret : Option Int

/-- A call of `notify()`, a poll of another wait, an update of the system time, or a poll of the
wait; `now` is what `_srs_gettimeofday` answers, if it is asked. -/
inductive WaitLabel (α : Type*) where
  | notify (notifyPkg : α)
  | other
  | update (now : Option Timeval)
  | poll (now : Option Timeval)

namespace TimedWait

/-- `wait(timeout)` is called. -/
def enter (cond : StCondition α) (clock : SystemTime) (timeout : Int) (now : Option Timeval) :
    TimedWait α :=
  let t := srsGetSystemStartupTime clock now
  ⟨cond, t.2, t.1, timeout, none⟩

/-- One round of the loop. -/
def poll (s : TimedWait α) (now : Option Timeval) : TimedWait α :=
  let r := s.cond.waitPoll none
  let s := { s with cond := r.2 }
  if r.1 then { s with ret := some 0 }
  else
    let t := srsGetSystemStartupTime s.clock now
    let s := { s with clock := t.2 }
    if t.1 - s.usBeg ≥ s.timeout then { s with ret := some (-1) } else s

def step (s : TimedWait α) : WaitLabel α → Option (TimedWait α)
  | .notify notifyPkg => some { s with cond := s.cond.notify notifyPkg }
  | .other => some { s with cond := (s.cond.waitPoll none).2 }
  | .update now => some { s with clock := (srsUpdateSystemTime s.clock now).2 }
  | .poll now => if s.ret.isSome then none else some (s.poll now)

/-- `P` holds of every poll of the wait in a run, of the steps before it and of its state. -/
def AtPolls (s₀ : TimedWait α) (ls : List (WaitLabel α))
    (P : List (WaitLabel α) → Option Timeval → TimedWait α → Prop) : Prop :=
  ∀ pre now post s, ls = pre ++ .poll now :: post → exec step s₀ pre = some s → P pre now s

/-- What a poll has to do, when the system time has advanced by `advanced` since the call. -/
structure Behaves (advanced : Int) (s s' : TimedWait α) : Prop where
  timesOut : s'.ret = some (-1) ↔ s.cond.pending = 0 ∧ s.timeout ≤ advanced
  succeeds : s'.ret = some 0 ↔ 0 < s.cond.pending
  consumes : s'.ret = some 0 → s'.cond.pending + 1 = s.cond.pending
  keeps : s'.ret ≠ some 0 → s'.cond = s.cond

end TimedWait

/-! ### The clock along a run -/

/-- What a step makes of the clock, as long as the polls find the ring empty. -/
def clockStep (t : SystemTime) : WaitLabel α → SystemTime
  | .update now => (srsUpdateSystemTime t now).2
  | .poll now => (srsGetSystemStartupTime t now).2
  | .notify _ | .other => t

def clockAfter (t : SystemTime) (ls : List (WaitLabel α)) : SystemTime := ls.foldl clockStep t

/-- The jump of the clock in a step. -/
def jumpStep (t : SystemTime) : WaitLabel α → Int
  | .update now => t.jump now
  | .poll now => if t.startup ≤ 0 then t.jump now else 0
  | .notify _ | .other => 0

/-- The jumps of the clock in a run, all together. -/
def jumps (t : SystemTime) : List (WaitLabel α) → Int
  | [] => 0
  | l :: ls => jumpStep t l + jumps (clockStep t l) ls

/-- How far the system time is at a poll, after the steps `pre`, from what it was at the call, where
`_srs_gettimeofday` would have answered `now₀`. -/
def advanced (t : SystemTime) (now₀ : Option Timeval) (pre : List (WaitLabel α))
    (now : Option Timeval) : Int :=
  (srsGetSystemTime (clockAfter t (pre ++ [.poll now])) now).1 - (srsGetSystemTime t now₀).1

theorem startup_clockStep (t : SystemTime) (l : WaitLabel α) :
    (clockStep t l).startup = t.startup + jumpStep t l := by
  cases l with
  | notify x => simp [clockStep, jumpStep]
  | other => simp [clockStep, jumpStep]
  | update now => exact t.startup_update now
  | poll now =>
      simp only [clockStep, jumpStep, srsGetSystemStartupTime]
      split
      · exact t.startup_update now
      · exact (Int.add_zero _).symm

/-- **The start-up time** moves by the jumps of the clock. -/
theorem startup_clockAfter (t : SystemTime) (ls : List (WaitLabel α)) :
    (clockAfter t ls).startup = t.startup + jumps t ls := by
  induction ls generalizing t with
  | nil => simp [clockAfter, jumps]
  | cons l ls ih =>
      have hcons : clockAfter t (l :: ls) = clockAfter (clockStep t l) ls := rfl
      rw [hcons, ih, startup_clockStep, jumps, Int.add_assoc]

theorem clockAfter_snoc (t : SystemTime) (ls : List (WaitLabel α)) (l : WaitLabel α) :
    clockAfter t (ls ++ [l]) = clockStep (clockAfter t ls) l := by
  simp [clockAfter, List.foldl_append]

/-! ### One poll -/

/-- A wait, after the steps `ls` since it was called when the clock was `t`. -/
structure Waiting (t : SystemTime) (ls : List (WaitLabel α)) (s : TimedWait α) : Prop where
  holds : ∃ n q, Holds s.cond.notifyRingbuf n q
  usBeg : s.usBeg = t.startup
  clock : s.ret = none → s.clock = clockAfter t ls

namespace Waiting

variable {t : SystemTime} {ls : List (WaitLabel α)} {s s' : TimedWait α} {l : WaitLabel α}

/-- What a poll of the empty ring compares with the timeout. -/
theorem startup_sub (h : Waiting t ls s) (hret : s.ret = none) (now : Option Timeval) :
    (srsGetSystemStartupTime s.clock now).1 - s.usBeg = jumps t (ls ++ [.poll now]) := by
  have hclock : (srsGetSystemStartupTime s.clock now).1 =
      (clockAfter t (ls ++ [.poll now])).startup := by
    rw [clockAfter_snoc, ← h.clock hret]
    rfl
  rw [hclock, startup_clockAfter, h.usBeg]
  omega

theorem poll_nil (h : Waiting t ls s) (hret : s.ret = none) (hp : s.cond.pending = 0)
    (now : Option Timeval) :
    (s.poll now).cond = s.cond ∧ (s.poll now).clock = clockAfter t (ls ++ [.poll now]) ∧
      (s.poll now).usBeg = s.usBeg ∧
      (s.poll now).ret = if s.timeout ≤ jumps t (ls ++ [.poll now]) then some (-1) else none := by
  obtain ⟨n, q, hq⟩ := h.holds
  rw [StCondition.pending_eq hq, List.length_eq_zero_iff] at hp
  subst hp
  have hpoll : s.poll now =
      if (srsGetSystemStartupTime s.clock now).1 - s.usBeg ≥ s.timeout
      then { s with clock := (srsGetSystemStartupTime s.clock now).2, ret := some (-1) }
      else { s with clock := (srsGetSystemStartupTime s.clock now).2 } := by
    simp only [TimedWait.poll, StCondition.waitPoll_nil hq]
    rfl
  have hclock : (srsGetSystemStartupTime s.clock now).2 = clockAfter t (ls ++ [.poll now]) := by
    rw [clockAfter_snoc, ← h.clock hret]
    rfl
  rw [hpoll, h.startup_sub hret, hclock]
  by_cases hdue : s.timeout ≤ jumps t (ls ++ [.poll now])
  · rw [if_pos hdue, if_pos hdue]
    exact ⟨rfl, rfl, rfl, rfl⟩
  · rw [if_neg hdue, if_neg hdue]
    exact ⟨rfl, rfl, rfl, hret⟩

theorem poll_cons (h : Waiting t ls s) (hp : 0 < s.cond.pending) (now : Option Timeval) :
    (∃ n q, Holds (s.poll now).cond.notifyRingbuf n q) ∧
      (s.poll now).cond.pending + 1 = s.cond.pending ∧ (s.poll now).usBeg = s.usBeg ∧
      (s.poll now).ret = some 0 := by
  obtain ⟨n, q, hq⟩ := h.holds
  rw [StCondition.pending_eq hq] at hp
  obtain ⟨p, q, rfl⟩ := List.exists_cons_of_length_pos hp
  obtain ⟨c', hc', hq'⟩ := StCondition.waitPoll_cons hq
  have hpoll : s.poll now = { s with cond := c', ret := some 0 } := by
    simp only [TimedWait.poll, hc']
    rfl
  rw [hpoll]
  refine ⟨⟨n, q, hq'⟩, ?_, rfl, rfl⟩
  rw [StCondition.pending_eq hq, StCondition.pending_eq hq', List.length_cons]

/-- **One poll** behaves exactly when, if the ring is empty, the jumps make up the timeout if and
only if the system time does. -/
theorem behaves_iff (h : Waiting t ls s) (hret : s.ret = none) (now : Option Timeval) (a : Int) :
    TimedWait.Behaves a s (s.poll now) ↔
      (s.cond.pending = 0 → (s.timeout ≤ jumps t (ls ++ [.poll now]) ↔ s.timeout ≤ a)) := by
  rcases Nat.eq_zero_or_pos s.cond.pending with hp | hp
  · obtain ⟨hcond, -, -, hr⟩ := h.poll_nil hret hp now
    have hne : (s.poll now).ret ≠ some 0 := by
      rw [hr]
      split
      · simp
      · simp
    have hdue : (s.poll now).ret = some (-1) ↔ s.timeout ≤ jumps t (ls ++ [.poll now]) := by
      rw [hr]
      split
      · next hle => exact iff_of_true rfl hle
      · next hle => exact iff_of_false (by simp) hle
    constructor
    · intro hb _
      rw [← hdue, hb.timesOut]
      exact and_iff_right hp
    · intro hiff
      refine ⟨?_, iff_of_false hne (by omega), fun hz => absurd hz hne, fun _ => hcond⟩
      rw [hdue, hiff hp]
      exact (and_iff_right hp).symm
  · obtain ⟨_, hcount, _, hr⟩ := h.poll_cons hp now
    refine iff_of_true ⟨?_, iff_of_true hr hp, fun _ => hcount, fun hne => absurd hr hne⟩ ?_
    · rw [hr]
      exact iff_of_false (by simp) fun hz => by omega
    · intro hz
      omega

/-- **One step** goes on with the wait. -/
theorem step (h : Waiting t ls s) (hs : s.step l = some s') : Waiting t (ls ++ [l]) s' := by
  cases l with
  | notify x =>
      cases hs
      obtain ⟨n, q, hq⟩ := h.holds
      refine ⟨⟨n, StCondition.notify_holds hq x⟩, h.usBeg, fun hret => ?_⟩
      rw [clockAfter_snoc, ← h.clock hret]
      rfl
  | other =>
      cases hs
      obtain ⟨n, q, hq⟩ := h.holds
      refine ⟨⟨n, StCondition.waitPoll_holds hq⟩, h.usBeg, fun hret => ?_⟩
      rw [clockAfter_snoc, ← h.clock hret]
      rfl
  | update now =>
      cases hs
      refine ⟨h.holds, h.usBeg, fun hret => ?_⟩
      rw [clockAfter_snoc, ← h.clock hret]
      rfl
  | poll now =>
      rw [TimedWait.step] at hs
      split at hs
      · cases hs
      · next hnone =>
          cases hs
          -- a poll that finds something leaves the loop without reading the clock
          have hret : s.ret = none := Option.not_isSome_iff_eq_none.mp hnone
          rcases Nat.eq_zero_or_pos s.cond.pending with hp | hp
          · obtain ⟨hcond, hclock, hbeg, _⟩ := h.poll_nil hret hp now
            exact ⟨hcond ▸ h.holds, hbeg.trans h.usBeg, fun _ => hclock⟩
          · obtain ⟨hholds, _, hbeg, hr⟩ := h.poll_cons hp now
            exact ⟨hholds, hbeg.trans h.usBeg, fun hz => absurd (hr.symm.trans hz) (by simp)⟩

end Waiting

/-! ### Whole runs -/

section run

variable {s s' : TimedWait α} {l : WaitLabel α} {ls : List (WaitLabel α)}

theorem timeout_poll (now : Option Timeval) : (s.poll now).timeout = s.timeout := by
  simp only [TimedWait.poll]
  split
  · rfl
  · split
    · rfl
    · rfl

theorem timeout_step (h : s.step l = some s') : s'.timeout = s.timeout := by
  cases l with
  | notify x => cases h; rfl
  | other => cases h; rfl
  | update now => cases h; rfl
  | poll now =>
      rw [TimedWait.step] at h
      split at h
      · cases h
      · cases h
        exact timeout_poll now

/-- A wait is called on a condition after any calls on it. -/
theorem waiting_enter (N : UInt32) (ls₀ : List (CondLabel α)) (clock : SystemTime) (timeout : Int)
    (now₀ : Option Timeval) :
    Waiting (TimedWait.enter (condRun N ls₀).cond clock timeout now₀).clock []
      (TimedWait.enter (condRun N ls₀).cond clock timeout now₀) := by
  obtain ⟨q, hq⟩ := condRun_holds N ls₀
  exact ⟨⟨sizeOf N, q, hq⟩, rfl, fun _ => rfl⟩

/-- A run of a wait, and the clock when it was called. -/
theorem waiting_run {s₀ : TimedWait α} (h₀ : Waiting s₀.clock [] s₀)
    (h : exec TimedWait.step s₀ ls = some s) :
    Waiting s₀.clock ls s ∧ s.timeout = s₀.timeout := by
  refine exec_ind (P := fun ls s => Waiting s₀.clock ls s ∧ s.timeout = s₀.timeout)
    ⟨h₀, rfl⟩ ?_ h
  rintro ls s l s' - ⟨hw, htimeout⟩ hs
  exact ⟨hw.step hs, (timeout_step hs).trans htimeout⟩

/-- The wait is still in its loop when it polls. -/
theorem ret_of_poll {s₀ m : TimedWait α} {pre post : List (WaitLabel α)} {now : Option Timeval}
    (h : exec TimedWait.step s₀ ls = some s) (e : ls = pre ++ .poll now :: post)
    (hm : exec TimedWait.step s₀ pre = some m) : m.ret = none := by
  rw [e] at h
  obtain ⟨m', hm', h⟩ := exec_append.mp h
  obtain ⟨s', hs, -⟩ := exec_cons.mp h
  obtain rfl : m' = m := Option.some.inj (hm'.symm.trans hm)
  rw [TimedWait.step] at hs
  split at hs
  · cases hs
  · next hnone => exact Option.not_isSome_iff_eq_none.mp hnone

/-- **A wait with a timeout.**  At all polls of a run of `wait(timeout)`, whatever is notified,
consumed by others and done to the clock in between, it returns `-1` exactly when the ring is empty
and the system time has advanced by the timeout since the call, and `0` exactly by consuming one
notification, if and only if at every poll of the empty ring the jumps of the clock since the call
make up the timeout exactly when the system time does. -/
theorem timed_wait_iff (N : UInt32) (ls₀ : List (CondLabel α)) (clock : SystemTime) (timeout : Int)
    (now₀ : Option Timeval) {s₀ : TimedWait α}
    (h₀ : s₀ = .enter (condRun N ls₀).cond clock timeout now₀)
    (h : exec TimedWait.step s₀ ls = some s) :
    s₀.AtPolls ls (fun pre now m =>
        TimedWait.Behaves (advanced s₀.clock now₀ pre now) m (m.poll now)) ↔
      s₀.AtPolls ls fun pre now m => m.cond.pending = 0 →
        (timeout ≤ jumps s₀.clock (pre ++ [.poll now]) ↔
          timeout ≤ advanced s₀.clock now₀ pre now) := by
  have hinit : Waiting s₀.clock [] s₀ := h₀ ▸ waiting_enter N ls₀ clock timeout now₀
  have htimeout : s₀.timeout = timeout := by rw [h₀]; rfl
  have hpoll : ∀ pre now post m, ls = pre ++ .poll now :: post →
      exec TimedWait.step s₀ pre = some m →
      (TimedWait.Behaves (advanced s₀.clock now₀ pre now) m (m.poll now) ↔
        (m.cond.pending = 0 → (timeout ≤ jumps s₀.clock (pre ++ [.poll now]) ↔
          timeout ≤ advanced s₀.clock now₀ pre now))) := by
    -- both sides are about the same polls, one by one
    intro pre now post m e hm
    obtain ⟨hw, ht⟩ := waiting_run hinit hm
    rw [hw.behaves_iff (ret_of_poll h e hm) now, ht, htimeout]
  constructor
  · intro H pre now post m e hm
    exact (hpoll pre now post m e hm).mp (H pre now post m e hm)
  · intro H pre now post m e hm
    exact (hpoll pre now post m e hm).mpr (H pre now post m e hm)

/-- **Without jumps** of the clock the wait never times out, however long it is. -/
theorem not_timedOut_of_no_jump {s₀ : TimedWait α} (h₀ : Waiting s₀.clock [] s₀)
    (hret : s₀.ret = none) (htimeout : 0 < s₀.timeout)
    (hjumps : ∀ pre, pre <+: ls → jumps s₀.clock pre = 0)
    (h : exec TimedWait.step s₀ ls = some s) : s.ret ≠ some (-1) := by
  refine exec_ind (P := fun ls s => (∀ pre, pre <+: ls → jumps s₀.clock pre = 0) →
    s.ret ≠ some (-1)) (fun _ => by simp [hret]) ?_ h hjumps
  intro ls s l s' hm ih hs hjumps
  have hbefore := ih fun pre hp => hjumps pre (hp.trans (List.prefix_append ls [l]))
  obtain ⟨hw, ht⟩ := waiting_run h₀ hm
  cases l with
  | notify x => cases hs; exact hbefore
  | other => cases hs; exact hbefore
  | update now => cases hs; exact hbefore
  | poll now =>
      rw [TimedWait.step] at hs
      split at hs
      · cases hs
      · next hnone =>
          cases hs
          rcases Nat.eq_zero_or_pos s.cond.pending with hp | hp
          · obtain ⟨_, _, _, hr⟩ :=
              hw.poll_nil (Option.not_isSome_iff_eq_none.mp hnone) hp now
            rw [hr, hjumps _ List.prefix_rfl, ht, if_neg (Int.not_le.mpr htimeout)]
            simp
          · obtain ⟨_, _, _, hr⟩ := hw.poll_cons hp now
            rw [hr]
            simp

/-- The wait of a run that starts at 1,000,000 seconds, with a timeout of a second, and with no
notification in the ring. -/
def aSecond : TimedWait Unit :=
  .enter (condRun 4 []).cond ⟨1000000000000, 1000000000000⟩ 1000000 none

/-- Ten minutes later it times out, as it should. -/
theorem timed_wait_iff_jump :
    aSecond.AtPolls [.update (some ⟨1000600, 0⟩), .poll none] fun pre now m =>
      TimedWait.Behaves (advanced aSecond.clock none pre now) m (m.poll now) := by
  obtain ⟨s, hs⟩ : ∃ s, exec TimedWait.step aSecond
      [.update (some ⟨1000600, 0⟩), .poll none] = some s := ⟨_, rfl⟩
  refine (timed_wait_iff 4 [] _ 1000000 none rfl hs).mpr ?_
  intro pre now post m e _ _
  match pre with
  | [] => cases e
  | [l] =>
      cases e
      decide
  | l :: k :: pre =>
      have hlen := congrArg List.length e
      simp at hlen

/-- Ten seconds later it goes on, where it should time out. -/
theorem timeout_missed :
    ¬aSecond.AtPolls [.update (some ⟨1000010, 0⟩), .poll none] fun pre now m =>
      TimedWait.Behaves (advanced aSecond.clock none pre now) m (m.poll now) := by
  intro h
  have hb := h [.update (some ⟨1000010, 0⟩)] none [] _ rfl rfl
  exact absurd (hb.timesOut.mpr ⟨by decide, by decide⟩) (by decide)

end run

end StCoroutine.RingBuf
