import StCoroutine.Sched.Model

/-!
# Wake — the threads of the scheduler, each in one place

A thread record says where the thread is in the code and in which state, and the queues of the
scheduler say the same: `Core s run` is that they agree.  Everything the scheduler does changes one
thread record and the queues that thread is on, so `Core.update` is the one lemma that shows
`Core`: the others are cases of it.

`Wake s why t s'` is that a blocked thread was made runnable, by a signal, the clock, an interrupt,
a ready descriptor or the unlock of a mutex.  The loops that make threads runnable are sequences
of such steps (`Woken`): that is all they do.
-/

set_option autoImplicit false

namespace StCoroutine.Sched

/-- The state in which a thread waits that a call switched out. -/
def Call.waitState : Call → State
  | .join _ | .condWait _ _ => .condWait
  | .mutexLock _ => .lockWait
  | .usleep usecs => if usecs ≠ noTimeout then .sleeping else .suspended
  | .poll _ _ => .ioWait
  | .create _ | .exit _ | .yield _ | .interrupt _ | .condSignal _ | .condBroadcast _
  | .mutexUnlock _ | .mutexTrylock _ => .runnable

/-- The calls that switch to another thread and go on behind the switch. -/
def Call.Blocks : Call → Prop
  | .join _ | .condWait _ _ | .mutexLock _ | .usleep _ | .poll _ _ | .yield _ => True
  | .create _ | .exit _ | .interrupt _ | .condSignal _ | .condBroadcast _ | .mutexUnlock _
  | .mutexTrylock _ => False

/-- Neither running, nor to be run, nor dead: the thread waits for something. -/
def State.Blocked : State → Prop
  | .running | .runnable | .zombie => False
  | .ioWait | .lockWait | .condWait | .sleeping | .suspended => True

/-- The states that a timeout ends. -/
def State.Timed : State → Prop
  | .sleeping | .condWait | .ioWait => True
  | .running | .runnable | .lockWait | .zombie | .suspended => False

/-- The states a thread can be in at a place in the code. -/
def Pc.Allows : Pc → State → Prop
  | .start, st | .idle, st => st = .runnable ∨ st = .running
  | .user, st => st = .running
  | .inside c, st => c.Blocks ∧ (st = c.waitState ∨ st = .runnable ∨ st = .running)
  | .exit, st => st = .zombie ∨ st = .runnable ∨ st = .running
  | .gone, st => st ≠ .zombie

/-- The state of a thread fits its place in the code, and only one that waits for a timeout is on
the sleep queue. -/
structure Thread.Ok (th : Thread) : Prop where
  state : th.pc.Allows th.state
  timed : th.onSleepq = true → th.state.Timed ∧ th.pc ≠ .gone

namespace Vp

variable {s s' : Vp} {run run' : Option Tid} {t u me : Tid} {th : Thread}

/-- **Each thread is in one place.**  `run` is the thread that runs, if one does. -/
structure Core (s : Vp) (run : Option Tid) : Prop where
  ok : ∀ t, (s.thread t).Ok
  fresh : ∀ t, s.next ≤ t → ¬ s.Live t
  idle : ∀ t, (s.thread t).pc = .idle ↔ t = s.idleThread
  running : ∀ t, s.Live t → ((s.thread t).state = .running ↔ run = some t)
  runs : ∀ t, run = some t → s.Live t
  runq : ∀ t, t ∈ s.runq ↔ s.Live t ∧ t ≠ s.idleThread ∧ (s.thread t).state = .runnable
  runqNodup : s.runq.Nodup
  zombieq : ∀ t, t ∈ s.zombieq ↔ s.Live t ∧ (s.thread t).state = .zombie
  zombieqNodup : s.zombieq.Nodup
  heap : s.heap.Sleeps fun t => (s.thread t).onSleepq = true

/-- **One thread record is changed**, and the queues with it. -/
theorem Core.update (I : Core s run) (hthread : s'.thread = Function.update s.thread t th)
    (hnext : s.next ≤ s'.next) (hidle : s'.idleThread = s.idleThread) (hok : th.Ok)
    (hfresh : th.pc ≠ .gone → t < s'.next) (hpc : th.pc = .idle ↔ t = s.idleThread)
    (hrun : ∀ u, u ≠ t → (run' = some u ↔ run = some u))
    (hrunt : th.pc ≠ .gone → (th.state = .running ↔ run' = some t))
    (hlive : run' = some t → th.pc ≠ .gone)
    (hrunq : ∀ u, u ∈ s'.runq ↔ if u = t then th.pc ≠ .gone ∧ t ≠ s.idleThread ∧
      th.state = .runnable else u ∈ s.runq) (hrunqn : s'.runq.Nodup)
    (hzom : ∀ u, u ∈ s'.zombieq ↔ if u = t then th.pc ≠ .gone ∧ th.state = .zombie
      else u ∈ s.zombieq) (hzomn : s'.zombieq.Nodup)
    (hheap : s'.heap.Sleeps fun u => if u = t then th.onSleepq = true
      else (s.thread u).onSleepq = true) : Core s' run' := by
  have hself : s'.thread t = th := by rw [hthread, Function.update_self]
  have hother : ∀ u, u ≠ t → s'.thread u = s.thread u := fun u hu => by
    rw [hthread, Function.update_of_ne hu]
  refine ⟨fun u => ?_, fun u hu => ?_, fun u => ?_, fun u => ?_, fun u hu => ?_, fun u => ?_,
    hrunqn, fun u => ?_, hzomn, hheap.congr fun u => ?_⟩ <;> by_cases hut : u = t
  · rw [hut, hself]
    exact hok
  · rw [hother u hut]
    exact I.ok u
  · subst hut
    intro hl
    rw [Live, hself] at hl
    exact Nat.not_lt.mpr hu (hfresh hl)
  · rw [Live, hother u hut]
    exact I.fresh u (Nat.le_trans hnext hu)
  · rw [hut, hself, hidle]
    exact hpc
  · rw [hother u hut, hidle]
    exact I.idle u
  · subst hut
    rw [Live, hself]
    exact hrunt
  · rw [Live, hother u hut, hrun u hut]
    exact I.running u
  · subst hut
    rw [Live, hself]
    exact hlive hu
  · rw [Live, hother u hut]
    exact I.runs u ((hrun u hut).mp hu)
  · subst hut
    rw [hrunq, if_pos rfl, Live, hself, hidle]
  · rw [hrunq, if_neg hut, Live, hother u hut, hidle]
    exact I.runq u
  · subst hut
    rw [hzom, if_pos rfl, Live, hself]
  · rw [hzom, if_neg hut, Live, hother u hut]
    exact I.zombieq u
  · rw [hut, if_pos rfl, hself]
  · rw [if_neg hut, hother u hut]

/-- Only these fields matter. -/
theorem Core.congr (I : Core s run) (hthread : s'.thread = s.thread) (hheap : s'.heap = s.heap)
    (hidle : s'.idleThread = s.idleThread) (hrunq : s'.runq = s.runq)
    (hzom : s'.zombieq = s.zombieq) (hnext : s'.next = s.next) : Core s' run := by
  constructor <;> simp only [Live, hthread, hheap, hidle, hrunq, hzom, hnext]
  exacts [I.ok, I.fresh, I.idle, I.running, I.runs, I.runq, I.runqNodup, I.zombieq,
    I.zombieqNodup, I.heap]

/-- A change that leaves the thread where it is. -/
theorem Core.modify (I : Core s run) (hthread : s'.thread = Function.update s.thread t th)
    (hheap : s'.heap = s.heap) (hidle : s'.idleThread = s.idleThread) (hrunq : s'.runq = s.runq)
    (hzom : s'.zombieq = s.zombieq) (hnext : s'.next = s.next) (hok : th.Ok)
    (hstate : th.state = (s.thread t).state) (hsleep : th.onSleepq = (s.thread t).onSleepq)
    (hlive : th.pc ≠ .gone ↔ s.Live t) (hpc : th.pc = .idle ↔ (s.thread t).pc = .idle) :
    Core s' run := by
  refine I.update hthread (Nat.le_of_eq hnext.symm) hidle hok (fun h => ?_)
    (hpc.trans (I.idle t)) (fun _ _ => Iff.rfl) (fun h => ?_) (fun h => ?_) (fun u => ?_)
    (hrunq ▸ I.runqNodup) (fun u => ?_) (hzom ▸ I.zombieqNodup) ?_
  · rw [hnext]
    exact Nat.lt_of_not_le fun hle => I.fresh t hle (hlive.mp h)
  · rw [hstate]
    exact I.running t (hlive.mp h)
  · exact hlive.mpr (I.runs t h)
  · split
    next hu => rw [hrunq, hu, I.runq, hlive, hstate]
    next => rw [hrunq]
  · split
    next hu => rw [hzom, hu, I.zombieq, hlive, hstate]
    next => rw [hzom]
  · rw [hheap]
    refine I.heap.congr fun u => ?_
    split
    next hu => rw [hu, hsleep]
    next => exact Iff.rfl

/-! ### One thread is made runnable -/

/-- Why a blocked thread is made runnable. -/
inductive Why where
  | signal
  | timeout (now : Nat)
  | interrupt
  | ready
  | handover (m : Mid)
  deriving DecidableEq

/-- What is the case when it is. -/
def Why.Holds (s : Vp) (t : Tid) : Why → Prop
  | .signal => (s.thread t).state = .condWait
  | .timeout now => (s.thread t).onSleepq = true ∧ s.heap.due t ≤ now
  | .interrupt => (s.thread t).interrupt = true
  | .ready => t ∈ s.ioq
  | .handover m => s.owner m = some t ∧ t ∈ s.lockq m

/-- The thread after it was made runnable: a timeout is flagged where it ends a wait on a condition
variable. -/
def Why.thread (th : Thread) : Why → Thread
  | .timeout _ => { th with
      state := .runnable, onSleepq := false, timedout := th.timedout || th.state = .condWait }
  | .signal | .interrupt | .ready | .handover _ => { th with state := .runnable, onSleepq := false }

/-- The thread `t` is made runnable: only the clock puts it at the head of the run queue. -/
def wake (s : Vp) (why : Why) (t : Tid) (q : SleepQ) : Vp :=
  { s with
    thread := Function.update s.thread t (why.thread (s.thread t))
    heap := q
    runq := match why with
      | .timeout _ => t :: s.runq
      | .signal | .interrupt | .ready | .handover _ => s.runq ++ [t]
    ioq := match why with
      | .ready => s.ioq.erase t
      | .signal | .timeout _ | .interrupt | .handover _ => s.ioq }

/-- A blocked thread is made runnable. -/
structure Wake (s : Vp) (why : Why) (t : Tid) (s' : Vp) : Prop where
  live : s.Live t
  blocked : (s.thread t).state.Blocked
  reason : why.Holds s t
  eq : ∃ q, s' = s.wake why t q ∧ q.Sleeps (fun u => (s.thread u).onSleepq = true ∧ u ≠ t) ∧
    q.due = s.heap.due

/-- Threads are made runnable, one after the other. -/
inductive Woken : Vp → List (Why × Tid) → Vp → Prop where
  | nil (s : Vp) : Woken s [] s
  | cons {s s₁ s₂ : Vp} {why : Why} {t : Tid} {ws : List (Why × Tid)} (h : Wake s why t s₁)
      (hs : Woken s₁ ws s₂) : Woken s ((why, t) :: ws) s₂

variable {why : Why} {ws ws' : List (Why × Tid)}

@[simp] theorem Why.thread_state : (why.thread th).state = .runnable := by cases why <;> rfl

@[simp] theorem Why.thread_onSleepq : (why.thread th).onSleepq = false := by cases why <;> rfl

@[simp] theorem Why.thread_pc : (why.thread th).pc = th.pc := by cases why <;> rfl

@[simp] theorem Why.thread_interrupt : (why.thread th).interrupt = th.interrupt := by
  cases why <;> rfl

@[simp] theorem Why.thread_joinable : (why.thread th).joinable = th.joinable := by
  cases why <;> rfl

@[simp] theorem Why.thread_retval : (why.thread th).retval = th.retval := by cases why <;> rfl

/-- A blocked thread waits in a call. -/
theorem Core.inside_of_blocked (I : Core s run) (hl : s.Live t)
    (hb : (s.thread t).state.Blocked) :
    ∃ c, (s.thread t).pc = .inside c ∧ c.Blocks ∧ (s.thread t).state = c.waitState := by
  have hok := (I.ok t).state
  cases hpc : (s.thread t).pc with
  | inside c =>
      rw [hpc] at hok
      obtain ⟨hblocks, hst⟩ := hok
      rcases hst with hst | hst | hst
      · exact ⟨c, rfl, hblocks, hst⟩
      · rw [hst] at hb
        exact hb.elim
      · rw [hst] at hb
        exact hb.elim
  | gone => exact absurd hpc hl
  | start | idle =>
      rw [hpc] at hok
      rcases hok with hst | hst <;> rw [hst] at hb <;> exact hb.elim
  | user =>
      rw [hpc] at hok
      rw [show (s.thread t).state = .running from hok] at hb
      exact hb.elim
  | exit =>
      rw [hpc] at hok
      rcases hok with hst | hst | hst <;> rw [hst] at hb <;> exact hb.elim

theorem Core.not_idle_of_blocked (I : Core s run) (hl : s.Live t)
    (hb : (s.thread t).state.Blocked) : t ≠ s.idleThread := by
  obtain ⟨c, hpc, -⟩ := I.inside_of_blocked hl hb
  intro e
  have := (I.idle t).mpr e
  rw [hpc] at this
  cases this

theorem Core.lt_next (I : Core s run) (hl : s.Live t) : t < s.next :=
  Nat.lt_of_not_le fun hle => I.fresh t hle hl

/-- **A thread that is made runnable** leaves the queues of its wait for the run queue. -/
theorem Core.wake (I : Core s run) (W : Wake s why t s') : Core s' run := by
  obtain ⟨q, rfl, hq, -⟩ := W.eq
  obtain ⟨c, hpc, hblocks, -⟩ := I.inside_of_blocked W.live W.blocked
  have hni := I.not_idle_of_blocked W.live W.blocked
  have hnr : (s.thread t).state ≠ .running := fun e => by
    have := W.blocked
    rw [e] at this
    exact this
  have hnotin : t ∉ s.runq := fun h => by
    have := W.blocked
    rw [((I.runq t).mp h).2.2] at this
    exact this
  have hnz : t ∉ s.zombieq := fun h => by
    have := W.blocked
    rw [((I.zombieq t).mp h).2] at this
    exact this
  have hmem : ∀ u, u ∈ (s.wake why t q).runq ↔ u ∈ s.runq ∨ u = t := by
    intro u
    cases why <;> simp [Vp.wake, or_comm]
  refine I.update (show _ = Function.update s.thread t (why.thread (s.thread t)) from rfl)
    (Nat.le_refl _) rfl
    ⟨?_, fun h => by simp at h⟩ (fun _ => I.lt_next W.live) (by rw [Why.thread_pc]; exact I.idle t)
    (fun _ _ => Iff.rfl) (fun _ => ?_) (fun h => by rw [Why.thread_pc]; exact I.runs t h)
    (fun u => ?_) ?_ (fun u => ?_) I.zombieqNodup (hq.congr fun u => ?_)
  · rw [Why.thread_pc, Why.thread_state, hpc]
    exact ⟨hblocks, .inr (.inl rfl)⟩
  · rw [Why.thread_state]
    exact iff_of_false (by simp) fun h => hnr ((I.running t W.live).mpr h)
  · rw [hmem]
    split
    next hu => exact iff_of_true (.inr hu) ⟨by rw [Why.thread_pc]; exact W.live, hni, by simp⟩
    next hu => simp [hu]
  · cases why <;> simp [Vp.wake, List.nodup_append, I.runqNodup, hnotin]
    all_goals exact fun a ha e => hnotin (e ▸ ha)
  · show u ∈ s.zombieq ↔ _
    split
    next hu => exact iff_of_false (hu ▸ hnz) (by simp)
    next => exact Iff.rfl
  · split
    next hu => simp [hu]
    next hu => simp [hu]

theorem Core.woken (I : Core s run) (W : Woken s ws s') : Core s' run := by
  induction W with
  | nil => exact I
  | cons h _ ih => exact ih (I.wake h)

end Vp

end StCoroutine.Sched
