import StCoroutine.Sched.Switch

/-!
# Turn — what a step of the scheduler does

`Turn s l s' evs` lists what the step `l` can do from `s`, guards included: the call is refused, or
interrupted, or returns; its thread is parked on the queue of the call and another thread runs; or
a thread goes on behind its switch.  `act_turn` is that a step does one of these, and that every
enabled step can be taken: no queue is followed into `NULL`, and no loop is without end.

It rests on two facts about the queues besides `Core`: a queue holds the threads that are behind
the switch of a call on it (`Queued`), and the idle thread only runs when nothing else can.
-/

set_option autoImplicit false

namespace StCoroutine.Sched

/-- The condition variable that a thread waits on. -/
def Pc.cond : Pc → Option Cid
  | .inside (.condWait c _) => some (.user c)
  | .inside (.join t) => some (.term t)
  | _ => none

/-- The mutex that a thread waits for. -/
def Pc.lock : Pc → Option Mid
  | .inside (.mutexLock m) => some m
  | _ => none

/-- The thread is in `st_poll`. -/
def Pc.Polls : Pc → Prop
  | .inside (.poll _ _) => True
  | _ => False

/-- The timeout of a call that waits. -/
def Call.timeout : Call → Nat
  | .usleep usecs => usecs
  | .condWait _ timeout => timeout
  | .poll _ timeout => timeout
  | _ => noTimeout

namespace Vp

variable {s s' : Vp} {run : Option Tid} {t u me : Tid} {th : Thread} {b : Bool} {q : SleepQ}
  {c : Call} {l : Label} {evs : List Ev}

/-- **The queues hold the threads that wait on them**, each once. -/
structure Queued (s : Vp) : Prop where
  waitq : ∀ c t, t ∈ s.waitq c ↔ (s.thread t).pc.cond = some c
  waitqNodup : ∀ c, (s.waitq c).Nodup
  lockq : ∀ m t, t ∈ s.lockq m ↔ (s.thread t).pc.lock = some m
  lockqNodup : ∀ m, (s.lockq m).Nodup
  ioq : ∀ t, t ∈ s.ioq → (s.thread t).pc.Polls
  ioqNodup : s.ioq.Nodup
  ioWait : ∀ t, s.Live t → (s.thread t).state = .ioWait → t ∈ s.ioq

/-- The idle thread runs when no other can. -/
def IdleLast (s : Vp) : Prop := s.current = s.idleThread → s.runq = []

/-- The current thread is put on the queue of the call. -/
def enqueue (s : Vp) : Call → Vp
  | .condWait c _ =>
      { s with waitq := Function.update s.waitq (.user c) (s.waitq (.user c) ++ [s.current]) }
  | .join t =>
      { s with waitq := Function.update s.waitq (.term t) (s.waitq (.term t) ++ [s.current]) }
  | .mutexLock m => { s with lockq := Function.update s.lockq m (s.lockq m ++ [s.current]) }
  | .poll _ _ => { s with ioq := s.ioq ++ [s.current] }
  | _ => s

/-- The current thread is taken off it. -/
def dequeue (s : Vp) : Call → Vp
  | .condWait c _ =>
      { s with waitq := Function.update s.waitq (.user c) ((s.waitq (.user c)).erase s.current) }
  | .join t =>
      { s with waitq := Function.update s.waitq (.term t) ((s.waitq (.term t)).erase s.current) }
  | .mutexLock m => { s with lockq := Function.update s.lockq m ((s.lockq m).erase s.current) }
  | .poll _ _ => { s with ioq := s.ioq.erase s.current }
  | _ => s

/-- The record of the current thread is `th`. -/
def setCurrent (s : Vp) (th : Thread) : Vp :=
  { s with thread := Function.update s.thread s.current th }

/-- The call is refused, with what it returns. -/
def Refused (s : Vp) : Call → Ret → Prop
  | .join t, r => (r = .EINVAL ∧ ((s.thread t).joinable = false ∨ s.waitq (.term t) ≠ [])) ∨
      (r = .EDEADLK ∧ s.current = t)
  | .mutexLock m, r => r = .EDEADLK ∧ s.owner m = some s.current
  | .mutexUnlock m, r => r = .EPERM ∧ s.owner m ≠ some s.current
  | .mutexTrylock m, r => r = .EBUSY ∧ s.owner m ≠ none
  | .poll added _, r => r = .EINVAL ∧ added = false
  | .interrupt t, r => r = .ok ∧ (s.thread t).state = .zombie
  | _, _ => False

/-- The call waits, where the current thread is not interrupted. -/
def Waits (s : Vp) : Call → Prop
  | .join t => (s.thread t).state ≠ .zombie ∧ (s.thread t).joinable = true ∧ s.current ≠ t ∧
      s.waitq (.term t) = [] ∧ s.Live t
  | .mutexLock m => s.owner m ≠ none ∧ s.owner m ≠ some s.current
  | .poll added _ => added = true
  | .usleep _ | .condWait _ _ => True
  | _ => False

/-- The sleep queue with the current thread on it, when the call has a timeout. -/
structure Bedded (s : Vp) (timeout : Nat) (b : Bool) (q : SleepQ) : Prop where
  beds : s.Beds b q
  timed : b = true ↔ timeout ≠ noTimeout
  due : q.due = if b = true then
    Function.update s.heap.due s.current ((s.lastClock + timeout) % 2 ^ 64) else s.heap.due

/-- What a call returns behind its switch. -/
def result (s : Vp) : Call → Ret
  | .condWait _ _ | .join _ =>
      if (s.thread s.current).interrupt then .EINTR
      else if (s.thread s.current).timedout then .ETIME else .ok
  | .mutexLock m =>
      if (s.thread s.current).interrupt = true ∧ s.owner m ≠ some s.current then .EINTR else .ok
  | .usleep _ => if (s.thread s.current).interrupt then .EINTR else .ok
  | .poll _ _ =>
      if (s.thread s.current).interrupt then .EINTR else .polled !(s.current ∈ s.ioq : Bool)
  | _ => .ok

/-- The current thread behind its switch: an interrupt is cleared where it is returned, and a
timeout where the wait was on a condition variable. -/
def backThread (s : Vp) (c : Call) : Thread :=
  { s.thread s.current with
    pc := .user
    interrupt := if s.result c = .EINTR then false else (s.thread s.current).interrupt
    timedout := if ((s.thread s.current).pc.cond).isSome then false
      else (s.thread s.current).timedout }

/-- The thread of a signal: the first that still waits. -/
def signalled (s : Vp) (broadcast : Bool) (c : Cid) : List (Why × Tid) :=
  (if broadcast then s.waiters (s.waitq c) else (s.waiters (s.waitq c)).take 1).map
    fun t => (.signal, t)

/-- The threads `ts` are those that are due, the first ones first. -/
structure Expired (s : Vp) (now : Nat) (ts : List Tid) : Prop where
  mem : ∀ t, t ∈ ts ↔ (s.thread t).onSleepq = true ∧ s.heap.due t ≤ now
  sorted : ts.Pairwise fun t u => s.heap.due t ≤ s.heap.due u

/-- `thread->retval = retval; _st_active_count--`. -/
def ended (s : Vp) (retval : Nat) : Vp :=
  { s.setCurrent { s.thread s.current with retval := retval } with
    activeCount := s.activeCount - 1 }

/-- The current thread ended, and is on the zombie queue. -/
def buried (s : Vp) (retval : Nat) : Vp :=
  { (s.ended retval).park .zombie false s.heap .exit with zombieq := s.zombieq ++ [s.current] }

/-- **What a step does**, and what it shows. -/
inductive Turn (s : Vp) : Label → Vp → List Ev → Prop where
  | create (joinable : Bool) :
      Turn s (.call (.create joinable)) (s.threadCreate joinable)
        [.enter s.current (.create joinable) s.lastClock,
          .leave s.current (.create joinable) (.thread s.next)]
  | refused {c : Call} {r : Ret} (h : s.Refused c r) :
      Turn s (.call c) s [.enter s.current c s.lastClock, .leave s.current c r]
  | interrupted {c : Call} (h : (s.thread s.current).interrupt = true)
      (hc : c.Blocks) (hy : ∀ now, c ≠ .yield now) :
      Turn s (.call c) (s.clearInterrupt s.current)
        [.enter s.current c s.lastClock, .leave s.current c .EINTR]
  | waits {c : Call} {b : Bool} {q : SleepQ} (h : (s.thread s.current).interrupt = false)
      (hw : s.Waits c) (hq : s.Bedded c.timeout b q) :
      Turn s (.call c) ((s.enqueue c).park c.waitState b q (.inside c)).schedule
        [.enter s.current c s.lastClock]
  | signals {n : Nat} {broadcast : Bool} {s' : Vp}
      (W : Woken s (s.signalled broadcast (.user n)) s') :
      Turn s (.call (if broadcast then .condBroadcast n else .condSignal n)) s'
        [.enter s.current (if broadcast then .condBroadcast n else .condSignal n) s.lastClock,
          .leave s.current (if broadcast then .condBroadcast n else .condSignal n) .ok]
  | locks {m : Mid} {c : Call} (h : c = .mutexLock m ∨ c = .mutexTrylock m)
      (hi : c = .mutexLock m → (s.thread s.current).interrupt = false)
      (ho : s.owner m = none) :
      Turn s (.call c) { s with owner := Function.update s.owner m (some s.current) }
        [.enter s.current c s.lastClock, .leave s.current c .ok]
  | unlocks {m : Mid} (ho : s.owner m = some s.current)
      (hn : ∀ t ∈ s.lockq m, (s.thread t).state ≠ .lockWait) :
      Turn s (.call (.mutexUnlock m)) { s with owner := Function.update s.owner m none }
        [.enter s.current (.mutexUnlock m) s.lastClock,
          .leave s.current (.mutexUnlock m) .ok]
  | handsOver {m : Mid} {t : Tid} {s' : Vp} {pre post : List Tid}
      (ho : s.owner m = some s.current) (hq : s.lockq m = pre ++ t :: post)
      (hpre : ∀ u ∈ pre, (s.thread u).state ≠ .lockWait)
      (ht : (s.thread t).state = .lockWait)
      (W : Wake { s with owner := Function.update s.owner m (some t) } (.handover m) t s') :
      Turn s (.call (.mutexUnlock m)) s'
        [.enter s.current (.mutexUnlock m) s.lastClock,
          .leave s.current (.mutexUnlock m) .ok]
  | flags {t : Tid} (hl : s.Live t) (hni : t ≠ s.idleThread)
      (h : (s.thread t).state = .running ∨ (s.thread t).state = .runnable) :
      Turn s (.call (.interrupt t)) (s.modify t fun th => { th with interrupt := true })
        [.enter s.current (.interrupt t) s.lastClock, .leave s.current (.interrupt t) .ok]
  | interrupts {t : Tid} {s' : Vp} (hl : s.Live t)
      (W : Wake (s.modify t fun th => { th with interrupt := true }) .interrupt t s') :
      Turn s (.call (.interrupt t)) s'
        [.enter s.current (.interrupt t) s.lastClock, .leave s.current (.interrupt t) .ok]
  | yields {now : Nat} {ts : List Tid} {s' : Vp} (hts : s.Expired now ts)
      (W : Woken { s with lastClock := now } (ts.map fun t => (.timeout now, t)) s')
      (hr : s'.runq ≠ []) :
      Turn s (.call (.yield now))
        ({ s'.park .runnable false s'.heap (.inside (.yield now)) with
          runq := s'.runq ++ [s'.current] } : Vp).schedule
        [.enter s.current (.yield now) s.lastClock, .clock now]
  | stays {now : Nat} {ts : List Tid} {s' : Vp} (hts : s.Expired now ts)
      (W : Woken { s with lastClock := now } (ts.map fun t => (.timeout now, t)) s')
      (hr : s'.runq = []) :
      Turn s (.call (.yield now)) s'
        [.enter s.current (.yield now) s.lastClock, .clock now,
          .leave s.current (.yield now) .ok]
  | exits {retval : Nat} (h : (s.thread s.current).joinable = false) :
      Turn s (.call (.exit retval))
        ((s.ended retval).park .running false s.heap .gone).schedule
        [.enter s.current (.exit retval) s.lastClock]
  | dies {retval : Nat} {s' : Vp} (h : (s.thread s.current).joinable = true)
      (W : Woken (s.buried retval) (s.signalled false (.term s.current)) s') :
      Turn s (.call (.exit retval)) s'.schedule
        [.enter s.current (.exit retval) s.lastClock]
  | joins {t : Tid} (hl : s.Live t) (hne : s.current ≠ t)
      (hj : (s.thread t).joinable = true) (hq : s.waitq (.term t) = [])
      (hz : (s.thread t).state = .zombie) :
      Turn s (.call (.join t))
        (({ s with zombieq := s.zombieq.erase t } : Vp).makeRunnable t)
        [.enter s.current (.join t) s.lastClock,
          .leave s.current (.join t) (.value (s.thread t).retval)]
  | starts (h : (s.thread s.current).pc = .start) :
      Turn s .resume (s.setCurrent { s.thread s.current with pc := .user }) []
  | returns {c : Call} (h : (s.thread s.current).pc = .inside c)
      (hj : ∀ t, c = .join t → s.result c ≠ .ok) :
      Turn s .resume ((s.dequeue c).setCurrent (s.backThread c))
        [.leave s.current c (s.result c)]
  | rejoins {t : Tid} {b : Bool} {q : SleepQ} (h : (s.thread s.current).pc = .inside (.join t))
      (hr : s.result (.join t) = .ok) (hz : (s.thread t).state ≠ .zombie)
      (hq : (s.dequeue (.join t)).Bedded noTimeout b q) :
      Turn s .resume
        (((s.dequeue (.join t)).enqueue (.join t)).park .condWait b q
          (.inside (.join t))).schedule []
  | joined {t : Tid} (h : (s.thread s.current).pc = .inside (.join t))
      (hr : s.result (.join t) = .ok) (hz : (s.thread t).state = .zombie) :
      Turn s .resume
        (({ (s.dequeue (.join t)).setCurrent (s.backThread (.join t)) with
          zombieq := s.zombieq.erase t } : Vp).makeRunnable t)
        [.leave s.current (.join t) (.value (s.thread t).retval)]
  | ends (h : (s.thread s.current).pc = .exit) :
      Turn s .resume
        ((s.setCurrent { s.thread s.current with joinable := false }).park .running false s.heap
          .gone).schedule
        [.leave s.current (.exit (s.thread s.current).retval)
          (if s.waitq (.term s.current) ≠ [] then .EBUSY else .ok)]
  | idles {ready ts : List Tid} {now : Nat} {s₁ s₂ : Vp}
      (D : Woken s ((s.ioq.filter (· ∈ ready)).map fun t => (.ready, t)) s₁)
      (hts : s₁.Expired now ts)
      (W : Woken { s₁ with lastClock := now } (ts.map fun t => (.timeout now, t)) s₂) :
      Turn s (.idle ready now) (s₂.park .runnable false s₂.heap .idle).schedule
        [.dispatch ready, .clock now]

/-! ### Every enabled step is one of these -/

theorem Core.bedded (I : Core s (some s.current)) {s₁ : Vp} (hheap : s₁.heap = s.heap)
    (hclock : s₁.lastClock = s.lastClock)
    (hawake : (s₁.thread s.current).onSleepq = false) (timeout : Nat) :
    ∃ b q, s.Bedded timeout b q ∧ s₁.addIfTimed s.current timeout =
      some { s₁.modify s.current fun th => { th with onSleepq := b } with heap := q } := by
  rw [addIfTimed]
  by_cases ht : timeout ≠ noTimeout
  · obtain ⟨q, hq, hs, hdue⟩ := SleepQ.add_spec (x := s.current) I.heap
      (by rw [I.current_awake]; simp) s.lastClock timeout
    refine ⟨true, q, ⟨hs.congr fun u => by simp, by simpa using ht, by simpa using hdue⟩, ?_⟩
    rw [if_pos ht, addSleepQ, hheap, hclock, hq]
    rfl
  · refine ⟨false, s.heap, ⟨I.beds_false, by simpa using ht, by simp⟩, ?_⟩
    have e : s₁.modify s.current (fun th => { th with onSleepq := false }) = s₁ := by
      simp only [Vp.modify, ← hawake, Function.update_eq_self]
    rw [if_neg ht, e, ← hheap]

theorem return?_none (me : Tid) (s : Vp) : return? me (s, none) = s := rfl

theorem return?_some (me : Tid) (s : Vp) (r : Ret) :
    return? me (s, some r) = s.modify me fun th => { th with pc := .user } := rfl

/-- A call that returns at once leaves its thread where it is. -/
theorem return?_of_user {s₁ : Vp} {r : Ret} (h : (s₁.thread me).pc = .user) :
    return? me (s₁, some r) = s₁ := by
  rw [return?_some]
  simp only [Vp.modify, ← h, Function.update_eq_self]

theorem condTimedwait_parks (I : Core s (some s.current)) (c : Call) (cv : Cid) (timeout : Nat)
    (h : (s.thread s.current).interrupt = false)
    (he : s.enqueue c = { s with
      waitq := Function.update s.waitq cv (s.waitq cv ++ [s.current]) }) :
    ∃ b q, s.Bedded timeout b q ∧ s.condTimedwait c cv timeout =
      some (((s.enqueue c).park .condWait b q (.inside c)).schedule, none) := by
  obtain ⟨b, q, hb, hq⟩ := I.bedded (show ({ s.setState s.current .condWait with
    waitq := Function.update s.waitq cv (s.waitq cv ++ [s.current]) } : Vp).heap = s.heap from rfl)
    rfl (by simpa [setState, Vp.modify] using I.current_awake) timeout
  refine ⟨b, q, hb, ?_⟩
  rw [condTimedwait, h, if_neg (by simp)]
  refine (congrArg (Option.map _) hq).trans ?_
  rw [he]
  simp [Vp.switch, Vp.park, Vp.modify, setState]

theorem usleep_parks (I : Core s (some s.current)) (usecs : Nat)
    (h : (s.thread s.current).interrupt = false) :
    ∃ b q, s.Bedded usecs b q ∧ s.usleep usecs =
      some ((s.park (Call.usleep usecs).waitState b q (.inside (.usleep usecs))).schedule,
        none) := by
  by_cases hu : usecs ≠ noTimeout
  · obtain ⟨b, q, hb, hq⟩ := I.bedded (show (s.setState s.current .sleeping).heap = s.heap from rfl)
      rfl (by simpa [setState, Vp.modify] using I.current_awake) usecs
    refine ⟨b, q, hb, ?_⟩
    rw [addIfTimed, if_pos hu] at hq
    rw [usleep, h, if_neg (by simp), if_pos hu, hq]
    simp [hu, Vp.switch, Vp.park, Vp.modify, setState, Call.waitState]
  · refine ⟨false, s.heap, ⟨I.beds_false, by simpa using hu, by simp⟩, ?_⟩
    have ha := I.current_awake
    simp [usleep, h, hu, Vp.switch, Vp.park, Vp.modify, setState, Call.waitState, ha]

theorem poll_parks (I : Core s (some s.current)) (timeout : Nat)
    (h : (s.thread s.current).interrupt = false) :
    ∃ b q, s.Bedded timeout b q ∧ s.poll true timeout =
      some (((s.enqueue (.poll true timeout)).park .ioWait b q
        (.inside (.poll true timeout))).schedule, none) := by
  obtain ⟨b, q, hb, hq⟩ := I.bedded (show ({ s with ioq := s.ioq ++ [s.current] } : Vp).heap =
    s.heap from rfl) rfl I.current_awake timeout
  refine ⟨b, q, hb, ?_⟩
  simp only [poll, h, Bool.false_eq_true, if_false, reduceCtorEq, hq, Option.map_some]
  simp [Vp.switch, Vp.park, Vp.modify, setState, enqueue]

theorem mutexLock_parks (I : Core s (some s.current)) {m : Mid}
    (h : (s.thread s.current).interrupt = false) (ho : s.owner m ≠ none)
    (hme : s.owner m ≠ some s.current) :
    s.mutexLock m = (((s.enqueue (.mutexLock m)).park .lockWait false s.heap
      (.inside (.mutexLock m))).schedule, none) := by
  have ha := I.current_awake
  simp [mutexLock, h, ho, hme, Vp.switch, Vp.park, Vp.modify, setState, enqueue, ha]

/-- The threads on the queue of a condition variable have not been freed. -/
theorem Queued.live_of_waitq (Q : s.Queued) {cv : Cid} (ht : t ∈ s.waitq cv) : s.Live t := by
  intro e
  have := (Q.waitq cv t).mp ht
  rw [e] at this
  cases this

theorem condSignal_spec (I : Core s run) (Q : s.Queued) (broadcast : Bool) (cv : Cid) :
    ∃ s', s.condSignal cv broadcast = some s' ∧ Woken s (s.signalled broadcast cv) s' :=
  condSignalLoop_spec broadcast (s.waitq cv) I (fun _ ht => Q.live_of_waitq ht) (Q.waitqNodup cv)

theorem thread_buried_of_ne {retval : Nat} (ht : t ≠ s.current) :
    (s.buried retval).thread t = s.thread t := by
  simp [buried, Vp.park, ended, setCurrent, ht]

theorem thread_buried {retval : Nat} : (s.buried retval).thread s.current =
    { s.thread s.current with
      retval := retval, state := .zombie, onSleepq := false, pc := .exit } := by
  simp [buried, Vp.park, ended, setCurrent]

theorem Core.buried (I : Core s (some s.current)) (hni : s.current ≠ s.idleThread)
    (retval : Nat) : Core (s.buried retval) none := by
  have I₁ : Core (s.ended retval) (some (s.ended retval).current) :=
    I.current (show _ = Function.update s.thread s.current
      { s.thread s.current with retval := retval } from rfl) rfl rfl rfl rfl rfl
      I.current_state I.current_awake (.inl rfl)
  exact I₁.park_zombie hni

/-- A joinable thread that ends. -/
theorem threadExit_dies (I : Core s (some s.current)) (Q : s.Queued)
    (hpc : (s.thread s.current).pc = .user) (hni : s.current ≠ s.idleThread) (retval : Nat)
    (hj : (s.thread s.current).joinable = true) :
    ∃ s', s.threadExit retval = some s'.schedule ∧
      Woken (s.buried retval) (s.signalled false (.term s.current)) s' := by
  have hne : ∀ t ∈ s.waitq (.term s.current), t ≠ s.current := fun t ht e => by
    have := (Q.waitq _ t).mp ht
    rw [e, hpc] at this
    cases this
  have hwait : (s.buried retval).waiters (s.waitq (.term s.current)) =
      s.waiters (s.waitq (.term s.current)) :=
    List.filter_congr fun t ht => by rw [thread_buried_of_ne (hne t ht)]
  obtain ⟨s', hs', W⟩ := condSignalLoop_spec false (s.waitq (.term s.current))
    (I.buried hni retval) (fun t ht => by
      rw [Live, thread_buried_of_ne (hne t ht)]
      exact Q.live_of_waitq ht) (Q.waitqNodup _)
  rw [hwait] at W
  have ha := I.current_awake
  have e : s.threadExit retval =
      ((s.buried retval).condSignal (.term s.current) false).map schedule := by
    simp [threadExit, Vp.modify, hj, Vp.buried, ended, setCurrent, Vp.park, ha]
  exact ⟨s', e.trans (congrArg (Option.map schedule) hs'), W⟩

/-- A round of the loop of `st_thread_join`. -/
theorem joinLoop_parks (I : Core s (some s.current)) (t : Tid)
    (h : (s.thread s.current).interrupt = false) (hz : (s.thread t).state ≠ .zombie) :
    ∃ b q, s.Bedded noTimeout b q ∧ s.joinLoop t =
      some (((s.enqueue (.join t)).park .condWait b q (.inside (.join t))).schedule, none) := by
  rw [joinLoop, if_pos hz]
  exact condTimedwait_parks I (.join t) (.term t) noTimeout h rfl

theorem joinLoop_joins (hz : (s.thread t).state = .zombie) : s.joinLoop t =
    some (({ s with zombieq := s.zombieq.erase t } : Vp).makeRunnable t,
      some (.value (s.thread t).retval)) := by
  rw [joinLoop, hz, if_neg (by simp)]

/-- The place in the code of a thread that is made runnable, or flagged, is kept. -/
theorem pc_makeRunnable : ((s.makeRunnable t).thread u).pc = (s.thread u).pc := by
  by_cases hu : u = t <;> simp [makeRunnable, setState, Vp.modify, hu]

theorem pc_clearInterrupt : ((s.clearInterrupt t).thread u).pc = (s.thread u).pc := by
  by_cases hu : u = t <;> simp [clearInterrupt, Vp.modify, hu]

/-! ### The calls -/

/-- The call `c` can be made, and is one of the turns. -/
def Takes (s : Vp) (c : Call) : Prop :=
  ∃ s' evs, s.act (.call c) = some (s', evs) ∧ Turn s (.call c) s' evs

theorem Core.not_idle_of_user (I : Core s run) (hpc : (s.thread t).pc = .user) :
    t ≠ s.idleThread := by
  intro e
  have := (I.idle t).mpr e
  rw [hpc] at this
  cases this

/-- A call that returns at once. -/
theorem act_return {s₁ : Vp} {r : Ret} (h : s.doCall c = some (s₁, some r))
    (hpc : (s₁.thread s.current).pc = .user) :
    s.act (.call c) =
      some (s₁, .enter s.current c s.lastClock :: clock? c ++ [.leave s.current c r]) := by
  rw [act, h, Option.map_some, return?_of_user hpc]
  rfl

/-- A call that switches to another thread. -/
theorem act_switch {s₁ : Vp} (h : s.doCall c = some (s₁, none)) :
    s.act (.call c) = some (s₁, .enter s.current c s.lastClock :: clock? c) := by
  rw [act, h, Option.map_some, return?_none]
  simp [leave?]

theorem takes_refused {r : Ret} (hpc : (s.thread s.current).pc = .user)
    (h : s.doCall c = some (s, some r)) (hr : s.Refused c r) (hc : clock? c = []) :
    s.Takes c := by
  refine ⟨s, _, act_return h hpc, ?_⟩
  rw [hc]
  exact .refused hr

theorem takes_interrupted (hpc : (s.thread s.current).pc = .user)
    (h : s.doCall c = some (s.clearInterrupt s.current, some .EINTR))
    (hi : (s.thread s.current).interrupt = true) (hb : c.Blocks) (hy : ∀ now, c ≠ .yield now)
    (hc : clock? c = []) : s.Takes c := by
  refine ⟨_, _, act_return h (by rw [pc_clearInterrupt, hpc]), ?_⟩
  rw [hc]
  exact .interrupted hi hb hy

theorem takes_waits {q : SleepQ} (hi : (s.thread s.current).interrupt = false) (hw : s.Waits c)
    (hq : s.Bedded c.timeout b q) (hc : clock? c = [])
    (h : s.doCall c = some (((s.enqueue c).park c.waitState b q (.inside c)).schedule, none)) :
    s.Takes c := by
  refine ⟨_, _, act_switch h, ?_⟩
  rw [hc]
  exact .waits hi hw hq

section calls

variable (I : Core s (some s.current)) (Q : s.Queued) (hpc : (s.thread s.current).pc = .user)
include I hpc

theorem takes_create (joinable : Bool) : s.Takes (.create joinable) := by
  have hne : s.current ≠ s.next := Nat.ne_of_lt (I.lt_next I.current_live)
  refine ⟨_, _, act_return rfl ?_, .create joinable⟩
  simpa [threadCreate, Function.update_of_ne hne] using hpc

theorem takes_usleep (usecs : Nat) : s.Takes (.usleep usecs) := by
  cases hi : (s.thread s.current).interrupt with
  | true =>
      exact takes_interrupted hpc (by simp [doCall, usleep, hi]) hi trivial (by simp) rfl
  | false =>
      obtain ⟨b, q, hb, hrun⟩ := usleep_parks I usecs hi
      exact takes_waits hi trivial hb rfl hrun

theorem takes_condWait (n timeout : Nat) : s.Takes (.condWait n timeout) := by
  cases hi : (s.thread s.current).interrupt with
  | true =>
      exact takes_interrupted hpc (by simp [doCall, condTimedwait, hi]) hi trivial (by simp) rfl
  | false =>
      obtain ⟨b, q, hb, hrun⟩ := condTimedwait_parks I (.condWait n timeout) (.user n) timeout hi
        rfl
      exact takes_waits hi trivial hb rfl hrun

theorem takes_poll (added : Bool) (timeout : Nat) : s.Takes (.poll added timeout) := by
  cases hi : (s.thread s.current).interrupt with
  | true => exact takes_interrupted hpc (by simp [doCall, poll, hi]) hi trivial (by simp) rfl
  | false =>
      cases added with
      | false => exact takes_refused hpc (by simp [doCall, poll, hi]) ⟨rfl, rfl⟩ rfl
      | true =>
          obtain ⟨b, q, hb, hrun⟩ := poll_parks I timeout hi
          exact takes_waits hi rfl hb rfl hrun

theorem takes_mutexLock (m : Mid) : s.Takes (.mutexLock m) := by
  cases hi : (s.thread s.current).interrupt with
  | true =>
      exact takes_interrupted hpc (by simp [doCall, mutexLock, hi]) hi trivial (by simp) rfl
  | false =>
      by_cases ho : s.owner m = none
      · have hrun : s.doCall (.mutexLock m) =
            some ({ s with owner := Function.update s.owner m (some s.current) }, some .ok) := by
          simp [doCall, mutexLock, hi, ho]
        exact ⟨_, _, act_return hrun hpc, .locks (.inl rfl) (fun _ => hi) ho⟩
      · by_cases hown : s.owner m = some s.current
        · exact takes_refused hpc (by simp [doCall, mutexLock, hi, hown]) ⟨rfl, hown⟩ rfl
        · exact takes_waits hi ⟨ho, hown⟩ ⟨I.beds_false, by simp [Call.timeout], by simp⟩ rfl
            (congrArg some (mutexLock_parks I hi ho hown))

omit I in
theorem takes_mutexTrylock (m : Mid) : s.Takes (.mutexTrylock m) := by
  by_cases ho : s.owner m = none
  · have hrun : s.doCall (.mutexTrylock m) =
        some ({ s with owner := Function.update s.owner m (some s.current) }, some .ok) := by
      simp [doCall, mutexTrylock, ho]
    exact ⟨_, _, act_return hrun hpc, .locks (.inr rfl) (by simp) ho⟩
  · exact takes_refused hpc (by simp [doCall, mutexTrylock, ho]) ⟨rfl, ho⟩ rfl

theorem takes_yield (now : Nat) : s.Takes (.yield now) := by
  obtain ⟨s', ts, hs', W, hsort, hmem⟩ := checkClock_spec I now
  by_cases hr : s'.runq = []
  · have hrun : s.doCall (.yield now) = some (s', some .ok) := by
      simp [doCall, threadYield, hs', hr]
    exact ⟨_, _, act_return hrun (by rw [W.same.pc]; exact hpc), .stays ⟨hmem, hsort⟩ W hr⟩
  · have I₀ : Core { s with lastClock := now } (some s.current) :=
      I.congr rfl rfl rfl rfl rfl rfl
    have I' : Core s' (some s'.current) := by
      rw [W.same.current]
      exact I₀.woken W
    have ha := I'.current_awake
    refine ⟨_, _, act_switch ?_, .yields ⟨hmem, hsort⟩ W hr⟩
    simp [doCall, threadYield, hs', hr, Vp.park, Vp.switch, makeRunnable, setState, Vp.modify, ha]

theorem takes_interrupt {t : Tid} (hl : s.Live t) (hni : t ≠ s.idleThread) :
    s.Takes (.interrupt t) := by
  by_cases hz : (s.thread t).state = .zombie
  · exact takes_refused hpc (by simp [doCall, threadInterrupt, hz]) ⟨rfl, hz⟩ rfl
  · have hflag : (s.modify t fun th => { th with interrupt := true }).thread t =
        { s.thread t with interrupt := true } := Function.update_self _ _ _
    have hpc' : ((s.modify t fun th => { th with interrupt := true }).thread s.current).pc =
        .user := by
      by_cases hct : s.current = t
      · rw [hct, hflag, ← hct]
        exact hpc
      · rw [← hpc]
        exact congrArg Thread.pc (Function.update_of_ne hct _ _)
    by_cases hrun : (s.thread t).state = .running ∨ (s.thread t).state = .runnable
    · have hdo : s.doCall (.interrupt t) =
          some (s.modify t fun th => { th with interrupt := true }, some .ok) := by
        simp [doCall, threadInterrupt, hz, Vp.modify, hrun]
      exact ⟨_, _, act_return hdo hpc', .flags hl hni hrun⟩
    · have hb : (s.thread t).state.Blocked := by
        cases hst : (s.thread t).state <;> simp_all [State.Blocked]
      have I' : Core (s.modify t fun th => { th with interrupt := true }) (some s.current) :=
        I.modify rfl rfl rfl rfl rfl rfl ⟨(I.ok t).state, (I.ok t).timed⟩ rfl rfl Iff.rfl Iff.rfl
      obtain ⟨s₁, hs₁, W⟩ := I'.delIfSleeping_makeRunnable (by rw [Live, hflag]; exact hl)
        (by rw [hflag]; exact hb) (.inr rfl) (congrArg Thread.interrupt hflag)
      have hdo : s.doCall (.interrupt t) = some (s₁.makeRunnable t, some .ok) := by
        rw [doCall, threadInterrupt, if_neg hz]
        show Option.map _ (if ((s.modify t _).thread t).state = _ ∨ _ then _ else _) = _
        rw [hflag, if_neg hrun, hs₁]
        rfl
      exact ⟨_, _, act_return hdo (by rw [W.same.pc]; exact hpc'), .interrupts hl W⟩

theorem takes_join {t : Tid} (hl : s.Live t) : s.Takes (.join t) := by
  cases hj : (s.thread t).joinable with
  | false =>
      exact takes_refused hpc (r := .EINVAL) (by simp [doCall, threadJoin, hj])
        (.inl ⟨rfl, .inl hj⟩) rfl
  | true =>
      by_cases hct : s.current = t
      · exact takes_refused hpc (r := .EDEADLK) (by simp [doCall, threadJoin, hj, hct])
          (.inr ⟨rfl, hct⟩) rfl
      · by_cases hq : s.waitq (.term t) = []
        · have hjoin : s.doCall (.join t) = s.joinLoop t := by
            simp [doCall, threadJoin, hj, hct, hq]
          by_cases hz : (s.thread t).state = .zombie
          · exact ⟨_, _, act_return (hjoin.trans (joinLoop_joins hz))
              (by rw [pc_makeRunnable]; exact hpc), .joins hl hct hj hq hz⟩
          · cases hi : (s.thread s.current).interrupt with
            | true =>
                refine takes_interrupted hpc (hjoin.trans ?_) hi trivial (by simp) rfl
                simp [joinLoop, hz, condTimedwait, hi]
            | false =>
                obtain ⟨b, q, hb, hrun⟩ := joinLoop_parks I t hi hz
                exact takes_waits hi ⟨hz, hj, hct, hq, hl⟩ hb rfl (hjoin.trans hrun)
        · exact takes_refused hpc (r := .EINVAL) (by simp [doCall, threadJoin, hj, hct, hq])
            (.inl ⟨rfl, .inr hq⟩) rfl

include Q

theorem takes_exit (retval : Nat) : s.Takes (.exit retval) := by
  cases hj : (s.thread s.current).joinable with
  | false =>
      have h1 := I.current_awake
      have h2 := I.current_state
      refine ⟨_, _, act_switch ?_, .exits hj⟩
      simp [doCall, threadExit, Vp.modify, hj, ended, setCurrent, Vp.park, Vp.switch, h1, h2]
  | true =>
      obtain ⟨s', hs', W⟩ := threadExit_dies I Q hpc (I.not_idle_of_user hpc) retval hj
      exact ⟨_, _, act_switch (by rw [doCall, hs', Option.map_some]), .dies hj W⟩

theorem takes_condSignal (n : Nat) : s.Takes (.condSignal n) := by
  obtain ⟨s', hs', W⟩ := condSignal_spec I Q false (.user n)
  have hdo : s.doCall (.condSignal n) = some (s', some .ok) := by simp [doCall, hs']
  exact ⟨_, _, act_return hdo (by rw [W.same.pc]; exact hpc), .signals W⟩

theorem takes_condBroadcast (n : Nat) : s.Takes (.condBroadcast n) := by
  obtain ⟨s', hs', W⟩ := condSignal_spec I Q true (.user n)
  have hdo : s.doCall (.condBroadcast n) = some (s', some .ok) := by simp [doCall, hs']
  exact ⟨_, _, act_return hdo (by rw [W.same.pc]; exact hpc), .signals W⟩

theorem takes_mutexUnlock (m : Mid) : s.Takes (.mutexUnlock m) := by
  by_cases ho : s.owner m = some s.current
  · cases hf : (s.lockq m).find? fun t => (s.thread t).state = .lockWait with
    | none =>
        have hdo : s.doCall (.mutexUnlock m) =
            some ({ s with owner := Function.update s.owner m none }, some .ok) := by
          simp [doCall, mutexUnlock, ho, hf]
        refine ⟨_, _, act_return hdo hpc, .unlocks ho fun t ht => ?_⟩
        simpa using List.find?_eq_none.mp hf t ht
    | some t =>
        obtain ⟨hst, pre, post, hq, hpre⟩ := List.find?_eq_some_iff_append.mp hf
        have hlock : (s.thread t).state = .lockWait := by simpa using hst
        have hmem : t ∈ s.lockq m := by
          rw [hq]
          simp
        have hl : s.Live t := fun e => by
          have := (Q.lockq m t).mp hmem
          rw [e] at this
          cases this
        have hawake : (s.thread t).onSleepq = false := by
          cases h : (s.thread t).onSleepq with
          | false => rfl
          | true =>
              have := ((I.ok t).timed h).1
              rw [hlock] at this
              exact this.elim
        have hsleeps : s.heap.Sleeps fun u => (s.thread u).onSleepq = true ∧ u ≠ t :=
          I.heap.congr fun u => and_iff_left_of_imp fun hu e => by
            rw [e, hawake] at hu
            cases hu
        have W : Wake { s with owner := Function.update s.owner m (some t) } (.handover m) t
            (({ s with owner := Function.update s.owner m (some t) } : Vp).makeRunnable t) :=
          ⟨hl, by rw [hlock]; exact trivial, ⟨Function.update_self _ _ _, hmem⟩, s.heap,
            by simp [makeRunnable, setState, Vp.modify, Vp.wake, Why.thread, hawake], hsleeps,
            rfl⟩
        have hdo : s.doCall (.mutexUnlock m) =
            some (({ s with owner := Function.update s.owner m (some t) } : Vp).makeRunnable t,
              some .ok) := by
          simp [doCall, mutexUnlock, ho, hf]
        exact ⟨_, _, act_return hdo (by rw [pc_makeRunnable]; exact hpc),
          .handsOver ho hq (fun u hu => by simpa using hpre u hu) hlock W⟩
  · exact takes_refused hpc (by simp [doCall, mutexUnlock, ho]) ⟨rfl, ho⟩ rfl

/-- **A call of the current thread.** -/
theorem act_call (ha : s.Allowed c) : s.Takes c := by
  cases c with
  | create joinable => exact takes_create I hpc joinable
  | exit retval => exact takes_exit I Q hpc retval
  | join t => exact takes_join I hpc ha.1
  | yield now => exact takes_yield I hpc now
  | interrupt t => exact takes_interrupt I hpc ha.1 ha.2
  | usleep usecs => exact takes_usleep I hpc usecs
  | condWait n timeout => exact takes_condWait I hpc n timeout
  | condSignal n => exact takes_condSignal I Q hpc n
  | condBroadcast n => exact takes_condBroadcast I Q hpc n
  | mutexLock m => exact takes_mutexLock I hpc m
  | mutexUnlock m => exact takes_mutexUnlock I Q hpc m
  | mutexTrylock m => exact takes_mutexTrylock hpc m
  | poll added timeout => exact takes_poll I hpc added timeout

end calls

/-! ### Behind a switch, and the idle thread -/

/-- A call goes on behind its switch and returns; one of `st_thread_join` may wait again. -/
theorem act_back (hpc : (s.thread s.current).pc = .inside c) (hb : c.Blocks)
    (hj : ∀ t, c ≠ .join t) :
    s.act .resume = some ((s.dequeue c).setCurrent (s.backThread c),
      [.leave s.current c (s.result c)]) := by
  cases c with
  | join t => exact absurd rfl (hj t)
  | usleep usecs =>
      cases hi : (s.thread s.current).interrupt <;>
        simp [act, hpc, goOn, usleepDone, hi, return?, leave?, clearInterrupt, Vp.modify, dequeue,
          setCurrent, backThread, result, Pc.cond]
  | condWait n timeout =>
      cases hi : (s.thread s.current).interrupt <;> cases ht : (s.thread s.current).timedout <;>
        simp [act, hpc, goOn, condTimedwaitDone, hi, ht, return?, leave?, Vp.modify, dequeue,
          setCurrent, backThread, result, Pc.cond]
  | mutexLock m =>
      cases hi : (s.thread s.current).interrupt <;> by_cases ho : s.owner m = some s.current <;>
        simp [act, hpc, goOn, mutexLockDone, hi, ho, return?, leave?, clearInterrupt, Vp.modify,
          dequeue, setCurrent, backThread, result, Pc.cond]
  | poll added timeout =>
      cases hi : (s.thread s.current).interrupt <;>
        simp [act, hpc, goOn, pollDone, hi, return?, leave?, clearInterrupt, Vp.modify, dequeue,
          setCurrent, backThread, result, Pc.cond]
  | yield now =>
      simp [act, hpc, goOn, return?, leave?, Vp.modify, dequeue, setCurrent, backThread, result,
        Pc.cond]
  | create _ | exit _ | interrupt _ | condSignal _ | condBroadcast _ | mutexUnlock _
  | mutexTrylock _ => exact hb.elim

/-- `st_thread_join` goes on behind its switch. -/
theorem act_join (I : Core s (some s.current))
    (hpc : (s.thread s.current).pc = .inside (.join t)) :
    ∃ s' evs, s.act .resume = some (s', evs) ∧ Turn s .resume s' evs := by
  have hback : s.result (.join t) ≠ .ok → s.act .resume =
      some ((s.dequeue (.join t)).setCurrent (s.backThread (.join t)),
        [.leave s.current (.join t) (s.result (.join t))]) := by
    intro hr
    cases hi : (s.thread s.current).interrupt <;> cases ht : (s.thread s.current).timedout <;>
      simp_all [act, goOn, threadJoinDone, condTimedwaitDone, return?, leave?, Vp.modify, dequeue,
        setCurrent, backThread, result, Pc.cond]
  by_cases hr : s.result (.join t) = .ok
  · have hflags : (s.thread s.current).interrupt = false ∧
        (s.thread s.current).timedout = false := by
      cases hi : (s.thread s.current).interrupt <;> cases ht : (s.thread s.current).timedout <;>
        simp_all [result]
    obtain ⟨hi, ht⟩ := hflags
    -- both flags are off, so only the queue changes
    have hdone : s.condTimedwaitDone (.term t) = (s.dequeue (.join t), .ok) := by
      have e : { s.thread s.current with timedout := false, interrupt := false } =
          s.thread s.current := by
        cases hth : s.thread s.current
        simp_all
      simp only [condTimedwaitDone, hi, ht, dequeue, Vp.modify, Bool.false_eq_true, if_false]
      simp [e]
    have hgo : s.goOn (.join t) = (s.dequeue (.join t)).joinLoop t := by
      simp [goOn, threadJoinDone, hdone]
    have I' : Core (s.dequeue (.join t)) (some (s.dequeue (.join t)).current) :=
      I.congr rfl rfl rfl rfl rfl rfl
    by_cases hz : (s.thread t).state = .zombie
    · refine ⟨_, _, ?_, .joined hpc hr hz⟩
      have hne : s.current ≠ t := fun e => by
        rw [← e, I.current_state] at hz
        cases hz
      rw [act, hpc]
      simp only [hgo]
      rw [joinLoop_joins (show ((s.dequeue (.join t)).thread t).state = .zombie from hz)]
      simp [return?, leave?, makeRunnable, setState, Vp.modify, dequeue, setCurrent, backThread,
        hi, ht, hr, hpc, Pc.cond, Function.update_of_ne hne, Function.update_of_ne hne.symm,
        Function.update_comm hne]
    · obtain ⟨b, q, hb, hrun⟩ := joinLoop_parks I' t hi hz
      refine ⟨_, _, ?_, .rejoins hpc hr hz hb⟩
      simp [act, hpc, hgo, hrun, return?, leave?]
  · exact ⟨_, _, hback hr, .returns hpc fun u e => by cases e; exact hr⟩

/-- **The running thread goes on behind a switch.** -/
theorem act_resume (I : Core s (some s.current)) (hu : (s.thread s.current).pc ≠ .user)
    (hi : (s.thread s.current).pc ≠ .idle) :
    ∃ s' evs, s.act .resume = some (s', evs) ∧ Turn s .resume s' evs := by
  have hok := (I.ok s.current).state
  cases hpc : (s.thread s.current).pc with
  | user => exact absurd hpc hu
  | idle => exact absurd hpc hi
  | gone => exact absurd hpc I.current_live
  | start => exact ⟨_, _, by rw [act, hpc]; rfl, .starts hpc⟩
  | exit =>
      refine ⟨_, _, ?_, .ends hpc⟩
      have h1 := I.current_awake
      have h2 := I.current_state
      simp [act, hpc, threadExitDone, Vp.switch, Vp.modify, setCurrent, Vp.park, h1, h2]
  | inside c =>
      rw [hpc] at hok
      by_cases hj : ∃ t, c = .join t
      · obtain ⟨t, rfl⟩ := hj
        exact act_join I hpc
      · have hj : ∀ t, c ≠ .join t := fun t e => hj ⟨t, e⟩
        exact ⟨_, _, act_back hpc hok.1 hj, .returns hpc fun t e => absurd e (hj t)⟩

/-- While the idle thread runs, the threads of the io queue wait. -/
theorem blocked_of_ioq (I : Core s (some s.current)) (Q : s.Queued) (hr : s.runq = [])
    (hcur : s.current = s.idleThread) (ht : t ∈ s.ioq) :
    s.Live t ∧ (s.thread t).state.Blocked := by
  have hp := Q.ioq t ht
  have hok := (I.ok t).state
  cases hpc : (s.thread t).pc <;> rw [hpc] at hp <;> try exact hp.elim
  rename_i c
  have hl : s.Live t := by
    rw [Live, hpc]
    simp
  refine ⟨hl, ?_⟩
  have hni : t ≠ s.idleThread := fun e => by
    have := (I.idle t).mpr e
    rw [hpc] at this
    cases this
  rw [hpc] at hok
  rcases hok.2 with e | e | e
  · cases c <;> simp_all [Pc.Polls, Call.waitState, State.Blocked]
  · have hm : t ∈ s.runq := (I.runq t).mpr ⟨hl, hni, e⟩
    rw [hr] at hm
    cases hm
  · have := (I.running t hl).mp e
    exact absurd (Option.some.inj this).symm (hcur ▸ hni)

/-- **A round of the idle thread.** -/
theorem act_idle (I : Core s (some s.current)) (Q : s.Queued) (hidle : s.IdleLast)
    (hpc : (s.thread s.current).pc = .idle) (ready : List Tid) (now : Nat) :
    ∃ s' evs, s.act (.idle ready now) = some (s', evs) ∧ Turn s (.idle ready now) s' evs := by
  have hcur : s.current = s.idleThread := (I.idle _).mp hpc
  obtain ⟨s₁, hs₁, D⟩ := dispatchLoop_spec ready s.ioq I (fun t ht =>
    ⟨(blocked_of_ioq I Q (hidle hcur) hcur ht).1, (blocked_of_ioq I Q (hidle hcur) hcur ht).2, ht⟩)
    Q.ioqNodup
  have I₁ := I.woken D
  obtain ⟨s₂, ts, hs₂, W, hsort, hmem⟩ := checkClock_spec I₁ now
  have I₁' : Core { s₁ with lastClock := now } (some s.current) :=
    I₁.congr rfl rfl rfl rfl rfl rfl
  have I₂ : Core s₂ (some s₂.current) := by
    rw [W.same.current, show ({ s₁ with lastClock := now } : Vp).current = s.current from
      D.same.current]
    exact I₁'.woken W
  have ha := I₂.current_awake
  refine ⟨_, _, ?_, .idles D ⟨hmem, hsort⟩ W⟩
  simp [act, idleRound, hs₁, hs₂, setState, Vp.switch, Vp.modify, Vp.park, ha]

/-- **Every enabled step can be taken, and is one of the turns.** -/
theorem act_turn (I : Core s (some s.current)) (Q : s.Queued) (hidle : s.IdleLast)
    (he : s.Enabled l) : ∃ s' evs, s.act l = some (s', evs) ∧ Turn s l s' evs := by
  cases l with
  | call c => exact act_call I Q he.1 he.2
  | resume => exact act_resume I he.1 he.2
  | idle ready now => exact act_idle I Q hidle he.1 ready now

end Vp

end StCoroutine.Sched
