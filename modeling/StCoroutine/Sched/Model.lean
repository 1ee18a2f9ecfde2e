import StCoroutine.Lib.Lts
import StCoroutine.Sched.SleepQueue

/-!
# Sched — the state threads scheduler as the code has it

`sched.c` and the condition variables, mutexes and sleeps of `sync.c`.  One thread runs at a time,
up to where the code switches to another; `Pc` is where a thread that was switched out goes on.  A
step is what the running thread does up to its next call into the library, to its next switch or
from a switch to the return of the call: a call, a `resume`, or a round of the idle thread.

A call returns `(s, some r)`, or `(s, none)` when it switched to another thread.  What the event
system decides (whether a poll set could be added, which descriptors are ready, what time it is)
is part of the step.  Threads are not reused: an address stands for one thread, which is assumed
of `_st_stack_new` (`Vp.threadCreate`).  `none` is a step that is not enabled, or one that reads
through `NULL` or does not end.
-/

set_option autoImplicit false

namespace StCoroutine.Sched

/-- The thread states `_ST_ST_…`. -/
inductive State where
  | running
  | runnable
  | ioWait
  | lockWait
  | condWait
  | sleeping
  | zombie
  | suspended
  deriving DecidableEq, Repr

/-- A condition variable: one of the program's, or the `term` of a thread. -/
inductive Cid where
  | user (n : Nat)
  | term (t : Tid)
  deriving DecidableEq, Repr

/-- A mutex. -/
abbrev Mid := Nat

/-- `ST_UTIME_NO_TIMEOUT`. -/
def noTimeout : Nat := 2 ^ 64 - 1

/-- The calls of a thread into the library. -/
inductive Call where
  | create (joinable : Bool)
  | exit (retval : Nat)
  | join (t : Tid)
  | yield (now : Nat)
  | interrupt (t : Tid)
  | usleep (usecs : Nat)
  | condWait (c : Nat) (timeout : Nat)
  | condSignal (c : Nat)
  | condBroadcast (c : Nat)
  | mutexLock (m : Mid)
  | mutexUnlock (m : Mid)
  | mutexTrylock (m : Mid)
  | poll (added : Bool) (timeout : Nat)
  deriving DecidableEq, Repr

/-- What a call returns: `0` or a thread, the value of a joined thread, whether descriptors are
ready, or `-1` with an error. -/
inductive Ret where
  | ok
  | thread (t : Tid)
  | value (retval : Nat)
  | polled (ready : Bool)
  | EINTR
  | ETIME
  | EINVAL
  | EDEADLK
  | EPERM
  | EBUSY
  deriving DecidableEq, Repr

/-- Where a thread is in the code: before `_st_thread_main`, in the loop of the idle thread,
outside the library, behind the switch of a call, behind the first switch of `st_thread_exit`, or
behind its last. -/
inductive Pc where
  | start
  | idle
  | user
  | inside (c : Call)
  | exit
  | gone
  deriving DecidableEq, Repr

/-- `_st_thread_t`: `joinable` says that `term` is not `NULL`.  The fields of the timeout heap are
in `SleepQ`. -/
structure Thread where
  state : State
  onSleepq : Bool
  interrupt : Bool
  timedout : Bool
  joinable : Bool
  retval : Nat
  pc : Pc
  deriving DecidableEq, Repr

/-- `_st_vp_t`, the current thread, and the memory the library works on.  `next` is the address of
the next thread. -/
structure Vp where
  thread : Tid → Thread
  heap : SleepQ
  current : Tid
  idleThread : Tid
  runq : List Tid
  ioq : List Tid
  zombieq : List Tid
  waitq : Cid → List Tid
  owner : Mid → Option Tid
  lockq : Mid → List Tid
  lastClock : Nat
  activeCount : Int
  next : Tid

namespace Vp

/-! ### Queues, flags and the switch -/

/-- A thread record is changed. -/
def modify (s : Vp) (t : Tid) (f : Thread → Thread) : Vp :=
  { s with thread := Function.update s.thread t (f (s.thread t)) }

def setState (s : Vp) (t : Tid) (st : State) : Vp := s.modify t fun th => { th with state := st }

/-- `thread->flags &= ~_ST_FL_INTERRUPT`. -/
def clearInterrupt (s : Vp) (t : Tid) : Vp := s.modify t fun th => { th with interrupt := false }

/-- `_ST_ADD_SLEEPQ`. -/
def addSleepQ (s : Vp) (t : Tid) (timeout : Nat) : Option Vp :=
  (s.heap.add s.lastClock t timeout).map fun q =>
    { s.modify t fun th => { th with onSleepq := true } with heap := q }

/-- `_ST_DEL_SLEEPQ`. -/
def delSleepQ (s : Vp) (t : Tid) : Option Vp :=
  (s.heap.heapDelete t).map fun q =>
    { s.modify t fun th => { th with onSleepq := false } with heap := q }

/-- `if (thread->flags & _ST_FL_ON_SLEEPQ) _ST_DEL_SLEEPQ(thread);`. -/
def delIfSleeping (s : Vp) (t : Tid) : Option Vp :=
  if (s.thread t).onSleepq then s.delSleepQ t else some s

/-- `if (timeout != ST_UTIME_NO_TIMEOUT) _ST_ADD_SLEEPQ(me, timeout);`. -/
def addIfTimed (s : Vp) (t : Tid) (timeout : Nat) : Option Vp :=
  if timeout ≠ noTimeout then s.addSleepQ t timeout else some s

/-- Make thread runnable: `thread->state = _ST_ST_RUNNABLE; _ST_ADD_RUNQ(thread);`. -/
def makeRunnable (s : Vp) (t : Tid) : Vp :=
  { s.setState t .runnable with runq := s.runq ++ [t] }

/-- `_st_vp_schedule`. -/
def schedule (s : Vp) : Vp :=
  match s.runq with
  | t :: rest => { s.setState t .running with runq := rest, current := t }
  | [] => { s.setState s.idleThread .running with current := s.idleThread }

/-- `_ST_SWITCH_CONTEXT`: the current thread will go on at `pc`. -/
def switch (s : Vp) (pc : Pc) : Vp :=
  (s.modify s.current fun th => { th with pc := pc }).schedule

/-- The loop of `_st_vp_check_clock`; `none` when it has not ended after `fuel` rounds. -/
def checkClockLoop (now : Nat) : Nat → Vp → Option Vp
  | 0, _ => none
  | fuel + 1, s =>
      match s.heap.sleepq with
      | none => some s
      | some t =>
          if now < s.heap.due t then some s
          else (s.delSleepQ t).bind fun s =>
            let s := if (s.thread t).state = .condWait then
                s.modify t fun th => { th with timedout := true }
              else s
            -- inserted at the head of the run queue
            checkClockLoop now fuel { s.setState t .runnable with runq := t :: s.runq }

/-- `_st_vp_check_clock`, when the time is `now`. -/
def checkClock (s : Vp) (now : Nat) : Option Vp :=
  checkClockLoop now (s.heap.size + 1) { s with lastClock := now }

/-! ### Condition variables -/

/-- `st_cond_timedwait` up to its switch, for the call `call`. -/
def condTimedwait (s : Vp) (call : Call) (c : Cid) (timeout : Nat) : Option (Vp × Option Ret) :=
  let me := s.current
  if (s.thread me).interrupt then some (s.clearInterrupt me, some .EINTR)
  else
    let s := s.setState me .condWait
    let s := { s with waitq := Function.update s.waitq c (s.waitq c ++ [me]) }
    (s.addIfTimed me timeout).map fun s => (s.switch (.inside call), none)

/-- `st_cond_timedwait` from its switch on. -/
def condTimedwaitDone (s : Vp) (c : Cid) : Vp × Ret :=
  let me := s.current
  let th := s.thread me
  let s := { s with waitq := Function.update s.waitq c ((s.waitq c).erase me) }
  (s.modify me fun th => { th with timedout := false, interrupt := false },
    if th.interrupt then .EINTR else if th.timedout then .ETIME else .ok)

/-- The loop of `_st_cond_signal`. -/
def condSignalLoop (broadcast : Bool) : List Tid → Vp → Option Vp
  | [], s => some s
  | t :: q, s =>
      if (s.thread t).state = .condWait then
        (s.delIfSleeping t).bind fun s =>
          if broadcast then condSignalLoop broadcast q (s.makeRunnable t)
          else some (s.makeRunnable t)
      else condSignalLoop broadcast q s

/-- `_st_cond_signal`. -/
def condSignal (s : Vp) (c : Cid) (broadcast : Bool) : Option Vp :=
  condSignalLoop broadcast (s.waitq c) s

/-! ### Mutexes -/

/-- `st_mutex_lock` up to its switch. -/
def mutexLock (s : Vp) (m : Mid) : Vp × Option Ret :=
  let me := s.current
  if (s.thread me).interrupt then (s.clearInterrupt me, some .EINTR)
  else if s.owner m = none then
    ({ s with owner := Function.update s.owner m (some me) }, some .ok)
  else if s.owner m = some me then (s, some .EDEADLK)
  else
    let s := s.setState me .lockWait
    let s := { s with lockq := Function.update s.lockq m (s.lockq m ++ [me]) }
    (s.switch (.inside (.mutexLock m)), none)

/-- `st_mutex_lock` from its switch on. -/
def mutexLockDone (s : Vp) (m : Mid) : Vp × Ret :=
  let me := s.current
  let s := { s with lockq := Function.update s.lockq m ((s.lockq m).erase me) }
  if (s.thread me).interrupt = true ∧ s.owner m ≠ some me then (s.clearInterrupt me, .EINTR)
  else (s, .ok)

/-- `st_mutex_unlock`. -/
def mutexUnlock (s : Vp) (m : Mid) : Vp × Ret :=
  if s.owner m ≠ some s.current then (s, .EPERM)
  else
    match (s.lockq m).find? fun t => (s.thread t).state = .lockWait with
    | some t =>
        (({ s with owner := Function.update s.owner m (some t) } : Vp).makeRunnable t, .ok)
    | none => ({ s with owner := Function.update s.owner m none }, .ok)

/-- `st_mutex_trylock`. -/
def mutexTrylock (s : Vp) (m : Mid) : Vp × Ret :=
  if s.owner m ≠ none then (s, .EBUSY)
  else ({ s with owner := Function.update s.owner m (some s.current) }, .ok)

/-! ### Threads -/

/-- `st_thread_create`.  Every thread has a record of its own: `_st_stack_new` can hand a new thread
the stack, and so the record, of one that has ended, and it is an assumption that it does not.  The
owner of a mutex is a record: that of a thread that ended with the mutex would be the new one. -/
def threadCreate (s : Vp) (joinable : Bool) : Vp :=
  { s with
    thread := Function.update s.thread s.next ⟨.runnable, false, false, false, joinable, 0, .start⟩
    activeCount := s.activeCount + 1
    runq := s.runq ++ [s.next]
    next := s.next + 1 }

/-- `st_thread_exit` up to its first switch. -/
def threadExit (s : Vp) (retval : Nat) : Option Vp :=
  let me := s.current
  let s := s.modify me fun th => { th with retval := retval }
  let s := { s with activeCount := s.activeCount - 1 }
  if (s.thread me).joinable then
    let s := s.modify me fun th => { th with state := .zombie, pc := .exit }
    let s := { s with zombieq := s.zombieq ++ [me] }
    (s.condSignal (.term me) false).map schedule
  else some (s.switch .gone)

/-- `st_thread_exit` from its first switch on, with what `st_cond_destroy` returns. -/
def threadExitDone (s : Vp) : Vp × Ret :=
  let me := s.current
  let r := if s.waitq (.term me) ≠ [] then Ret.EBUSY else .ok
  ((s.modify me fun th => { th with joinable := false }).switch .gone, r)

/-- The loop of `st_thread_join`, up to a switch or to its end. -/
def joinLoop (s : Vp) (t : Tid) : Option (Vp × Option Ret) :=
  if (s.thread t).state ≠ .zombie then s.condTimedwait (.join t) (.term t) noTimeout
  else
    let s' := { s with zombieq := s.zombieq.erase t }
    some (s'.makeRunnable t, some (.value (s.thread t).retval))

/-- `st_thread_join`. -/
def threadJoin (s : Vp) (t : Tid) : Option (Vp × Option Ret) :=
  if (s.thread t).joinable = false then some (s, some .EINVAL)
  else if s.current = t then some (s, some .EDEADLK)
  else if s.waitq (.term t) ≠ [] then some (s, some .EINVAL)
  else s.joinLoop t

/-- `st_thread_join` from a switch on. -/
def threadJoinDone (s : Vp) (t : Tid) : Option (Vp × Option Ret) :=
  let r := s.condTimedwaitDone (.term t)
  if r.2 ≠ .ok then some (r.1, some r.2) else r.1.joinLoop t

/-- `st_thread_yield`. -/
def threadYield (s : Vp) (now : Nat) : Option (Vp × Option Ret) :=
  (s.checkClock now).map fun s =>
    if s.runq = [] then (s, some .ok)
    else ((s.makeRunnable s.current).switch (.inside (.yield now)), none)

/-- `st_thread_interrupt`. -/
def threadInterrupt (s : Vp) (t : Tid) : Option Vp :=
  if (s.thread t).state = .zombie then some s
  else
    let s := s.modify t fun th => { th with interrupt := true }
    if (s.thread t).state = .running ∨ (s.thread t).state = .runnable then some s
    else (s.delIfSleeping t).map fun s => s.makeRunnable t

/-- `st_usleep` up to its switch. -/
def usleep (s : Vp) (usecs : Nat) : Option (Vp × Option Ret) :=
  let me := s.current
  if (s.thread me).interrupt then some (s.clearInterrupt me, some .EINTR)
  else
    let s := if usecs ≠ noTimeout then (s.setState me .sleeping).addSleepQ me usecs
      else some (s.setState me .suspended)
    s.map fun s => (s.switch (.inside (.usleep usecs)), none)

/-- `st_usleep` from its switch on. -/
def usleepDone (s : Vp) : Vp × Ret :=
  let me := s.current
  if (s.thread me).interrupt then (s.clearInterrupt me, .EINTR) else (s, .ok)

/-! ### Input and output -/

/-- `st_poll` up to its switch, when `pollset_add` succeeds or not. -/
def poll (s : Vp) (added : Bool) (timeout : Nat) : Option (Vp × Option Ret) :=
  let me := s.current
  if (s.thread me).interrupt then some (s.clearInterrupt me, some .EINTR)
  else if added = false then some (s, some .EINVAL)
  else
    let s := { s with ioq := s.ioq ++ [me] }
    (s.addIfTimed me timeout).map fun s =>
      ((s.setState me .ioWait).switch (.inside (.poll added timeout)), none)

/-- `st_poll` from its switch on. -/
def pollDone (s : Vp) : Vp × Ret :=
  let me := s.current
  let ready := !(me ∈ s.ioq : Bool)
  let s := { s with ioq := s.ioq.erase me }
  if (s.thread me).interrupt then (s.clearInterrupt me, .EINTR) else (s, .polled ready)

/-- The loop of `dispatch` over the io queue, when the poll sets of `ready` have descriptors that
are ready. -/
def dispatchLoop (ready : List Tid) : List Tid → Vp → Option Vp
  | [], s => some s
  | t :: q, s =>
      if t ∈ ready then
        ({ s with ioq := s.ioq.erase t } : Vp).delIfSleeping t |>.bind fun s =>
          dispatchLoop ready q (s.makeRunnable t)
      else dispatchLoop ready q s

/-- A round of `_st_idle_thread_start`: dispatch, check the clock and switch. -/
def idleRound (s : Vp) (ready : List Tid) (now : Nat) : Option Vp :=
  (dispatchLoop ready s.ioq s).bind fun s =>
    (s.checkClock now).map fun s => (s.setState s.current .runnable).switch .idle

end Vp

/-! ### Steps and what they show -/

/-- The running thread makes a call, or goes on behind a switch; the idle thread makes a round. -/
inductive Label where
  | call (c : Call)
  | resume
  | idle (ready : List Tid) (now : Nat)
  deriving DecidableEq, Repr

/-- A thread makes a call while the last clock is `clock`, a call of it returns, the event system
finds threads whose descriptors are ready, or the clock is read. -/
inductive Ev where
  | enter (t : Tid) (c : Call) (clock : Nat)
  | leave (t : Tid) (c : Call) (r : Ret)
  | dispatch (ready : List Tid)
  | clock (now : Nat)
  deriving DecidableEq, Repr

namespace Vp

/-- The thread has not been freed. -/
def Live (s : Vp) (t : Tid) : Prop := (s.thread t).pc ≠ .gone

instance (s : Vp) (t : Tid) : Decidable (s.Live t) := inferInstanceAs (Decidable (_ ≠ _))

/-- A thread that is named in a call is one of the program that has not been freed. -/
def Allowed (s : Vp) : Call → Prop
  | .join t | .interrupt t => s.Live t ∧ t ≠ s.idleThread
  | _ => True

instance (s : Vp) : (c : Call) → Decidable (s.Allowed c)
  | .join _ | .interrupt _ => inferInstanceAs (Decidable (_ ∧ _))
  | .create _ | .exit _ | .yield _ | .usleep _ | .condWait _ _ | .condSignal _ | .condBroadcast _
  | .mutexLock _ | .mutexUnlock _ | .mutexTrylock _ | .poll _ _ => inferInstanceAs (Decidable True)

/-- Which step can be taken: by the place of the current thread in the code.  The process ends when
the idle thread finds no active thread. -/
def Enabled (s : Vp) : Label → Prop
  | .call c => (s.thread s.current).pc = .user ∧ s.Allowed c
  | .resume => (s.thread s.current).pc ≠ .user ∧ (s.thread s.current).pc ≠ .idle
  | .idle _ _ => (s.thread s.current).pc = .idle ∧ 0 < s.activeCount

instance (s : Vp) : (l : Label) → Decidable (s.Enabled l)
  | .call _ | .resume | .idle _ _ => inferInstanceAs (Decidable (_ ∧ _))

/-- A call of the current thread, up to its return or to a switch. -/
def doCall (s : Vp) : Call → Option (Vp × Option Ret)
  | .create joinable => some (s.threadCreate joinable, some (.thread s.next))
  | .exit retval => (s.threadExit retval).map fun s => (s, none)
  | .join t => s.threadJoin t
  | .yield now => s.threadYield now
  | .interrupt t => (s.threadInterrupt t).map fun s => (s, some .ok)
  | .usleep usecs => s.usleep usecs
  | .condWait c timeout => s.condTimedwait (.condWait c timeout) (.user c) timeout
  | .condSignal c => (s.condSignal (.user c) false).map fun s => (s, some .ok)
  | .condBroadcast c => (s.condSignal (.user c) true).map fun s => (s, some .ok)
  | .mutexLock m => some (s.mutexLock m)
  | .mutexUnlock m => some ((s.mutexUnlock m).1, some (s.mutexUnlock m).2)
  | .mutexTrylock m => some ((s.mutexTrylock m).1, some (s.mutexTrylock m).2)
  | .poll added timeout => s.poll added timeout

/-- A call of the current thread from its switch on; `(s, none)` when it switched again. -/
def goOn (s : Vp) : Call → Option (Vp × Option Ret)
  | .join t => s.threadJoinDone t
  | .usleep _ => some (s.usleepDone.1, some s.usleepDone.2)
  | .condWait c _ =>
      some ((s.condTimedwaitDone (.user c)).1, some (s.condTimedwaitDone (.user c)).2)
  | .mutexLock m => some ((s.mutexLockDone m).1, some (s.mutexLockDone m).2)
  | .poll _ _ => some (s.pollDone.1, some s.pollDone.2)
  | .yield _ => some (s, some .ok)
  | .create _ | .exit _ | .interrupt _ | .condSignal _ | .condBroadcast _ | .mutexUnlock _
  | .mutexTrylock _ => none

/-- A call that returns leaves its thread outside the library. -/
def return? (me : Tid) (r : Vp × Option Ret) : Vp :=
  match r.2 with
  | some _ => r.1.modify me fun th => { th with pc := .user }
  | none => r.1

/-- The return of a call, if it returned. -/
def leave? (me : Tid) (c : Call) : Option Ret → List Ev
  | some r => [.leave me c r]
  | none => []

/-- The clock that a call reads. -/
def clock? : Call → List Ev
  | .yield now => [.clock now]
  | _ => []

/-- A step and what it shows. -/
def act (s : Vp) : Label → Option (Vp × List Ev)
  | .call c => (s.doCall c).map fun r =>
      (return? s.current r, .enter s.current c s.lastClock :: clock? c ++ leave? s.current c r.2)
  | .resume =>
      match (s.thread s.current).pc with
      | .start => some (s.modify s.current fun th => { th with pc := .user }, [])
      | .inside c => (s.goOn c).map fun r => (return? s.current r, leave? s.current c r.2)
      | .exit => some (s.threadExitDone.1,
          [.leave s.current (.exit (s.thread s.current).retval) s.threadExitDone.2])
      | .idle | .user | .gone => none
  | .idle ready now => (s.idleRound ready now).map fun s => (s, [.dispatch ready, .clock now])

def step (s : Vp) (l : Label) : Option Vp :=
  if s.Enabled l then (s.act l).map Prod.fst else none

/-- What a step shows. -/
def obs (s : Vp) (l : Label) : List Ev := ((s.act l).map Prod.snd).getD []

/-- After `st_init`: the idle thread is 0, and the primordial thread, which runs, is 1. -/
def init (clock : Nat) : Vp where
  thread t :=
    if t = 0 then ⟨.runnable, false, false, false, false, 0, .idle⟩
    else if t = 1 then ⟨.running, false, false, false, false, 0, .user⟩
    else ⟨.runnable, false, false, false, false, 0, .gone⟩
  heap := SleepQ.init
  current := 1
  idleThread := 0
  runq := []
  ioq := []
  zombieq := []
  waitq _ := []
  owner _ := none
  lockq _ := []
  lastClock := clock
  activeCount := 1
  next := 2

end Vp

end StCoroutine.Sched
