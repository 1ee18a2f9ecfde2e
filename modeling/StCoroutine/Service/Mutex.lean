import StCoroutine.Coroutine.Stops

/-!
# Service — mutexes and `SrsLocker`

`impl__SrsLocker` of `srs_service_st.hpp` locks a mutex in its constructor and unlocks it in its
destructor, and asserts that both calls returned `0`.  `srs_mutex_lock` and `srs_mutex_unlock` pass
on to `st_mutex_lock` and `st_mutex_unlock`, which are taken from `sync.c`: the first is cut where
it switches to another thread, and `none` is a call that has not returned yet.

`Locks` is a process with coroutines that start and interrupt each other, as in `World`, and with
mutexes.  `stop` is left out: to a mutex it is the `interrupt` that it makes.
-/

set_option autoImplicit false

namespace StCoroutine.Coroutine

/-- Who takes the step; `stop` is not taken here, and neither is the wait in its join. -/
def Label.caller {ι : Type*} : Label ι → Option (Option ι)
  | .start c _ _ | .interrupt c _ | .deliver c => some c
  | .exit i _ => some (some i)
  | .stop _ _ _ | .resume _ => none

/-- The body of the caller returns. -/
def Label.isExit {ι : Type*} : Label ι → Bool
  | .exit _ _ => true
  | .start _ _ _ | .interrupt _ _ | .stop _ _ _ | .resume _ | .deliver _ => false

end StCoroutine.Coroutine

namespace StCoroutine.Service
open Kernel Lts Coroutine

variable {ι κ : Type*} [DecidableEq ι] [DecidableEq κ]

/-- Where a thread is: not in `st_mutex_lock`, or behind its switch, in the state
`_ST_ST_LOCK_WAIT` or runnable again. -/
inductive Phase (κ : Type*) where
  | idle
  | waiting (m : κ)
  | woken (m : κ)
  deriving DecidableEq

/-- A thread that waits is made runnable. -/
def Phase.wake : Phase κ → Phase κ
  | waiting m => woken m
  | idle => idle
  | woken m => woken m

/-- The state is `_ST_ST_LOCK_WAIT`. -/
def Phase.isWaiting : Phase κ → Bool
  | waiting _ => true
  | idle | woken _ => false

/-- A process with mutexes.  `held` are the mutexes of the `SrsLocker` objects of a thread, from
the end of their constructors to their destructors, and `failed` says that an assertion of a locker
has failed. -/
structure Locks (ι κ : Type*) where
  world : World ι
  owner : κ → Option (Option ι)
  waitQ : κ → List (Option ι)
  phase : Option ι → Phase κ
  held : Option ι → List κ
  failed : Bool

namespace Locks

def init : Locks ι κ :=
  ⟨World.init, fun _ => none, fun _ => [], fun _ => .idle, fun _ => [], false⟩

/-- `me->flags &= ~_ST_FL_INTERRUPT`. -/
def clearFlag (s : Locks ι κ) (me : Option ι) : Locks ι κ :=
  { s with world := { s.world with flag := Function.update s.world.flag me false } }

/-! ### `st_mutex_lock` and `st_mutex_unlock` -/

/-- Up to the switch. -/
def stMutexLock (s : Locks ι κ) (me : Option ι) (lock : κ) : Option Int × Locks ι κ :=
  if s.world.flag me then (some (-1), s.clearFlag me)
  else
    match s.owner lock with
    | none => (some 0, { s with owner := Function.update s.owner lock (some me) })
    | some owner =>
      if owner = me then (some (-1), s)
      else
        (none, { s with
          phase := Function.update s.phase me (.waiting lock)
          waitQ := Function.update s.waitQ lock (s.waitQ lock ++ [me]) })

/-- From the switch on. -/
def stMutexLocked (s : Locks ι κ) (me : Option ι) (lock : κ) : Int × Locks ι κ :=
  let s := { s with
    phase := Function.update s.phase me .idle
    waitQ := Function.update s.waitQ lock ((s.waitQ lock).filter (· ≠ me)) }
  if s.world.flag me ∧ s.owner lock ≠ some me then (-1, s.clearFlag me) else (0, s)

def stMutexUnlock (s : Locks ι κ) (me : Option ι) (lock : κ) : Int × Locks ι κ :=
  if s.owner lock ≠ some me then (-1, s)
  else
    match (s.waitQ lock).find? fun thread => (s.phase thread).isWaiting with
    | some thread =>
      (0, { s with
        owner := Function.update s.owner lock (some thread)
        phase := Function.update s.phase thread (s.phase thread).wake })
    | none => (0, { s with owner := Function.update s.owner lock none })

/-! ### `impl__SrsLocker` -/

/-- The constructor has `r0`. -/
def constructed (s : Locks ι κ) (me : Option ι) (lock : κ) (r0 : Int) : Locks ι κ :=
  if r0 ≠ 0 then { s with failed := true }
  else { s with held := Function.update s.held me (lock :: s.held me) }

/-- The constructor, up to the switch of its `srs_mutex_lock` if it has to wait. -/
def construct (s : Locks ι κ) (me : Option ι) (lock : κ) : Locks ι κ :=
  match s.stMutexLock me lock with
  | (some r0, s) => s.constructed me lock r0
  | (none, s) => s

/-- The constructor, when it is resumed. -/
def resume (s : Locks ι κ) (me : Option ι) (lock : κ) : Locks ι κ :=
  let (r0, s) := s.stMutexLocked me lock
  s.constructed me lock r0

/-- The destructor. -/
def destruct (s : Locks ι κ) (me : Option ι) (lock : κ) : Locks ι κ :=
  let (r0, s) := s.stMutexUnlock me lock
  if r0 ≠ 0 then { s with failed := true }
  else { s with held := Function.update s.held me ((s.held me).filter (· ≠ lock)) }

end Locks

/-! ### Runs -/

/-- A step: a call that has nothing to do with mutexes; a constructor of a locker, which may have to
wait; a thread that waited in one and is runnable goes on; a destructor. -/
inductive LockLabel (ι κ : Type*) where
  | call (l : Label ι)
  | lock (c : Option ι) (m : κ)
  | resume (c : Option ι)
  | unlock (c : Option ι) (m : κ)

namespace Locks

/-- `st_thread_interrupt` sets the flag of a thread and makes it runnable if it waits. -/
def wake (s : Locks ι κ) (w : World ι) : Locks ι κ :=
  { s with
    world := w
    phase := fun c => if w.flag c then (s.phase c).wake else s.phase c }

/-- The thread runs code, and is not in `st_mutex_lock`. -/
def runs (s : Locks ι κ) (c : Option ι) : Bool :=
  !s.failed && s.world.runs c && s.phase c = .idle

/-- A body does not return before its lockers are destructed; nobody locks a mutex twice. -/
def step (s : Locks ι κ) : LockLabel ι κ → Option (Locks ι κ)
  | .call l =>
    match l.caller with
    | some c =>
      if s.runs c && (!l.isExit || (s.held c).isEmpty) then (s.world.step l).map s.wake else none
    | none => none
  | .lock c m => if s.runs c && m ∉ s.held c then some (s.construct c m) else none
  | .resume c =>
    match s.failed, s.phase c with
    | false, .woken m => some (s.resume c m)
    | _, _ => none
  | .unlock c m => if s.runs c && m ∈ s.held c then some (s.destruct c m) else none

end Locks

end StCoroutine.Service
