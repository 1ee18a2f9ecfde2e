import Mathlib.Logic.Function.Basic
import StCoroutine.Coroutine.Object
import StCoroutine.Lib.Lts

/-!
# Coroutine — coroutines that start, interrupt and stop each other

`World` is a process with a coroutine for every `i : ι`, and `step` lets any of them, or the
primordial thread, call `start`, `interrupt`, `stop` and the destructor of any other, in any order.
The handle of the thread that `i.start()` creates is `i`.

What state-threads does is taken from `sched.c` and `sync.c`.  `st_thread_interrupt` sets the
interrupt flag of a thread that has not ended.  `st_thread_join` returns `0` at once when the target
has ended; otherwise it fails with `EINTR` when the flag of its caller is set, and waits.  A waiting
caller that is resumed fails with `EINTR` when its flag is set by then, and returns `0` when the
target has ended.  A failure clears the flag, and so does any other blocking call (`deliver`).

No coroutine stops itself, and none is being stopped twice at a time.  Cycles of stops through
several coroutines are not excluded here.
-/

set_option autoImplicit false

namespace StCoroutine.Coroutine
open Kernel Lts

variable {ι : Type*} [DecidableEq ι]

/-- Where a caller is: it runs, or waits in the `st_thread_join` of the `stop` of `j`. -/
inductive Pos (ι : Type*) where
  | active
  | joining (j : ι) (dtor : Bool)
  deriving DecidableEq, Repr

/-- A process.  `obj j` is `none` once `j` is destroyed; the callers are the coroutines and, as
`none`, the primordial thread; `flag` is the interrupt flag `_ST_FL_INTERRUPT` of their threads. -/
structure World (ι : Type*) where
  obj : ι → Option (Obj ι)
  flag : Option ι → Bool
  pos : Option ι → Pos ι
  mem : Nat
  aborted : Bool

/-- A step: the caller `c` calls a method of `j`, resumes in its join, has its interrupt delivered
by another call; the handler's `cycle` of `i` returns. -/
inductive Label (ι : Type*) where
  | start (c : Option ι) (j : ι) (created : Bool)
  | interrupt (c : Option ι) (j : ι)
  | stop (c : Option ι) (j : ι) (dtor : Bool)
  | resume (c : Option ι)
  | deliver (c : Option ι)
  | exit (i : ι) (ret : SrsError)

namespace World

/-- The coroutines after their constructors. -/
def init : World ι := ⟨fun _ => some .new, fun _ => false, fun _ => .active, 0, false⟩

/-- The thread of the coroutine `i` has been created and has not ended. -/
def threadRuns (s : World ι) (i : ι) : Bool :=
  match s.obj i with
  | some ⟨_, .running _⟩ => true
  | _ => false

/-- The caller `c` can run code. -/
def runs (s : World ι) (c : Option ι) : Bool :=
  !s.aborted && s.pos c = .active && match c with
    | none => true
    | some i => s.threadRuns i

/-- The flags after a call to state-threads. -/
def signal (s : World ι) (flag : Option ι → Bool) : StCall ι → Option ι → Bool
  | .interrupt (some t) => if s.threadRuns t then Function.update flag (some t) true else flag
  | _ => flag

/-- After a method of `j`. -/
def apply (s : World ι) (j : ι) (o : Obj ι) (e : Effect ι) : World ι :=
  { s with
    obj := Function.update s.obj j (some (o.apply e))
    flag := e.calls.foldl s.signal s.flag
    mem := e.mem }

/-- `stop` returns; the destructor goes on to its end. -/
def stopReturn (s : World ι) (j : ι) (dtor : Bool) : World ι :=
  if dtor then { s with obj := Function.update s.obj j none } else s

/-- The join of the thread `t` of `j` returns `r0` to `c`, with the result `res`. -/
def joined (s : World ι) (c : Option ι) (j t : ι) (o : Obj ι) (r0 : Int) (res : SrsError)
    (dtor : Bool) : World ι :=
  match o.co.stopJoined s.mem t r0 res with
  | none => { s with aborted := true }
  | some e =>
    stopReturn { s.apply j o e with pos := Function.update s.pos c .active } j dtor

/-- The join fails with `EINTR`, which clears the flag of `c`. -/
def joinFailed (s : World ι) (c : Option ι) (j t : ι) (o : Obj ι) (dtor : Bool) : World ι :=
  joined { s with flag := Function.update s.flag c false } c j t o (-1) none dtor

/-- `st_thread_join` of the thread `t` of `j` by `c`. -/
def join (s : World ι) (c : Option ι) (j t : ι) (o : Obj ι) (dtor : Bool) : World ι :=
  match o.thread with
  | .ended _ res => s.joined c j t o 0 res dtor
  | _ =>
    if s.flag c then s.joinFailed c j t o dtor
    else { s with pos := Function.update s.pos c (.joining j dtor) }

/-- A call of `stop` by `c`, from the destructor or not. -/
def callStop (s : World ι) (c : Option ι) (j : ι) (o : Obj ι) (dtor : Bool) : World ι :=
  match o.co.stop s.mem with
  | (.assertFailed, e) => { s.apply j o e with aborted := true }
  | (.joining t, e) => (s.apply j o e).join c j t (o.apply e) dtor
  | (.returned, e) => (s.apply j o e).stopReturn j dtor

/-- The waiting caller `c` is scheduled. -/
def resume (s : World ι) (c : Option ι) (j : ι) (o : Obj ι) (dtor : Bool) : Option (World ι) :=
  match o.thread with
  | .running t => if s.flag c then some (s.joinFailed c j t o dtor) else none
  | .ended t res =>
    if s.flag c then some (s.joinFailed c j t o dtor) else some (s.joined c j t o 0 res dtor)
  | _ => none

def step (s : World ι) : Label ι → Option (World ι)
  | .start c j created =>
    match s.runs c, s.obj j with
    | true, some o =>
      some (s.apply j o (o.co.start s.mem (if created then some j else none)).2)
    | _, _ => none
  | .interrupt c j =>
    match s.runs c, s.obj j with
    | true, some o => some (s.apply j o (o.co.interrupt s.mem))
    | _, _ => none
  | .stop c j dtor =>
    match s.runs c, s.obj j with
    | true, some o =>
      if c = some j ∨ o.co.stopping = true then none else some (s.callStop c j o dtor)
    | _, _ => none
  | .resume c =>
    match s.aborted, s.pos c with
    | false, .joining j dtor => (s.obj j).bind fun o => s.resume c j o dtor
    | _, _ => none
  | .deliver c =>
    if s.runs c && s.flag c then some { s with flag := Function.update s.flag c false } else none
  | .exit i ret =>
    match s.runs (some i), s.obj i with
    | true, some o =>
      some { s with obj := Function.update s.obj i (some (o.exit s.mem ret)), mem := s.mem + 1 }
    | _, _ => none

end World

end StCoroutine.Coroutine
