import StCoroutine.Coroutine.Object
import StCoroutine.Lib.Lts

/-!
# Coroutine — the life of one coroutine

`Life` is an `SrsFastCoroutine` from its constructor to its destructor, and `act` what anybody may
do to it: call `start`, `interrupt`, `pull` and `stop`, return from the handler's `cycle`, resume
the caller that waits in `st_thread_join`, and destroy it.  The labels carry what the environment
decides: the result of `st_thread_create`, the error the handler returns, what the join returns.
Two calls of `stop` do not overlap, and a join returns `0` only once the thread has ended; it may
fail at any time.

`Transition` lists what a step does, once for all (`Life.transition`), and `Life.ind` is the
induction along a run that the results about every run use.
-/

set_option autoImplicit false

namespace StCoroutine.Coroutine
open Kernel Lts

variable {τ : Type*}

/-! ### The steps -/

/-- One coroutine object in a process.  `stopper` is the call of `stop` that waits in
`st_thread_join`, `some true` when the destructor made it; `dtor` says that the destructor has
begun. -/
structure Life (τ : Type*) where
  obj : Obj τ
  mem : Nat
  stopper : Option Bool
  dtor : Bool
  destroyed : Bool
  aborted : Bool
  deriving DecidableEq, Repr

/-- What may happen to a coroutine. -/
inductive Op (τ : Type*) where
  | start (created : Option τ)
  | interrupt
  | pull
  | stop
  | dtor
  | joinReturn (r0 : Int)
  | cycleReturn (ret : SrsError)
  deriving DecidableEq, Repr

/-- What a step shows. -/
inductive Event (τ : Type*) where
  | st (call : StCall τ)
  | startReturned (err : SrsError)
  | interruptCalled
  | pulled (err : SrsError)
  | stopCalled
  | stopReturned
  | cycleReturned (ret : SrsError)
  | destroyed
  deriving DecidableEq, Repr

namespace Life

/-- After the constructor. -/
def new : Life τ := ⟨.new, 0, none, false, false, false⟩

/-- The object may be used. -/
def alive (s : Life τ) : Bool := !s.destroyed && !s.aborted

/-- After a method of the object. -/
def apply (s : Life τ) (e : Effect τ) : Life τ := { s with obj := s.obj.apply e, mem := e.mem }

/-- What the return of `stop` shows; the destructor goes on to its end. -/
def stopEvents (dtor : Bool) : List (Event τ) :=
  .stopReturned :: if dtor then [.destroyed] else []

/-- `stop` returns. -/
def stopReturn (s : Life τ) (dtor : Bool) : Life τ :=
  if dtor then
    { s with stopper := none, obj := { s.obj with co := s.obj.co.destroy }, destroyed := true }
  else { s with stopper := none }

/-- A call of `stop`, from the destructor or not. -/
def callStop (s : Life τ) (dtor : Bool) : List (Event τ) × Life τ :=
  match s.obj.co.stop s.mem with
  | (.assertFailed, e) => ([.stopCalled], { s.apply e with aborted := true })
  | (.joining _, e) => (.stopCalled :: e.calls.map .st, { s.apply e with stopper := some dtor })
  | (.returned, e) =>
    (.stopCalled :: (e.calls.map .st ++ stopEvents dtor), (s.apply e).stopReturn dtor)

/-- The join of `stop` returns `r0`, with the result `res` of the thread `t`. -/
def joinReturn (s : Life τ) (dtor : Bool) (t : τ) (r0 : Int) (res : SrsError) :
    List (Event τ) × Life τ :=
  match s.obj.co.stopJoined s.mem t r0 res with
  | some e => (e.calls.map .st ++ stopEvents dtor, (s.apply e).stopReturn dtor)
  | none => ([.st (.joined t r0)], { s with aborted := true })

/-- What a step shows and the state after it, when it may happen. -/
def act (s : Life τ) : Op τ → Option (List (Event τ) × Life τ)
  | .start created =>
    if s.alive then
      let (err, e) := s.obj.co.start s.mem created
      some (e.calls.map .st ++ [.startReturned err], s.apply e)
    else none
  | .interrupt =>
    if s.alive then
      let e := s.obj.co.interrupt s.mem
      some (.interruptCalled :: e.calls.map .st, s.apply e)
    else none
  | .pull =>
    if s.alive then some ([.pulled (s.obj.co.pull s.mem)], { s with mem := s.mem + 1 }) else none
  | .stop => if s.alive && s.stopper.isNone && !s.dtor then some (s.callStop false) else none
  | .dtor =>
    if s.alive && s.stopper.isNone && !s.dtor then some ({ s with dtor := true }.callStop true)
    else none
  | .joinReturn r0 =>
    match s.alive, s.stopper, s.obj.thread with
    | true, some d, .ended t res => some (s.joinReturn d t r0 res)
    | true, some d, .running t => if r0 = 0 then none else some (s.joinReturn d t r0 none)
    | _, _, _ => none
  | .cycleReturn ret =>
    match s.alive, s.obj.thread with
    | true, .running _ =>
      some ([.cycleReturned ret], { s with obj := s.obj.exit s.mem ret, mem := s.mem + 1 })
    | _, _ => none

def step (s : Life τ) (l : Op τ) : Option (Life τ) := (s.act l).map Prod.snd

def obs (s : Life τ) (l : Op τ) : List (Event τ) := ((s.act l).map Prod.fst).getD []

/-- What the run `ls` of a new coroutine shows. -/
abbrev events (ls : List (Op τ)) : List (Event τ) := trace step obs new ls

end Life

/-! ### What a step does -/

/-- What a step shows and does, by cases.  `m` is the allocator afterwards, and a call of `stop`
from the destructor (`d`) sets `dtor`. -/
inductive Transition (s : Life τ) : List (Event τ) → Life τ → Prop where
  | startRefused (err : SrsError) (a m : Nat) (hg : s.obj.co.started ∨ s.obj.co.disposed)
      (hc : SrsError.code err = ERROR_THREAD_DISPOSED ∨ SrsError.code err = ERROR_THREAD_STARTED)
      (he : err ≠ none) :
      Transition s [.startReturned err]
        { s with
          obj := ⟨{ s.obj.co with trdErr := s.obj.co.trdErr.or (SrsError.copy a err) },
            s.obj.thread⟩
          mem := m }
  | startFailed (err : SrsError) (a m : Nat) (hs : s.obj.co.started = false)
      (hd : s.obj.co.disposed = false) (hc : SrsError.code err = ERROR_ST_CREATE_CYCLE_THREAD)
      (he : err ≠ none) :
      Transition s [.st (.create none), .startReturned err]
        { s with
          obj := ⟨{ s.obj.co with trd := none, trdErr := SrsError.copy a err }, .absent⟩
          mem := m }
  | started (t : τ) (m : Nat) (hs : s.obj.co.started = false) (hd : s.obj.co.disposed = false)
      (hth : s.obj.thread = .absent) :
      Transition s [.st (.create (some t)), .startReturned none]
        { s with
          obj := ⟨{ s.obj.co with trd := some t, started := true }, .running t⟩
          mem := m }
  | interruptIgnored (m : Nat)
      (hg : s.obj.co.started = false ∨ s.obj.co.interrupted = true ∨ s.obj.co.cycleDone = true) :
      Transition s [.interruptCalled] { s with mem := m }
  | interrupted (t : τ) (a m : Nat) (ht : s.obj.co.trd = some t) (hs : s.obj.co.started = true)
      (hi : s.obj.co.interrupted = false) (hd : s.obj.co.cycleDone = false) :
      Transition s [.interruptCalled, .st (.interrupt (some t))]
        { s with
          obj := ⟨{ s.obj.co with
              interrupted := true
              trdErr := s.obj.co.trdErr.or
                (SrsError.new a ERROR_THREAD_INTERRUPED "interrupted") }, s.obj.thread⟩
          mem := m }
  | pulled (a m : Nat) : Transition s [.pulled (s.obj.co.pull a)] { s with mem := m }
  | stopAgain (d b : Bool) (m : Nat) (hd : s.obj.co.disposed = true)
      (hs : s.obj.co.stopping = false) :
      Transition s (.stopCalled :: Life.stopEvents d)
        (Life.stopReturn { s with mem := m, dtor := b } d)
  | stopUnstarted (d b : Bool) (a m : Nat) (hd : s.obj.co.disposed = false)
      (hs : s.obj.co.started = false) :
      Transition s (.stopCalled :: Life.stopEvents d)
        (Life.stopReturn
          { s with
            obj := ⟨SrsFastCoroutine.stopDone
              { s.obj.co with disposed := true, stopping := true } a, s.obj.thread⟩
            mem := m
            dtor := b } d)
  | stopClosed (d b : Bool) (t : τ) (m : Nat) (hd : s.obj.co.disposed = false)
      (ht : s.obj.co.trd = some t) (hs : s.obj.co.started = true)
      (hg : s.obj.co.interrupted = true ∨ s.obj.co.cycleDone = true) :
      Transition s [.stopCalled, .st (.join t)]
        { s with
          obj := ⟨{ s.obj.co with disposed := true, stopping := true }, s.obj.thread⟩
          mem := m
          stopper := some d
          dtor := b }
  | stopLive (d b : Bool) (t : τ) (a m : Nat) (hd : s.obj.co.disposed = false)
      (ht : s.obj.co.trd = some t) (hs : s.obj.co.started = true)
      (hi : s.obj.co.interrupted = false) (hc : s.obj.co.cycleDone = false) :
      Transition s [.stopCalled, .st (.interrupt (some t)), .st (.join t)]
        { s with
          obj := ⟨{ s.obj.co with
              disposed := true
              stopping := true
              interrupted := true
              trdErr := s.obj.co.trdErr.or
                (SrsError.new a ERROR_THREAD_INTERRUPED "interrupted") }, s.obj.thread⟩
          mem := m
          stopper := some d
          dtor := b }
  | joined (d : Bool) (t : τ) (res : SrsError) (a m : Nat) (hp : s.stopper = some d)
      (hth : s.obj.thread = .ended t res) :
      Transition s (.st (.joined t 0) :: Life.stopEvents d)
        (Life.stopReturn { s with obj := ⟨s.obj.co.stopDone a, .joined t res⟩, mem := m } d)
  | joinFailed (d : Bool) (t : τ) (r0 : Int) (hp : s.stopper = some d)
      (ht : s.obj.thread.handle = some t) (hr : r0 ≠ 0) (hj : s.obj.thread.isJoined = false) :
      Transition s [.st (.joined t r0)] { s with aborted := true }
  | cycleReturned (ret : SrsError) (t : τ) (a m : Nat) (hth : s.obj.thread = .running t) :
      Transition s [.cycleReturned ret] { s with obj := s.obj.exit a ret, mem := m }

namespace Life

/-- What holds of a coroutine at every moment. -/
structure Inv (s : Life τ) : Prop where
  flags : s.obj.Flags
  trdErr : s.destroyed = false → ∀ p, s.obj.thread.retval = some (some p) →
    s.obj.co.trdErr = some p
  stopper : s.obj.co.stopping = true ↔ s.stopper.isSome = true
  destroyed : s.destroyed = true → s.obj.co.disposed = true ∧ s.stopper = none

variable {s s' : Life τ} {l : Op τ} {evs : List (Event τ)}

theorem inv_new : Inv (new : Life τ) :=
  ⟨Obj.inv_new.toFlags, fun _ => Obj.inv_new.trdErr, by simp [new, Obj.new, SrsFastCoroutine.new],
    nofun⟩

theorem Inv.obj (h : s.Inv) (hd : s.destroyed = false) : s.obj.Inv := ⟨h.flags, h.trdErr hd⟩

theorem alive_iff : s.alive = true ↔ s.destroyed = false ∧ s.aborted = false := by simp [alive]

/-- The object with its invariant and no `stop` in progress: `stop` may return. -/
theorem inv_stopReturn (ho : s.obj.Inv) (hs : s.obj.co.stopping = false)
    (hd : s.obj.co.disposed = true) (hx : s.destroyed = false) (d : Bool) :
    (s.stopReturn d).Inv := by
  cases d with
  | false => exact ⟨ho.toFlags, fun _ => ho.trdErr, by simp [stopReturn, hs],
      fun hx' => by simp [stopReturn, hx] at hx'⟩
  | true => exact ⟨ho.toFlags.destroy, fun hx' => by simp [stopReturn] at hx',
      by simp [stopReturn, SrsFastCoroutine.destroy, hs],
      fun _ => ⟨by simpa [stopReturn, SrsFastCoroutine.destroy] using hd, by simp [stopReturn]⟩⟩

theorem callStop_spec (h : s.Inv) (hx : s.destroyed = false) (hp : s.stopper = none) (d b : Bool) :
    Transition s (callStop { s with dtor := b } d).1 (callStop { s with dtor := b } d).2 ∧
      (callStop { s with dtor := b } d).2.Inv := by
  have ho := h.obj hx
  have hi := ho.stop s.mem
  have hst : s.obj.co.stopping = false := by
    rw [← Bool.not_eq_true, h.stopper, hp]
    exact nofun
  obtain ⟨hd, e⟩ | ⟨hd, hs, e⟩ | ⟨hd, hs, t, ht, hg, e⟩ | ⟨hd, hs, t, ht, hi', hc, e⟩ :=
    ho.stop_cases s.mem
  · rw [hst] at e
    rw [e] at hi
    simp only [callStop, e, Bool.false_eq_true, if_false]
    refine ⟨.stopAgain d b s.mem hd hst, inv_stopReturn ?_ ?_ ?_ ?_ d⟩
    exacts [hi, hst, hd, hx]
  · rw [e] at hi
    simp only [callStop, e]
    refine ⟨.stopUnstarted d b s.mem (s.mem + 1) hd hs, inv_stopReturn ?_ ?_ ?_ ?_ d⟩
    exacts [hi, rfl, rfl, hx]
  · rw [e] at hi
    simp only [callStop, e]
    refine ⟨?_, hi.toFlags, fun _ => hi.trdErr, by simp [apply], fun hx' => ?_⟩
    · simpa [apply, Obj.apply] using Transition.stopClosed d b t s.mem hd ht hs hg
    · simp [apply, hx] at hx'
  · rw [e] at hi
    simp only [callStop, e]
    refine ⟨?_, hi.toFlags, fun _ => hi.trdErr, by simp [apply], fun hx' => ?_⟩
    · simpa [apply, Obj.apply] using Transition.stopLive d b t s.mem (s.mem + 1) hd ht hs hi' hc
    · simp [apply, hx] at hx'

theorem joinReturn_spec (h : s.Inv) (hx : s.destroyed = false) {d : Bool} (hp : s.stopper = some d)
    {t : τ} (r0 : Int) {res : SrsError} (hth : s.obj.thread = .ended t res) :
    Transition s (s.joinReturn d t r0 res).1 (s.joinReturn d t r0 res).2 ∧
      (s.joinReturn d t r0 res).2.Inv := by
  have ho := h.obj hx
  have hst : s.obj.co.stopping = true := h.stopper.mpr (by simp [hp])
  by_cases hr : r0 = 0
  · subst hr
    have hi := ho.join s.mem hst hth
    simp only [joinReturn, ho.stopJoined_eq hth]
    refine ⟨?_, inv_stopReturn ?_ ?_ ?_ ?_ d⟩
    · simpa [apply, Obj.apply, hth] using Transition.joined d t res s.mem (s.mem + 1) hp hth
    · exact hi
    · rfl
    · exact (ho.stopping hst).1
    · exact hx
  · have e : s.obj.co.stopJoined s.mem t r0 res = none := by simp [SrsFastCoroutine.stopJoined, hr]
    simp only [joinReturn, e]
    exact ⟨.joinFailed d t r0 hp (by simp [hth]) hr (by simp [hth]),
      ⟨h.flags, h.trdErr, h.stopper, h.destroyed⟩⟩

theorem alive_of_act (ha : s.act l = some (evs, s')) : s.alive = true := by
  by_contra hal
  rw [Bool.not_eq_true] at hal
  cases l <;> simp [act, hal] at ha

/-- **What a step does**, and that it keeps the invariant. -/
theorem act_spec (h : s.Inv) (ha : s.act l = some (evs, s')) : Transition s evs s' ∧ s'.Inv := by
  cases l with
  | start created =>
      simp only [act, Option.ite_none_right_eq_some, Option.some.injEq, Prod.mk.injEq] at ha
      obtain ⟨hal, rfl, rfl⟩ := ha
      obtain ⟨hx, -⟩ := alive_iff.mp hal
      have ho := h.obj hx
      have hi := ho.start s.mem created
      refine ⟨?_, hi.toFlags, fun _ => hi.trdErr, ?_, fun hx' => absurd (hx.symm.trans hx') nofun⟩
      · obtain ⟨hg, err, hc, he, e⟩ | ⟨hs, hd, -, err, hc, he, e⟩ | ⟨hs, hd, t, -, e⟩ :=
          s.obj.co.start_cases s.mem created
        · simpa [e, apply, Obj.apply] using Transition.startRefused err _ _ hg hc he
        · have hth := ho.absent hs
          simpa [e, apply, Obj.apply, hth] using Transition.startFailed err _ _ hs hd hc he
        · simpa [e, apply, Obj.apply] using Transition.started t _ hs hd (ho.absent hs)
      · obtain ⟨-, err, -, -, e⟩ | ⟨-, -, -, err, -, -, e⟩ | ⟨-, -, t, -, e⟩ :=
          s.obj.co.start_cases s.mem created <;>
        simpa [e, apply] using h.stopper
  | interrupt =>
      simp only [act, Option.ite_none_right_eq_some, Option.some.injEq, Prod.mk.injEq] at ha
      obtain ⟨hal, rfl, rfl⟩ := ha
      obtain ⟨hx, -⟩ := alive_iff.mp hal
      have ho := h.obj hx
      have hi := ho.interrupt s.mem
      rcases s.obj.co.guard_or_live with hg | ⟨hs, hi', hd⟩
      · rw [SrsFastCoroutine.interrupt_of_guard hg]
        exact ⟨.interruptIgnored s.mem hg, h⟩
      · rw [SrsFastCoroutine.interrupt_of_live hs hi' hd] at hi ⊢
        refine ⟨?_, hi.toFlags, fun _ => hi.trdErr, h.stopper, h.destroyed⟩
        obtain ⟨t, ht⟩ := Option.isSome_iff_exists.mp (ho.started ▸ hs)
        simpa [apply, Obj.apply, ht] using Transition.interrupted t s.mem (s.mem + 1) ht hs hi' hd
  | pull =>
      simp only [act, Option.ite_none_right_eq_some, Option.some.injEq, Prod.mk.injEq] at ha
      obtain ⟨hal, rfl, rfl⟩ := ha
      exact ⟨.pulled s.mem (s.mem + 1), ⟨h.flags, h.trdErr, h.stopper, h.destroyed⟩⟩
  | stop =>
      simp only [act, Option.ite_none_right_eq_some, Option.some.injEq, Bool.and_eq_true,
        Option.isNone_iff_eq_none] at ha
      obtain ⟨⟨⟨hal, hp⟩, -⟩, e⟩ := ha
      have hc := callStop_spec h (alive_iff.mp hal).1 hp false s.dtor
      rwa [e] at hc
  | dtor =>
      simp only [act, Option.ite_none_right_eq_some, Option.some.injEq, Bool.and_eq_true,
        Option.isNone_iff_eq_none] at ha
      obtain ⟨⟨⟨hal, hp⟩, -⟩, e⟩ := ha
      have hc := callStop_spec h (alive_iff.mp hal).1 hp true true
      rwa [e] at hc
  | joinReturn r0 =>
      simp only [act] at ha
      split at ha
      · rename_i d t res hal hp hth
        have hj := joinReturn_spec h (alive_iff.mp hal).1 hp r0 hth
        rw [Option.some.injEq] at ha
        rwa [ha] at hj
      · rename_i d t hal hp hth
        -- a join that fails may come back before the thread has ended
        by_cases hr : r0 = 0
        · simp [hr] at ha
        · have e : s.obj.co.stopJoined s.mem t r0 none = none := by
            simp [SrsFastCoroutine.stopJoined, hr]
          simp only [hr, if_false, joinReturn, e, Option.some.injEq, Prod.mk.injEq] at ha
          obtain ⟨rfl, rfl⟩ := ha
          exact ⟨.joinFailed d t r0 hp (by simp [hth]) hr (by simp [hth]),
            ⟨h.flags, h.trdErr, h.stopper, h.destroyed⟩⟩
      · cases ha
  | cycleReturn ret =>
      simp only [act] at ha
      split at ha
      · rename_i t hal hth
        obtain ⟨hx, -⟩ := alive_iff.mp hal
        simp only [Option.some.injEq, Prod.mk.injEq] at ha
        obtain ⟨rfl, rfl⟩ := ha
        have hi := (h.obj hx).exit s.mem hth ret
        refine ⟨.cycleReturned ret t s.mem (s.mem + 1) hth, hi.toFlags, fun _ => hi.trdErr, ?_,
          fun hx' => absurd (hx.symm.trans hx') nofun⟩
        cases ret with
        | none => exact h.stopper
        | some p => exact h.stopper
      · cases ha

/-- **Induction along a run** of a coroutine, with what it has shown so far in sight. -/
theorem ind {P : List (Event τ) → Life τ → Prop} (init : P [] new)
    (keep : ∀ tr s evs s', s.Inv → s.alive = true → P tr s → Transition s evs s' →
      P (tr ++ evs) s')
    {ls : List (Op τ)} (h : exec step new ls = some s) : s.Inv ∧ P (events ls) s := by
  refine trace_ind (P := fun tr s => s.Inv ∧ P tr s) ⟨inv_new, init⟩ ?_ h
  rintro tr s l s' ⟨hi, hP⟩ hs
  obtain ⟨⟨evs, s''⟩, ha, rfl⟩ := Option.map_eq_some_iff.mp hs
  obtain ⟨ht, hi'⟩ := act_spec hi ha
  have ho : obs s l = evs := by simp [obs, ha]
  rw [ho]
  exact ⟨hi', keep tr s evs s'' hi (alive_of_act ha) hP ht⟩

end Life

end StCoroutine.Coroutine
