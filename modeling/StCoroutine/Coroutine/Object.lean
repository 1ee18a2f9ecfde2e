import StCoroutine.Coroutine.Model

/-!
# Coroutine — an object and its thread

The thread of an `SrsFastCoroutine` is what the calls of its methods make of it: `st_thread_create`
starts it, the return of `pfn` ends it, and an `st_thread_join` that returned `0` joins it.  `Obj`
is the object with its thread, and `Obj.Inv` is what holds of the pair at every moment:

* the handle and the flag `started` say whether there is a thread, and `cycle_done` whether it
  ended without an error;
* a thread that ended with an error has put that very object in `trd_err`;
* it is joined exactly when a `stop` of the started coroutine is over, and from the moment a
  `stop` has begun `interrupt` is closed.

Every method keeps it (`Obj.Inv.start`, `interrupt`, `stop`, `joined`, `exit`), and with it the
assertion of `stop` that compares `trd_err` with the result of the join holds (`stopJoined_eq`).
-/

set_option autoImplicit false

namespace StCoroutine.Coroutine
open Kernel

variable {τ : Type*}

/-- A thread of state-threads: never created, running, ended with what `pfn` returned, joined. -/
inductive Thread (τ : Type*) where
  | absent
  | running (trd : τ)
  | ended (trd : τ) (retval : SrsError)
  | joined (trd : τ) (retval : SrsError)
  deriving DecidableEq, Repr

namespace Thread

def handle : Thread τ → Option τ
  | absent => none
  | running t | ended t _ | joined t _ => some t

/-- What `pfn` returned. -/
def retval : Thread τ → Option SrsError
  | ended _ r | joined _ r => some r
  | absent | running _ => none

def isJoined : Thread τ → Bool
  | joined _ _ => true
  | absent | running _ | ended _ _ => false

/-- The thread after a call to state-threads. -/
def after : Thread τ → StCall τ → Thread τ
  | _, .create (some t) => running t
  | ended t r, .joined _ 0 => joined t r
  | th, _ => th

/-- The thread after its `pfn` returned `r`. -/
def exit (r : SrsError) : Thread τ → Thread τ
  | running t => ended t r
  | absent => absent
  | ended t r' => ended t r'
  | joined t r' => joined t r'

@[simp] theorem handle_absent : (absent : Thread τ).handle = none := rfl
@[simp] theorem handle_running (t : τ) : (running t).handle = some t := rfl
@[simp] theorem handle_ended (t : τ) (r : SrsError) : (ended t r).handle = some t := rfl
@[simp] theorem handle_joined (t : τ) (r : SrsError) : (joined t r).handle = some t := rfl

@[simp] theorem retval_absent : (absent : Thread τ).retval = none := rfl
@[simp] theorem retval_running (t : τ) : (running t).retval = none := rfl
@[simp] theorem retval_ended (t : τ) (r : SrsError) : (ended t r).retval = some r := rfl
@[simp] theorem retval_joined (t : τ) (r : SrsError) : (joined t r).retval = some r := rfl

@[simp] theorem isJoined_absent : (absent : Thread τ).isJoined = false := rfl
@[simp] theorem isJoined_running (t : τ) : (running t).isJoined = false := rfl
@[simp] theorem isJoined_ended (t : τ) (r : SrsError) : (ended t r).isJoined = false := rfl
@[simp] theorem isJoined_joined (t : τ) (r : SrsError) : (joined t r).isJoined = true := rfl

@[simp] theorem exit_running (r : SrsError) (t : τ) : exit r (running t) = ended t r := rfl

@[simp] theorem after_create_none (th : Thread τ) : th.after (.create none) = th := by
  cases th <;> rfl

@[simp] theorem after_create (th : Thread τ) (t : τ) : th.after (.create (some t)) = running t := by
  cases th <;> rfl

@[simp] theorem after_interrupt (th : Thread τ) (t : Option τ) :
    th.after (.interrupt t) = th := by
  cases th <;> rfl

@[simp] theorem after_join (th : Thread τ) (t : τ) : th.after (.join t) = th := by
  cases th <;> rfl

@[simp] theorem after_joined (t u : τ) (r : SrsError) :
    (ended t r).after (.joined u 0) = joined t r := rfl

end Thread

/-- A coroutine object and its thread. -/
structure Obj (τ : Type*) where
  co : SrsFastCoroutine τ
  thread : Thread τ
  deriving DecidableEq, Repr

namespace Obj

/-- A new object has no thread. -/
def new : Obj τ := ⟨.new, .absent⟩

/-- The pair after a method of the object. -/
def apply (o : Obj τ) (e : Effect τ) : Obj τ := ⟨e.co, e.calls.foldl Thread.after o.thread⟩

/-- The pair after the handler's `cycle` returned `ret` to the coroutine. -/
def exit (o : Obj τ) (mem : Nat) (ret : SrsError) : Obj τ :=
  ⟨(o.co.pfn mem ret).2.co, o.thread.exit (o.co.pfn mem ret).1⟩

/-- What the flags of the object say of its thread, at every moment. -/
structure Flags (o : Obj τ) : Prop where
  trd : o.co.trd = o.thread.handle
  started : o.co.started = o.co.trd.isSome
  cycleDone : o.co.cycleDone = true ↔ o.thread.retval = some none
  interrupted : o.co.interrupted = true → o.co.started = true
  closed : o.co.disposed = true → o.co.started = true →
    o.co.interrupted = true ∨ o.co.cycleDone = true
  stopping : o.co.stopping = true → o.co.disposed = true ∧ o.co.started = true
  joined : o.thread.isJoined = true ↔
    o.co.disposed = true ∧ o.co.stopping = false ∧ o.co.started = true

/-- What holds of the object and its thread until the destructor. -/
structure Inv (o : Obj τ) : Prop extends Flags o where
  trdErr : ∀ p, o.thread.retval = some (some p) → o.co.trdErr = some p

variable {o : Obj τ} {e : Effect τ} {mem : Nat}

@[simp] theorem apply_co : (o.apply e).co = e.co := rfl

@[simp] theorem apply_thread : (o.apply e).thread = e.calls.foldl Thread.after o.thread := rfl

@[simp] theorem exit_co (ret : SrsError) : (o.exit mem ret).co = (o.co.pfn mem ret).2.co := rfl

@[simp] theorem exit_thread (ret : SrsError) :
    (o.exit mem ret).thread = o.thread.exit (o.co.pfn mem ret).1 := rfl

theorem interrupt_thread : (o.apply (o.co.interrupt mem)).thread = o.thread := by
  rcases o.co.guard_or_live with hg | ⟨hs, hi, hd⟩
  · rw [SrsFastCoroutine.interrupt_of_guard hg]
    rfl
  · simp [SrsFastCoroutine.interrupt_of_live hs hi hd]

theorem inv_new : Inv (new : Obj τ) where
  trd := rfl
  started := rfl
  cycleDone := by simp [new, SrsFastCoroutine.new]
  trdErr := nofun
  interrupted := nofun
  closed := nofun
  stopping := nofun
  joined := by simp [new, SrsFastCoroutine.new]

namespace Flags

theorem started_of_trd (h : Flags o) {t : τ} (ht : o.co.trd = some t) : o.co.started = true := by
  rw [h.started, ht, Option.isSome_some]

theorem trd_eq_none (h : Flags o) : o.co.trd = none ↔ o.co.started = false := by
  rw [h.started]
  cases o.co.trd <;> simp

/-- A coroutine that is not started has no thread. -/
theorem absent (h : Flags o) (hs : o.co.started = false) : o.thread = .absent := by
  have ht : o.thread.handle = none := h.trd ▸ h.trd_eq_none.mpr hs
  cases hth : o.thread with
  | absent => rfl
  | running t => simp [hth, Thread.handle] at ht
  | ended t r => simp [hth, Thread.handle] at ht
  | joined t r => simp [hth, Thread.handle] at ht

/-- A coroutine that is not disposed is not joined. -/
theorem not_joined (h : Flags o) (hd : o.co.disposed = false) : o.thread.isJoined = false := by
  rw [← Bool.not_eq_true, h.joined, hd]
  exact fun h' => nomatch h'.1

theorem not_stopping (h : Flags o) (hd : o.co.disposed = false) : o.co.stopping = false := by
  rw [← Bool.not_eq_true]
  exact fun h' => nomatch hd.symm.trans (h.stopping h').1

theorem not_interrupted (h : Flags o) (hs : o.co.started = false) : o.co.interrupted = false := by
  rw [← Bool.not_eq_true]
  exact fun h' => nomatch hs.symm.trans (h.interrupted h')

/-- Once disposed, `interrupt` is closed. -/
theorem guard_of_disposed (h : Flags o) (hd : o.co.disposed = true) :
    o.co.started = false ∨ o.co.interrupted = true ∨ o.co.cycleDone = true := by
  cases hs : o.co.started with
  | false => exact .inl rfl
  | true => exact .inr (h.closed hd hs)

/-- While `interrupt` is open, no `stop` has begun. -/
theorem not_disposed (h : Flags o) (hs : o.co.started = true) (hi : o.co.interrupted = false)
    (hc : o.co.cycleDone = false) : o.co.disposed = false := by
  rw [← Bool.not_eq_true]
  intro hd
  rcases h.closed hd hs with h' | h'
  · exact nomatch hi.symm.trans h'
  · exact nomatch hc.symm.trans h'

/-- A thread that is not joined is running or has ended. -/
theorem thread_of_trd (h : Flags o) {t : τ} (ht : o.co.trd = some t)
    (hj : o.thread.isJoined = false) : o.thread = .running t ∨ ∃ r, o.thread = .ended t r := by
  have ht' := ht ▸ h.trd
  cases hth : o.thread with
  | absent => simp [hth] at ht'
  | joined u r => simp [hth] at hj
  | running u =>
      obtain rfl : t = u := by simpa [hth] using ht'
      exact .inl rfl
  | ended u r =>
      obtain rfl : t = u := by simpa [hth] using ht'
      exact .inr ⟨r, rfl⟩

/-- The destructor frees `trd_err` and leaves the flags. -/
theorem destroy (h : Flags o) : Flags ⟨o.co.destroy, o.thread⟩ := { h with }

end Flags

namespace Inv

theorem start (h : Inv o) (mem : Nat) (created : Option τ) :
    Inv (o.apply (o.co.start mem created).2) := by
  obtain ⟨hg, err, -, hne, e⟩ | ⟨hs, hd, rfl, err, -, -, e⟩ | ⟨hs, hd, t, rfl, e⟩ :=
    o.co.start_cases mem created
  · rw [e]
    exact { h with trdErr := fun p hp => by simp [h.trdErr p hp] }
  · have hth := h.absent hs
    rw [e]
    exact
      { trd := by simp [hth]
        started := by simp [hs]
        cycleDone := by simpa using h.cycleDone
        trdErr := fun p hp => by simp [hth] at hp
        interrupted := h.interrupted
        closed := h.closed
        stopping := h.stopping
        joined := by simpa using h.joined }
  · -- no thread has been there, so none has set `cycle_done`
    have hc : o.co.cycleDone = false := by
      rw [← Bool.not_eq_true, h.cycleDone, h.absent hs]
      exact nofun
    rw [e]
    exact
      { trd := by simp
        started := by simp
        cycleDone := by simp [hc]
        trdErr := fun p hp => by simp at hp
        interrupted := fun _ => rfl
        closed := fun hd' => by simp [hd] at hd'
        stopping := fun hs' => ⟨(h.stopping hs').1, rfl⟩
        joined := by simp [Thread.isJoined, hd] }

/-- An object whose `interrupt` is closed by now, or set it. -/
theorem interrupt (h : Inv o) (mem : Nat) : Inv (o.apply (o.co.interrupt mem)) := by
  rcases o.co.guard_or_live with hg | ⟨hs, hi, hd⟩
  · rw [SrsFastCoroutine.interrupt_of_guard hg]
    exact h
  · rw [SrsFastCoroutine.interrupt_of_live hs hi hd]
    exact
      { trd := by simpa using h.trd
        started := h.started
        cycleDone := by simpa using h.cycleDone
        trdErr := fun p hp => by simp [h.trdErr p (by simpa using hp)]
        interrupted := fun _ => hs
        closed := fun _ _ => .inl rfl
        stopping := h.stopping
        joined := by simpa using h.joined }

end Inv

/-- What `stop` does up to its join: nothing once disposed; on a coroutine that is not started it
runs to its end; otherwise it interrupts the coroutine, unless that is closed, and waits. -/
theorem Inv.stop_cases (h : Inv o) (mem : Nat) :
    (o.co.disposed = true ∧
      o.co.stop mem = (if o.co.stopping then .assertFailed else .returned, ⟨o.co, mem, []⟩)) ∨
    (o.co.disposed = false ∧ o.co.started = false ∧
      o.co.stop mem = (.returned,
        ⟨SrsFastCoroutine.stopDone { o.co with disposed := true, stopping := true } mem,
          mem + 1, []⟩)) ∨
    (o.co.disposed = false ∧ o.co.started = true ∧ ∃ t, o.co.trd = some t ∧
      (o.co.interrupted = true ∨ o.co.cycleDone = true) ∧
      o.co.stop mem =
        (.joining t, ⟨{ o.co with disposed := true, stopping := true }, mem, [.join t]⟩)) ∨
    (o.co.disposed = false ∧ o.co.started = true ∧ ∃ t, o.co.trd = some t ∧
      o.co.interrupted = false ∧ o.co.cycleDone = false ∧
      o.co.stop mem = (.joining t,
        ⟨{ o.co with
            disposed := true
            stopping := true
            interrupted := true
            trdErr := o.co.trdErr.or (SrsError.new mem ERROR_THREAD_INTERRUPED "interrupted") },
          mem + 1, [.interrupt (some t), .join t]⟩)) := by
  by_cases hd : o.co.disposed = true
  · refine .inl ⟨hd, ?_⟩
    simp [SrsFastCoroutine.stop, hd]
  rw [Bool.not_eq_true] at hd
  -- `stop` joins if it has a `trd`, which is so if the coroutine was started
  cases ht : o.co.trd with
  | none =>
      have hs := h.trd_eq_none.mp ht
      refine .inr (.inl ⟨hd, hs, ?_⟩)
      simp [SrsFastCoroutine.stop, SrsFastCoroutine.interrupt, hd, hs, ht]
  | some t =>
      have hs := h.started_of_trd ht
      by_cases hg : o.co.interrupted = true ∨ o.co.cycleDone = true
      · refine .inr (.inr (.inl ⟨hd, hs, t, rfl, hg, ?_⟩))
        exact SrsFastCoroutine.stop_of_trd hd (SrsFastCoroutine.interrupt_of_guard (.inr hg)) ht
      · simp only [not_or, Bool.not_eq_true] at hg
        refine .inr (.inr (.inr ⟨hd, hs, t, rfl, hg.1, hg.2, ?_⟩))
        rw [SrsFastCoroutine.stop_of_trd hd (SrsFastCoroutine.interrupt_of_live hs hg.1 hg.2) ht]
        simp [ht]

theorem Inv.stop (h : Inv o) (mem : Nat) : Inv (o.apply (o.co.stop mem).2) := by
  obtain ⟨-, e⟩ | ⟨hd, hs, e⟩ | ⟨hd, hs, t, ht, hg, e⟩ | ⟨hd, hs, t, ht, hi, hc, e⟩ :=
    h.stop_cases mem
  · rw [e]
    exact h
  · have hth := h.absent hs
    rw [e]
    exact
      { trd := h.trd
        started := h.started
        cycleDone := h.cycleDone
        trdErr := fun p hp => by simp [hth] at hp
        interrupted := h.interrupted
        closed := fun _ hs' => absurd (hs.symm.trans hs') nofun
        stopping := nofun
        joined := by simp [hth, SrsFastCoroutine.stopDone, hs] }
  · -- the join is still to come, so the thread is not joined
    have hj := h.not_joined hd
    rw [e]
    exact
      { trd := by simpa using h.trd
        started := h.started
        cycleDone := by simpa using h.cycleDone
        trdErr := fun p hp => h.trdErr p (by simpa using hp)
        interrupted := h.interrupted
        closed := fun _ _ => hg
        stopping := fun _ => ⟨rfl, hs⟩
        joined := by simp [hj] }
  · have hj := h.not_joined hd
    rw [e]
    exact
      { trd := by simpa using h.trd
        started := h.started
        cycleDone := by simpa using h.cycleDone
        trdErr := fun p hp => by simp [h.trdErr p (by simpa using hp)]
        interrupted := fun _ => hs
        closed := fun _ _ => .inl rfl
        stopping := fun _ => ⟨rfl, hs⟩
        joined := by simp [hj] }

/-- The assertions of `stop` hold when the join succeeded: `trd_err` is the object that the
thread returned, if it returned one. -/
theorem Inv.stopJoined_eq (h : Inv o) {t : τ} {r : SrsError} (hth : o.thread = .ended t r) :
    o.co.stopJoined mem t 0 r = some ⟨o.co.stopDone mem, mem + 1, [.joined t 0]⟩ := by
  cases r with
  | none => simp [SrsFastCoroutine.stopJoined]
  | some p =>
      have hp := h.trdErr p (by rw [hth, Thread.retval])
      simp [SrsFastCoroutine.stopJoined, hp]

theorem Inv.join (h : Inv o) (mem : Nat) (hs : o.co.stopping = true) {t : τ} {r : SrsError}
    (hth : o.thread = .ended t r) :
    Inv (o.apply ⟨o.co.stopDone mem, mem + 1, [.joined t 0]⟩) := by
  obtain ⟨hd, hst⟩ := h.stopping hs
  have hc := h.cycleDone
  have ht := h.trd
  rw [hth] at hc ht
  exact
    { trd := by simpa [hth, SrsFastCoroutine.stopDone] using ht
      started := h.started
      cycleDone := by simpa [hth, SrsFastCoroutine.stopDone] using hc
      trdErr := fun p hp => by
        have hp' := h.trdErr p (by simpa [hth] using hp)
        simp [SrsFastCoroutine.stopDone, hp']
      interrupted := h.interrupted
      closed := h.closed
      stopping := nofun
      joined := by simp [hth, SrsFastCoroutine.stopDone, hd, hst] }

theorem Inv.exit (h : Inv o) (mem : Nat) {t : τ} (hth : o.thread = .running t) (ret : SrsError) :
    Inv (o.exit mem ret) := by
  have hc := h.cycleDone
  have ht := h.trd
  have hj := h.joined
  rw [hth] at hc ht hj
  cases ret with
  | none =>
      exact
        { trd := by simpa [hth, SrsFastCoroutine.pfn_none] using ht
          started := h.started
          cycleDone := by simp [hth, SrsFastCoroutine.pfn_none]
          trdErr := fun p hp => by simp [hth, SrsFastCoroutine.pfn_none] at hp
          interrupted := h.interrupted
          closed := fun _ _ => .inr rfl
          stopping := h.stopping
          joined := by simpa [hth, SrsFastCoroutine.pfn_none] using hj }
  | some p =>
      exact
        { trd := by simpa [hth, SrsFastCoroutine.pfn_some] using ht
          started := h.started
          cycleDone := by
            simpa [hth, SrsFastCoroutine.pfn_some] using hc
          trdErr := fun q hq => by
            simpa [hth, SrsFastCoroutine.pfn_some] using hq
          interrupted := h.interrupted
          closed := h.closed
          stopping := h.stopping
          joined := by simpa [hth, SrsFastCoroutine.pfn_some] using hj }

end Obj

end StCoroutine.Coroutine
