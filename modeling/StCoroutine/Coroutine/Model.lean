import StCoroutine.Kernel.Error

/-!
# Coroutine — `SrsFastCoroutine` as the code has it

`srs_app_st.hpp` and `srs_app_st.cpp`.  A method is a function of the object, of the address `mem`
from which the allocator takes new errors, and of what state-threads returns to it.  It gives its
result and an `Effect`: the object and the allocator afterwards, and the calls it made to
state-threads.  `τ` is the type of thread handles, and `none` is the handle `NULL`.

`stop` is cut at `st_thread_join`, where its caller may be suspended: `stop` runs up to the join,
and `stopJoined` from its return.  A failed assertion ends the process.

The name, the stack size, the handler and the context ids of the object are left out: they are
passed on to the log and to `st_thread_create`, and no method reads them back.
-/

set_option autoImplicit false

namespace StCoroutine.Coroutine
open Kernel

variable {τ : Type*}

/-- `SrsFastCoroutine`. -/
structure SrsFastCoroutine (τ : Type*) where
  trd : Option τ
  trdErr : SrsError
  started : Bool
  interrupted : Bool
  disposed : Bool
  cycleDone : Bool
  stopping : Bool
  deriving DecidableEq, Repr

/-- A call to state-threads that passes a thread handle or returns one: `st_thread_create` with
its result, `st_thread_interrupt`, `st_thread_join` when it is called and when it returns. -/
inductive StCall (τ : Type*) where
  | create (trd : Option τ)
  | interrupt (trd : Option τ)
  | join (trd : τ)
  | joined (trd : τ) (r0 : Int)
  deriving DecidableEq, Repr

/-- The object and the allocator after a method, and the calls it made to state-threads. -/
structure Effect (τ : Type*) where
  co : SrsFastCoroutine τ
  mem : Nat
  calls : List (StCall τ)
  deriving DecidableEq, Repr

/-- How far `stop` gets: it returns, or waits in `st_thread_join`, or fails an assertion. -/
inductive Stop (τ : Type*) where
  | returned
  | joining (trd : τ)
  | assertFailed
  deriving DecidableEq, Repr

namespace SrsFastCoroutine

/-- The constructors. -/
def new : SrsFastCoroutine τ := ⟨none, none, false, false, false, false, false⟩

/-- `SrsFastCoroutine::pull`. -/
def pull (c : SrsFastCoroutine τ) (mem : Nat) : SrsError :=
  if c.trdErr = none then none else SrsError.copy mem c.trdErr

/-- `SrsFastCoroutine::start`, when `st_thread_create` returns `created`. -/
def start (c : SrsFastCoroutine τ) (mem : Nat) (created : Option τ) : SrsError × Effect τ :=
  if c.started || c.disposed then
    let err := if c.disposed then SrsError.new mem ERROR_THREAD_DISPOSED "disposed"
      else SrsError.new mem ERROR_THREAD_STARTED "started"
    (err, ⟨{ c with trdErr := c.trdErr.or (SrsError.copy (mem + 1) err) }, mem + 2, []⟩)
  else
    match created with
    | none =>
      let err := SrsError.new mem ERROR_ST_CREATE_CYCLE_THREAD "create failed"
      (err, ⟨{ c with trd := none, trdErr := SrsError.copy (mem + 1) err }, mem + 2,
        [.create none]⟩)
    | some t => (none, ⟨{ c with trd := some t, started := true }, mem, [.create (some t)]⟩)

/-- `SrsFastCoroutine::interrupt`. -/
def interrupt (c : SrsFastCoroutine τ) (mem : Nat) : Effect τ :=
  if !c.started || c.interrupted || c.cycleDone then
    ⟨c, mem, []⟩
  else
    let err := SrsError.new mem ERROR_THREAD_INTERRUPED "interrupted"
    ⟨{ c with interrupted := true, trdErr := c.trdErr.or err }, mem + 1, [.interrupt c.trd]⟩

/-- The last statements of `SrsFastCoroutine::stop`. -/
def stopDone (c : SrsFastCoroutine τ) (mem : Nat) : SrsFastCoroutine τ :=
  { c with
    trdErr := if c.trdErr = none ∧ c.cycleDone = false then
        SrsError.new mem ERROR_THREAD_TERMINATED "terminated"
      else c.trdErr
    stopping := false }

/-- `SrsFastCoroutine::stop`, up to its `st_thread_join`. -/
def stop (c : SrsFastCoroutine τ) (mem : Nat) : Stop τ × Effect τ :=
  if c.disposed then
    (if c.stopping then .assertFailed else .returned, ⟨c, mem, []⟩)
  else
    let e := interrupt { c with disposed := true, stopping := true } mem
    match e.co.trd with
    | some t => (.joining t, { e with calls := e.calls ++ [.join t] })
    | none => (.returned, { e with co := e.co.stopDone e.mem, mem := e.mem + 1 })

/-- `SrsFastCoroutine::stop` after its `st_thread_join`, which returned `r0` and left `res`; `none`
when an assertion fails. -/
def stopJoined (c : SrsFastCoroutine τ) (mem : Nat) (trd : τ) (r0 : Int) (res : SrsError) :
    Option (Effect τ) :=
  if r0 ≠ 0 then none
  else if res ≠ none ∧ SrsError.addr c.trdErr ≠ SrsError.addr res then none
  else some ⟨c.stopDone mem, mem + 1, [.joined trd r0]⟩

/-- `~SrsFastCoroutine` after its `stop`. -/
def destroy (c : SrsFastCoroutine τ) : SrsFastCoroutine τ := { c with trdErr := none }

/-- `SrsFastCoroutine::cycle`, when the handler's `cycle` returns `ret`. -/
def cycle (c : SrsFastCoroutine τ) (mem : Nat) (ret : SrsError) : SrsError × SrsFastCoroutine τ :=
  if ret ≠ none then (SrsError.wrap mem ret "coroutine cycle", c)
  else (ret, { c with cycleDone := true })

/-- `SrsFastCoroutine::pfn`, when the handler's `cycle` returns `ret`. -/
def pfn (c : SrsFastCoroutine τ) (mem : Nat) (ret : SrsError) : SrsError × Effect τ :=
  let (err, p) := c.cycle mem ret
  (err, ⟨if err ≠ none then { p with trdErr := err } else p, mem + 1, []⟩)

/-! ### What each method does -/

variable {c : SrsFastCoroutine τ} {mem : Nat}

@[simp] theorem code_pull (c : SrsFastCoroutine τ) (mem : Nat) :
    SrsError.code (c.pull mem) = SrsError.code c.trdErr := by
  by_cases h : c.trdErr = none
  · rw [pull, if_pos h, h]
  · rw [pull, if_neg h, SrsError.code_copy]

@[simp] theorem pull_eq_none : c.pull mem = none ↔ c.trdErr = none := by
  by_cases h : c.trdErr = none <;> simp [pull, h]

/-- `interrupt` on a coroutine that is not started, was interrupted or is done. -/
theorem interrupt_of_guard (h : c.started = false ∨ c.interrupted = true ∨ c.cycleDone = true) :
    c.interrupt mem = ⟨c, mem, []⟩ := by
  rcases h with h | h | h <;> simp [interrupt, h]

/-- `interrupt` on any other. -/
theorem interrupt_of_live (hs : c.started = true) (hi : c.interrupted = false)
    (hd : c.cycleDone = false) :
    c.interrupt mem =
      ⟨{ c with
          interrupted := true
          trdErr := c.trdErr.or (SrsError.new mem ERROR_THREAD_INTERRUPED "interrupted") },
        mem + 1, [.interrupt c.trd]⟩ := by
  simp [interrupt, hs, hi, hd]

/-- `interrupt` is closed or open. -/
theorem guard_or_live (c : SrsFastCoroutine τ) :
    (c.started = false ∨ c.interrupted = true ∨ c.cycleDone = true) ∨
      c.started = true ∧ c.interrupted = false ∧ c.cycleDone = false := by
  cases c.started <;> cases c.interrupted <;> cases c.cycleDone <;> simp

/-- `stop` on an object that is not disposed and has a thread, after its `interrupt`. -/
theorem stop_of_trd (hd : c.disposed = false) {e : Effect τ} {t : τ}
    (hi : interrupt { c with disposed := true, stopping := true } mem = e)
    (ht : e.co.trd = some t) :
    c.stop mem = (.joining t, { e with calls := e.calls ++ [.join t] }) := by
  subst hi
  simp [stop, hd, ht]

@[simp] theorem interrupt_trd : (c.interrupt mem).co.trd = c.trd := by
  rcases c.guard_or_live with hg | ⟨hs, hi, hd⟩
  · rw [interrupt_of_guard hg]
  · rw [interrupt_of_live hs hi hd]

@[simp] theorem interrupt_stopping : (c.interrupt mem).co.stopping = c.stopping := by
  rcases c.guard_or_live with hg | ⟨hs, hi, hd⟩
  · rw [interrupt_of_guard hg]
  · rw [interrupt_of_live hs hi hd]

/-- The three outcomes of `start`: refused, failed, a new thread. -/
theorem start_cases (c : SrsFastCoroutine τ) (mem : Nat) (created : Option τ) :
    ((c.started = true ∨ c.disposed = true) ∧ ∃ err,
      (SrsError.code err = ERROR_THREAD_DISPOSED ∨ SrsError.code err = ERROR_THREAD_STARTED) ∧
      err ≠ none ∧ c.start mem created =
        (err, ⟨{ c with trdErr := c.trdErr.or (SrsError.copy (mem + 1) err) }, mem + 2, []⟩)) ∨
    (c.started = false ∧ c.disposed = false ∧ created = none ∧ ∃ err,
      SrsError.code err = ERROR_ST_CREATE_CYCLE_THREAD ∧ err ≠ none ∧ c.start mem created =
        (err, ⟨{ c with trd := none, trdErr := SrsError.copy (mem + 1) err }, mem + 2,
          [.create none]⟩)) ∨
    (c.started = false ∧ c.disposed = false ∧ ∃ t, created = some t ∧ c.start mem created =
      (none, ⟨{ c with trd := some t, started := true }, mem, [.create (some t)]⟩)) := by
  by_cases hd : c.disposed = true
  · refine .inl ⟨.inr hd, SrsError.new mem ERROR_THREAD_DISPOSED "disposed", .inl rfl, nofun, ?_⟩
    simp [start, hd]
  by_cases hs : c.started = true
  · refine .inl ⟨.inl hs, SrsError.new mem ERROR_THREAD_STARTED "started", .inr rfl, nofun, ?_⟩
    simp [start, hs, hd]
  rw [Bool.not_eq_true] at hs hd
  cases created with
  | none =>
      refine .inr (.inl ⟨hs, hd, rfl, SrsError.new mem ERROR_ST_CREATE_CYCLE_THREAD "create failed",
        rfl, nofun, ?_⟩)
      simp [start, hs, hd]
  | some t =>
      refine .inr (.inr ⟨hs, hd, t, rfl, ?_⟩)
      simp [start, hs, hd]

/-- `pfn` after a handler that failed. -/
theorem pfn_some (p : ErrorPtr) :
    c.pfn mem (some p) = (SrsError.wrap mem (some p) "coroutine cycle",
      ⟨{ c with trdErr := SrsError.wrap mem (some p) "coroutine cycle" }, mem + 1, []⟩) := rfl

/-- `pfn` after a handler that returned `srs_success`. -/
theorem pfn_none : c.pfn mem none = (none, ⟨{ c with cycleDone := true }, mem + 1, []⟩) := rfl

@[simp] theorem pfn_trd (ret : SrsError) : (c.pfn mem ret).2.co.trd = c.trd := by
  cases ret <;> rfl

@[simp] theorem pfn_started (ret : SrsError) : (c.pfn mem ret).2.co.started = c.started := by
  cases ret <;> rfl

@[simp] theorem pfn_interrupted (ret : SrsError) :
    (c.pfn mem ret).2.co.interrupted = c.interrupted := by
  cases ret <;> rfl

@[simp] theorem pfn_disposed (ret : SrsError) : (c.pfn mem ret).2.co.disposed = c.disposed := by
  cases ret <;> rfl

@[simp] theorem pfn_stopping (ret : SrsError) : (c.pfn mem ret).2.co.stopping = c.stopping := by
  cases ret <;> rfl

end SrsFastCoroutine

end StCoroutine.Coroutine
