import StCoroutine.Coroutine.Lifecycle

/-!
# Coroutine — the thread handle

What a coroutine does with the handle of its thread, in every run from its constructor to the end
of its destructor (`thread_handle_protocol`).  The calls to state-threads that involve a thread
follow one pattern, which the state determines (`Life.history`): the thread is created, it is
interrupted once or never, it is joined once, and after the `stop` that joined it the handle is
not used again.
-/

set_option autoImplicit false

namespace StCoroutine.Coroutine
open Kernel Lts

variable {τ : Type*}

def StCall.isCreate : StCall τ → Bool
  | .create (some _) => true
  | _ => false

def StCall.isInterrupt : StCall τ → Bool
  | .interrupt _ => true
  | _ => false

def StCall.isJoin : StCall τ → Bool
  | .join _ => true
  | _ => false

/-- The call to state-threads that an event is, if it creates a thread or passes a handle. -/
def Event.call? : Event τ → Option (StCall τ)
  | .st (.create none) => none
  | .st c => some c
  | _ => none

/-- The calls to state-threads that create a thread or pass a handle. -/
def handleCalls (tr : List (Event τ)) : List (StCall τ) := tr.filterMap Event.call?

@[simp] theorem handleCalls_nil : handleCalls ([] : List (Event τ)) = [] := rfl

@[simp] theorem handleCalls_cons (e : Event τ) (tr : List (Event τ)) :
    handleCalls (e :: tr) = e.call?.toList ++ handleCalls tr := by
  cases h : e.call? <;> simp [handleCalls, h]

@[simp] theorem handleCalls_append (tr tr' : List (Event τ)) :
    handleCalls (tr ++ tr') = handleCalls tr ++ handleCalls tr' := List.filterMap_append

@[simp] theorem handleCalls_stopEvents (d : Bool) :
    handleCalls (Life.stopEvents d : List (Event τ)) = [] := by
  cases d <;> rfl

/-- The interrupt of the thread `t`, if it was made. -/
def hit (t : τ) (interrupted : Bool) : List (StCall τ) :=
  if interrupted then [.interrupt (some t)] else []

/-- The calls that have created the thread or passed its handle. -/
def Thread.history (interrupted stopping : Bool) : Thread τ → List (StCall τ)
  | .absent => []
  | .running t | .ended t _ =>
    .create (some t) :: (hit t interrupted ++ if stopping then [.join t] else [])
  | .joined t _ => .create (some t) :: (hit t interrupted ++ [.join t, .joined t 0])

/-- The calls that the state of an object accounts for. -/
def Obj.history (o : Obj τ) : List (StCall τ) :=
  o.thread.history o.co.interrupted o.co.stopping

/-- What a trace shows of the handle.  A failed join ends the process. -/
structure Life.Handled (tr : List (Event τ)) (s : Life τ) : Prop where
  calls : s.aborted = false → handleCalls tr = s.obj.history
  failed : s.aborted = true → ∃ t r0, r0 ≠ 0 ∧ s.obj.thread.handle = some t ∧
    handleCalls tr =
      .create (some t) :: (hit t s.obj.co.interrupted ++ [.join t, .joined t r0])
  destroyed : .destroyed ∈ tr → s.destroyed = true ∧ s.aborted = false
  stopped : .stopReturned ∈ tr → s.obj.co.disposed = true ∧ s.obj.co.stopping = false
  quiet : tr.Pairwise fun a b => a = .stopReturned → ∀ c, b ≠ .st c

variable {s s' : Life τ} {tr evs : List (Event τ)}

namespace Life

@[simp] theorem stopReturn_thread (d : Bool) : (s.stopReturn d).obj.thread = s.obj.thread := by
  cases d <;> rfl

@[simp] theorem stopReturn_interrupted (d : Bool) :
    (s.stopReturn d).obj.co.interrupted = s.obj.co.interrupted := by
  cases d <;> rfl

@[simp] theorem stopReturn_disposed (d : Bool) :
    (s.stopReturn d).obj.co.disposed = s.obj.co.disposed := by
  cases d <;> rfl

@[simp] theorem stopReturn_stopping (d : Bool) :
    (s.stopReturn d).obj.co.stopping = s.obj.co.stopping := by
  cases d <;> rfl

@[simp] theorem stopReturn_aborted (d : Bool) : (s.stopReturn d).aborted = s.aborted := by
  cases d <;> rfl

end Life

/-! ### One step -/

/-- A failed join leaves the process dead; nothing else does. -/
theorem Transition.aborted (h : Transition s evs s') (ha : s.aborted = false) :
    s'.aborted = false ∨ ∃ t r0, r0 ≠ 0 ∧ s.stopper.isSome = true ∧
      s.obj.thread.handle = some t ∧ s.obj.thread.isJoined = false ∧
      evs = [.st (.joined t r0)] ∧ s' = { s with aborted := true } := by
  cases h with
  | joinFailed d t r0 hp ht hr hj => exact .inr ⟨t, r0, hr, by simp [hp], ht, hj, rfl, rfl⟩
  | stopAgain d => exact .inl (by simpa using ha)
  | stopUnstarted d => exact .inl (by simpa using ha)
  | joined d => exact .inl (by simpa using ha)
  | _ => exact .inl ha

/-- The calls of a step that does not kill the process extend the history by just these calls. -/
theorem Transition.history (hi : s.Inv) (h : Transition s evs s') (ha : s'.aborted = false) :
    s.obj.history ++ handleCalls evs = s'.obj.history := by
  have hf := hi.flags
  cases h with
  | startRefused => simp [Obj.history, Event.call?]
  | startFailed err a m hs hd hc he =>
      simp [Obj.history, hf.absent hs, Event.call?, Thread.history]
  | started t m hs hd hth =>
      simp [Obj.history, hth, Event.call?, Thread.history, hit, hf.not_interrupted hs,
        hf.not_stopping hd]
  | interruptIgnored => simp [Obj.history, Event.call?]
  | interrupted t a m ht hs hi' hc =>
      -- an interrupt that takes effect is the first one, and the only one of the history
      have hd := hf.not_disposed hs hi' hc
      rcases hf.thread_of_trd ht (hf.not_joined hd) with hth | ⟨r, hth⟩
      · simp [Obj.history, hth, Event.call?, Thread.history, hit, hi', hf.not_stopping hd]
      · simp [Obj.history, hth, Event.call?, Thread.history, hit, hi', hf.not_stopping hd]
  | pulled => simp [Obj.history, Event.call?]
  | stopAgain d b m hd hs => simp [Obj.history, Event.call?]
  | stopUnstarted d b a m hd hs =>
      simp [Obj.history, hf.absent hs, Event.call?, Thread.history]
  | stopClosed d b t m hd ht hs hg =>
      rcases hf.thread_of_trd ht (hf.not_joined hd) with hth | ⟨r, hth⟩
      · simp [Obj.history, hth, Event.call?, Thread.history, hf.not_stopping hd]
      · simp [Obj.history, hth, Event.call?, Thread.history, hf.not_stopping hd]
  | stopLive d b t a m hd ht hs hi' hc =>
      rcases hf.thread_of_trd ht (hf.not_joined hd) with hth | ⟨r, hth⟩
      · simp [Obj.history, hth, Event.call?, Thread.history, hit, hi', hf.not_stopping hd]
      · simp [Obj.history, hth, Event.call?, Thread.history, hit, hi', hf.not_stopping hd]
  | joined d t res a m hp hth =>
      -- the join was in the history from the time the caller began to wait
      have hst : s.obj.co.stopping = true := hi.stopper.mpr (by simp [hp])
      simp [Obj.history, hth, Event.call?, Thread.history, hst, SrsFastCoroutine.stopDone]
  | joinFailed => cases ha
  | cycleReturned ret t a m hth =>
      simp only [handleCalls_cons, Event.call?, Option.toList_none, handleCalls_nil,
        List.append_nil, Obj.history, Obj.exit_thread, hth, Thread.exit_running]
      cases ret with
      | none => rfl
      | some p => rfl

/-- After a `stop` has returned, a step makes no call to state-threads. -/
theorem Transition.no_calls (hi : s.Inv) (h : Transition s evs s')
    (hd : s.obj.co.disposed = true) (hs : s.obj.co.stopping = false) : ∀ c, .st c ∉ evs := by
  have hp : s.stopper = none := by
    rw [← Option.not_isSome_iff_eq_none, ← hi.stopper, hs]
    exact nofun
  cases h with
  | startFailed err a m hs' hd' => exact nomatch hd.symm.trans hd'
  | started t m hs' hd' => exact nomatch hd.symm.trans hd'
  | interrupted t a m ht hs' hi' hc =>
      exact nomatch hd.symm.trans (hi.flags.not_disposed hs' hi' hc)
  | stopAgain d => cases d <;> simp [Life.stopEvents]
  | stopUnstarted d => cases d <;> simp [Life.stopEvents]
  | stopClosed d b t m hd' => exact nomatch hd.symm.trans hd'
  | stopLive d b t a m hd' => exact nomatch hd.symm.trans hd'
  | joined d t res a m hp' => exact nomatch hp.symm.trans hp'
  | joinFailed d t r0 hp' => exact nomatch hp.symm.trans hp'
  | startRefused => simp
  | interruptIgnored => simp
  | pulled => simp
  | cycleReturned => simp

/-- A `stop` that has returned stays the last. -/
theorem Transition.stopped (hi : s.Inv) (h : Transition s evs s')
    (he : .stopReturned ∈ evs ∨ s.obj.co.disposed = true ∧ s.obj.co.stopping = false) :
    s'.obj.co.disposed = true ∧ s'.obj.co.stopping = false := by
  cases h with
  | stopAgain d b m hd hs => simpa using ⟨hd, hs⟩
  | stopUnstarted d => simp [SrsFastCoroutine.stopDone]
  | joined d t res a m hp =>
      have hst : s.obj.co.stopping = true := hi.stopper.mpr (by simp [hp])
      simp [SrsFastCoroutine.stopDone, (hi.flags.stopping hst).1]
  | startFailed => simpa using he
  | stopClosed d b t m hd => simp [hd] at he
  | stopLive d b t a m hd => simp [hd] at he
  | _ => simpa using he

theorem Transition.destroyed (h : Transition s evs s') (ha : s.aborted = false)
    (he : .destroyed ∈ evs) : s'.destroyed = true ∧ s'.aborted = false := by
  cases h with
  | stopAgain d => cases d <;> simp [Life.stopEvents, Life.stopReturn, ha] at he ⊢
  | stopUnstarted d => cases d <;> simp [Life.stopEvents, Life.stopReturn, ha] at he ⊢
  | joined d => cases d <;> simp [Life.stopEvents, Life.stopReturn, ha] at he ⊢
  | _ => simp at he

/-- The return of `stop` is the last thing a step shows, but for the end of the destructor. -/
theorem Transition.quiet (h : Transition s evs s') :
    evs.Pairwise fun a b => a = .stopReturned → ∀ c, b ≠ .st c := by
  cases h with
  | stopAgain d => cases d <;> simp [Life.stopEvents]
  | stopUnstarted d => cases d <;> simp [Life.stopEvents]
  | joined d => cases d <;> simp [Life.stopEvents]
  | _ => simp

/-! ### Every run -/

theorem Life.Handled.step (h : Handled tr s) (hi : s.Inv) (hal : s.alive = true)
    (ht : Transition s evs s') : Handled (tr ++ evs) s' := by
  obtain ⟨hx, ha⟩ := alive_iff.mp hal
  refine ⟨fun ha' => ?_, fun ha' => ?_, fun he => ?_, fun he => ?_, ?_⟩
  · rw [handleCalls_append, h.calls ha, ht.history hi ha']
  · rcases ht.aborted ha with h' | ⟨t, r0, hr, hp, hth, hj, rfl, rfl⟩
    · exact nomatch ha'.symm.trans h'
    · have hst := hi.stopper.mpr hp
      refine ⟨t, r0, hr, hth, ?_⟩
      rcases hi.flags.thread_of_trd (hi.flags.trd.trans hth) hj with hth' | ⟨r, hth'⟩
      · simp [h.calls ha, Obj.history, hth', Thread.history, hst, Event.call?]
      · simp [h.calls ha, Obj.history, hth', Thread.history, hst, Event.call?]
  · rcases List.mem_append.mp he with he | he
    · exact nomatch hx.symm.trans (h.destroyed he).1
    · exact ht.destroyed ha he
  · rcases List.mem_append.mp he with he | he
    · exact ht.stopped hi (.inr (h.stopped he))
    · exact ht.stopped hi (.inl he)
  · refine List.pairwise_append.mpr ⟨h.quiet, ht.quiet, ?_⟩
    rintro a ha' b hb rfl c rfl
    obtain ⟨hd, hs⟩ := h.stopped ha'
    exact ht.no_calls hi hd hs c hb

theorem Life.handled {ls : List (Op τ)} (h : exec Life.step Life.new ls = some s) :
    s.Inv ∧ Handled (Life.events ls) s :=
  Life.ind ⟨fun _ => rfl, nofun, by simp, by simp, .nil⟩
    (fun _ _ _ _ hi hal hH ht => hH.step hi hal ht) h

/-- The calls of a run, up to the failure that ended it: none, or the creation, the interrupt if
there was one, and as much of the join as has happened. -/
theorem Life.Handled.shape (h : Handled tr s) :
    handleCalls tr = [] ∨ ∃ t j,
      handleCalls tr = .create (some t) :: (hit t s.obj.co.interrupted ++ j) ∧
      (j = [] ∨ j = [.join t] ∨ ∃ r0, j = [.join t, .joined t r0]) := by
  cases ha : s.aborted with
  | true =>
      obtain ⟨t, r0, -, -, e⟩ := h.failed ha
      exact .inr ⟨t, _, e, .inr (.inr ⟨r0, rfl⟩)⟩
  | false =>
      have e := h.calls ha
      rw [Obj.history] at e
      cases hth : s.obj.thread with
      | absent => exact .inl (by rw [e, hth, Thread.history])
      | joined t r =>
          rw [hth, Thread.history] at e
          exact .inr ⟨t, _, e, .inr (.inr ⟨0, rfl⟩)⟩
      | running t =>
          rw [hth, Thread.history] at e
          refine .inr ⟨t, _, e, ?_⟩
          cases s.obj.co.stopping <;> simp
      | ended t r =>
          rw [hth, Thread.history] at e
          refine .inr ⟨t, _, e, ?_⟩
          cases s.obj.co.stopping <;> simp

/-- An interrupt among such calls comes right after the creation. -/
theorem interrupt_after_create {t : τ} {i : Bool} {j pre post : List (StCall τ)} {u : Option τ}
    (hj : ∀ v, .interrupt v ∉ j)
    (e : .create (some t) :: (hit t i ++ j) = pre ++ .interrupt u :: post) :
    u = some t ∧ pre = [.create (some t)] := by
  cases pre with
  | nil => simp at e
  | cons c pre =>
      rw [List.cons_append, List.cons.injEq] at e
      obtain ⟨rfl, e⟩ := e
      cases i with
      | false => exact absurd (show .interrupt u ∈ j by simp [show j = _ from e]) (hj u)
      | true =>
          cases pre with
          | nil =>
              have e' : some t = u ∧ j = post := by simpa [hit] using e
              exact ⟨e'.1.symm, rfl⟩
          | cons c' pre =>
              have e' : .interrupt (some t) = c' ∧ j = pre ++ .interrupt u :: post := by
                simpa [hit] using e
              exact absurd (e'.2 ▸ List.mem_append_right _ List.mem_cons_self) (hj u)

/-- Each kind of call is made at most once. -/
theorem countP_le_one {t : τ} {i : Bool} {j : List (StCall τ)}
    (hj : j = [] ∨ j = [.join t] ∨ ∃ r0, j = [.join t, .joined t r0]) :
    let calls := .create (some t) :: (hit t i ++ j)
    calls.countP StCall.isCreate ≤ 1 ∧ calls.countP StCall.isInterrupt ≤ 1 ∧
      calls.countP StCall.isJoin ≤ 1 := by
  rcases hj with rfl | rfl | ⟨r0, rfl⟩ <;> cases i <;>
    simp [hit, List.countP_cons, StCall.isCreate, StCall.isInterrupt, StCall.isJoin]

/-- An interrupt is of a thread that was created and is not joined. -/
theorem Life.Handled.interrupt (h : Handled tr s) {pre post : List (StCall τ)} {u : Option τ}
    (e : handleCalls tr = pre ++ .interrupt u :: post) :
    ∃ t, u = some t ∧ .create (some t) ∈ pre ∧ ∀ r0, .joined t r0 ∉ pre := by
  rcases h.shape with e' | ⟨t, j, e', hj⟩
  · rw [e'] at e
    simp at e
  · have hj' : ∀ v, .interrupt v ∉ j := by
      rcases hj with rfl | rfl | ⟨r0, rfl⟩ <;> simp
    obtain ⟨rfl, rfl⟩ := interrupt_after_create hj' (e' ▸ e)
    exact ⟨t, rfl, by simp, by simp⟩

/-- A destructor that has finished has joined the thread, if one was created. -/
theorem Life.Handled.joined (h : Handled tr s) (hi : s.Inv) (hd : .destroyed ∈ tr) {t : τ}
    (ht : .create (some t) ∈ handleCalls tr) :
    (handleCalls tr).countP StCall.isJoin = 1 ∧ .join t ∈ handleCalls tr ∧
      .joined t 0 ∈ handleCalls tr := by
  obtain ⟨hx, ha⟩ := h.destroyed hd
  obtain ⟨hdis, hp⟩ := hi.destroyed hx
  have hst : s.obj.co.stopping = false := by
    rw [← Bool.not_eq_true, hi.stopper, hp]
    exact nofun
  have hj : s.obj.co.started = true → s.obj.thread.isJoined = true :=
    fun hs => hi.flags.joined.mpr ⟨hdis, hst, hs⟩
  have hs : s.obj.co.started = true ↔ s.obj.thread.handle.isSome = true := by
    rw [hi.flags.started, hi.flags.trd]
  rw [h.calls ha, Obj.history] at ht ⊢
  cases hth : s.obj.thread with
  | absent => simp [hth, Thread.history] at ht
  | running u => simp [hth, hs] at hj
  | ended u r => simp [hth, hs] at hj
  | joined u r =>
      rw [hth] at ht
      obtain rfl : t = u := by
        cases hi' : s.obj.co.interrupted <;> simpa [Thread.history, hit, hi'] using ht
      cases hi' : s.obj.co.interrupted <;>
        simp [Thread.history, hit, List.countP_cons, StCall.isJoin]

/-- **The thread handle**, in every run of a coroutine from its constructor: at most one thread is
created, and `trd` is not `NULL` exactly when `started` is set; `st_thread_interrupt` is called at
most once, and then on a thread that was created and is not joined; `st_thread_join` is called at
most once, and a destructor that has finished has joined the thread if there is one; after the
return of a `stop` no call to state-threads is made. -/
theorem thread_handle_protocol {ls : List (Op τ)} {s : Life τ}
    (h : exec Life.step Life.new ls = some s) :
    let tr := Life.events ls
    let calls := handleCalls tr
    calls.countP StCall.isCreate ≤ 1 ∧
      (s.obj.co.trd ≠ none ↔ s.obj.co.started = true) ∧
      calls.countP StCall.isInterrupt ≤ 1 ∧
      (∀ pre u post, calls = pre ++ .interrupt u :: post →
        ∃ t, u = some t ∧ .create (some t) ∈ pre ∧ ∀ r0, .joined t r0 ∉ pre) ∧
      calls.countP StCall.isJoin ≤ 1 ∧
      (.destroyed ∈ tr → ∀ t, .create (some t) ∈ calls →
        calls.countP StCall.isJoin = 1 ∧ .join t ∈ calls ∧ .joined t 0 ∈ calls) ∧
      tr.Pairwise fun a b => a = .stopReturned → ∀ c, b ≠ .st c := by
  intro tr calls
  obtain ⟨hi, hH⟩ := Life.handled h
  have hcount : calls.countP StCall.isCreate ≤ 1 ∧ calls.countP StCall.isInterrupt ≤ 1 ∧
      calls.countP StCall.isJoin ≤ 1 := by
    rcases hH.shape with e | ⟨t, j, e, hj⟩
    · simp [calls, tr, e]
    · rw [show calls = _ from e]
      exact countP_le_one hj
  have htrd : s.obj.co.trd ≠ none ↔ s.obj.co.started = true := by
    rw [hi.flags.started, ← Option.isSome_iff_ne_none]
  exact ⟨hcount.1, htrd, hcount.2.1, fun _ _ _ e => hH.interrupt e, hcount.2.2,
    fun hd _ ht => hH.joined hi hd ht, hH.quiet⟩

/-- A coroutine that is interrupted, ends and is destroyed. -/
theorem thread_handle_protocol_destroyed :
    ∃ s, exec Life.step Life.new
      [.start none, .start (some 7), .interrupt, .pull, .cycleReturn none, .dtor, .joinReturn 0]
        = some s ∧ (handleCalls (Life.events
      [.start none, .start (some 7), .interrupt, .pull, .cycleReturn none, .dtor, .joinReturn 0]
        )).countP StCall.isJoin = 1 :=
  ⟨_, rfl, ((thread_handle_protocol rfl).2.2.2.2.2.1 (by decide) 7 (by decide)).1⟩

end StCoroutine.Coroutine
