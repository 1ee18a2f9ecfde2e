import StCoroutine.Coroutine.Lifecycle

/-!
# Coroutine — what `pull` reports

`trd_err` is written by `start` for its own errors, by `interrupt` and `stop`, and by the coroutine
when it ends; `pull` returns a copy of it.  `Reported` says what it holds after any run, in terms
of what the run has shown.  Two results follow.

* After the handler's `cycle` returned, `pull` gives the documented result exactly when `cycle`
  failed, or an interrupt came while it ran and no `start` had failed before that
  (`pull_reports_termination_iff`).  A `cycle` that returns `srs_success` by itself sets
  `cycle_done`, and then nobody writes `ERROR_THREAD_TERMINATED`.
* While a coroutine runs that nobody interrupted or stopped, `pull` gives `srs_success` exactly
  when no `start` of it has failed (`pull_running_iff`).
-/

set_option autoImplicit false

namespace StCoroutine.Coroutine
open Kernel Lts

variable {τ : Type*}

/-! ### What the callers of the methods see -/

/-- The coroutine was started and its handler's `cycle` has not returned. -/
def Running (tr : List (Event τ)) : Prop :=
  .startReturned none ∈ tr ∧ ∀ ret, .cycleReturned ret ∉ tr

/-- No `start` has returned an error. -/
def NoStartFailed (tr : List (Event τ)) : Prop := ∀ p, .startReturned (some p) ∉ tr

/-- A call of `interrupt`, or of `stop`, which calls it, came while the coroutine ran. -/
def Interrupted (tr : List (Event τ)) : Prop :=
  Occurs (fun pre e => (e = .interruptCalled ∨ e = .stopCalled) ∧ Running pre) tr

/-- Such a call came at a moment when no `start` had failed. -/
def CleanInterrupt (tr : List (Event τ)) : Prop :=
  Occurs (fun pre e => (e = .interruptCalled ∨ e = .stopCalled) ∧ Running pre ∧ NoStartFailed pre)
    tr

/-- The documented result of `pull` after the handler's `cycle` returned `ret`. -/
structure ReportsTermination (tr : List (Event τ)) (ret pulled : SrsError) : Prop where
  terminated : pulled ≠ none
  error : ∀ p, ret = some p → SrsError.code pulled = p.err.code
  interrupted : ret = none → Interrupted tr → SrsError.code pulled = ERROR_THREAD_INTERRUPED
  done : ret = none → ¬ Interrupted tr → SrsError.code pulled = ERROR_THREAD_TERMINATED

/-! ### An observer

What the notions above need to know of a trace, event by event. -/

/-- What an observer of the calls remembers. -/
structure View where
  started : Bool
  startFailed : Bool
  stopCalled : Bool
  returned : Option SrsError
  interrupted : Bool
  clean : Bool

namespace View

def init : View := ⟨false, false, false, none, false, false⟩

def running (v : View) : Bool := v.started && v.returned.isNone

def interrupt (v : View) : View :=
  { v with
    interrupted := v.interrupted || v.running
    clean := v.clean || (v.running && !v.startFailed) }

def next (v : View) : Event τ → View
  | .startReturned none => { v with started := true }
  | .startReturned (some _) => { v with startFailed := true }
  | .interruptCalled => v.interrupt
  | .stopCalled => { v.interrupt with stopCalled := true }
  | .cycleReturned ret => { v with returned := some ret }
  | .st _ | .pulled _ | .stopReturned | .destroyed => v

end View

def view (tr : List (Event τ)) : View := tr.foldl View.next .init

variable {s s' : Life τ} {tr evs : List (Event τ)}

theorem view_append : view (tr ++ evs) = evs.foldl View.next (view tr) := List.foldl_append

theorem view_snoc (e : Event τ) : view (tr ++ [e]) = (view tr).next e := view_append

/-- The observer is right. -/
theorem view_spec :
    ((view tr).started = true ↔ .startReturned none ∈ tr) ∧
      ((view tr).startFailed = false ↔ NoStartFailed tr) ∧
      ((view tr).stopCalled = true ↔ .stopCalled ∈ tr) ∧
      ((view tr).returned = none ↔ ∀ ret, .cycleReturned ret ∉ tr) := by
  induction tr using List.reverseRecOn with
  | nil => simp [view, View.init, NoStartFailed]
  | append_singleton tr e ih =>
      obtain ⟨h₁, h₂, h₃, h₄⟩ := ih
      rw [view_snoc]
      cases e with
      | startReturned err =>
          cases err with
          | none => simp_all [View.next, NoStartFailed]
          | some p =>
              simp_all only [View.next, NoStartFailed]
              simp only [List.mem_append, List.mem_singleton]
              exact ⟨by simp, by simpa using ⟨p, fun _ => rfl⟩, by simp, by simp⟩
      | cycleReturned ret =>
          simp_all only [View.next, NoStartFailed]
          simp only [List.mem_append, List.mem_singleton]
          exact ⟨by simp, by simp, by simp, by simpa using ⟨ret, fun _ => rfl⟩⟩
      | _ => simp_all [View.next, View.interrupt, NoStartFailed]

theorem view_running : (view tr).running = true ↔ Running tr := by
  rw [View.running, Bool.and_eq_true, Option.isNone_iff_eq_none, view_spec.1, view_spec.2.2.2,
    Running]

theorem view_interrupted : (view tr).interrupted = true ↔ Interrupted tr := by
  induction tr using List.reverseRecOn with
  | nil => simp [view, View.init, Interrupted]
  | append_singleton tr e ih =>
      rw [view_snoc, Interrupted, occurs_append, ← Interrupted, ← ih]
      cases e with
      | startReturned err => cases err <;> simp [View.next]
      | _ => simp [View.next, View.interrupt, view_running]

theorem view_clean : (view tr).clean = true ↔ CleanInterrupt tr := by
  induction tr using List.reverseRecOn with
  | nil => simp [view, View.init, CleanInterrupt]
  | append_singleton tr e ih =>
      rw [view_snoc, CleanInterrupt, occurs_append, ← CleanInterrupt, ← ih]
      cases e with
      | startReturned err => cases err <;> simp [View.next]
      | _ => simp [View.next, View.interrupt, view_running, view_spec.2.1]

/-! ### What a run leaves in `trd_err` -/

/-- The codes with which `start` fails. -/
def IsStartCode (c : Int) : Prop :=
  c = ERROR_ST_CREATE_CYCLE_THREAD ∨ c = ERROR_THREAD_STARTED ∨ c = ERROR_THREAD_DISPOSED

theorem not_isStartCode_success : ¬ IsStartCode ERROR_SUCCESS := by
  unfold IsStartCode
  decide

theorem not_isStartCode_interrupted : ¬ IsStartCode ERROR_THREAD_INTERRUPED := by
  unfold IsStartCode
  decide

theorem not_isStartCode_terminated : ¬ IsStartCode ERROR_THREAD_TERMINATED := by
  unfold IsStartCode
  decide

/-- The code of the error that `pfn` returned or the handler's `cycle` did. -/
abbrev codes (ret : Option SrsError) : Option (Option Int) :=
  ret.map fun r => r.map fun p => p.err.code

/-- The handler's `cycle` has returned an error. -/
def Failed (o : Obj τ) : Prop := ∃ p, o.thread.retval = some (some p)

/-- It has not while there is no return value. -/
theorem not_failed {o : Obj τ} (h : o.thread.retval = none) : ¬ Failed o := by
  rintro ⟨p, hp⟩
  exact nomatch h.symm.trans hp

/-- The object and its thread in terms of what has been seen. -/
structure Seen (v : View) (o : Obj τ) : Prop where
  started : o.co.started = v.started
  returned : codes o.thread.retval = codes v.returned
  disposed : o.co.disposed = true → v.stopCalled = true
  interrupted : v.interrupted = true → o.co.interrupted = true
  hit : o.co.interrupted = true → v.interrupted = true ∨ Failed o
  clean : v.clean = true → v.interrupted = true
  dirty : v.clean = false → v.interrupted = true → v.startFailed = true

/-- What `trd_err` holds, in terms of what has been seen. -/
structure Reported (v : View) (o : Obj τ) : Prop where
  fresh : o.co.interrupted = false → o.thread.retval = none → o.co.disposed = false →
    (o.co.trdErr = none ↔ v.startFailed = false)
  clean : ¬ Failed o → v.clean = true → SrsError.code o.co.trdErr = ERROR_THREAD_INTERRUPED
  other : ¬ Failed o → v.clean = false → (o.co.started = true ∨ o.co.disposed = false) →
    o.co.trdErr = none ∨ IsStartCode (SrsError.code o.co.trdErr)

variable {v : View} {o o' : Obj τ}

theorem seen_new : Seen View.init (Obj.new : Obj τ) :=
  ⟨rfl, rfl, nofun, nofun, nofun, nofun, nofun⟩

theorem reported_new : Reported View.init (Obj.new : Obj τ) := by
  refine ⟨?_, nofun, fun _ _ _ => .inl rfl⟩
  simp [Obj.new, SrsFastCoroutine.new, View.init]

theorem Seen.running (h : Seen v o) :
    v.running = true ↔ o.co.started = true ∧ o.thread.retval = none := by
  have hr := h.returned
  rw [View.running, Bool.and_eq_true, ← h.started, Option.isNone_iff_eq_none]
  cases ho : o.thread.retval <;> cases hv : v.returned <;> simp_all

/-- While `interrupt` is closed, the coroutine has been interrupted or does not run. -/
theorem Seen.running_of_guard (h : Seen v o) (hf : o.Flags)
    (hg : o.co.started = false ∨ o.co.interrupted = true ∨ o.co.cycleDone = true)
    (hr : v.running = true) : o.co.interrupted = true := by
  obtain ⟨hs, hn⟩ := h.running.mp hr
  rcases hg with hg | hg | hg
  · exact nomatch hs.symm.trans hg
  · exact hg
  · rw [hf.cycleDone, hn] at hg
    exact nomatch hg

/-- While it is open, the coroutine runs or has failed. -/
theorem Seen.running_of_live (h : Seen v o) (hf : o.Flags) (hs : o.co.started = true)
    (hc : o.co.cycleDone = false) : v.running = true ∨ Failed o := by
  cases hn : o.thread.retval with
  | none => exact .inl (h.running.mpr ⟨hs, hn⟩)
  | some r =>
      cases r with
      | none => exact nomatch hc.symm.trans (hf.cycleDone.mpr hn)
      | some p => exact .inr ⟨p, hn⟩

/-- What has not started was not interrupted while it ran. -/
theorem Seen.not_clean (h : Seen v o) (hf : o.Flags) (hs : o.co.started = false) :
    ¬ v.clean = true :=
  fun hv => nomatch (hf.not_interrupted hs).symm.trans (h.interrupted (h.clean hv))

/-- A call of `interrupt` is seen. -/
theorem Seen.interrupt (h : Seen v o) (hs : o'.co.started = o.co.started)
    (ht : o'.thread = o.thread) (hd : o'.co.disposed = true → v.stopCalled = true)
    (hm : o.co.interrupted = true ∨ v.running = true → o'.co.interrupted = true)
    (hh : o'.co.interrupted = true → o.co.interrupted = true ∨ v.running = true ∨ Failed o) :
    Seen v.interrupt o' := by
  have hf : Failed o → Failed o' := fun ⟨p, hp⟩ => ⟨p, by rw [ht, hp]⟩
  refine ⟨hs.trans h.started, by rw [ht]; exact h.returned, hd, fun hv => ?_, fun hv => ?_, ?_, ?_⟩
  · rcases Bool.or_eq_true_iff.mp hv with hv | hv
    · exact hm (.inl (h.interrupted hv))
    · exact hm (.inr hv)
  · rcases hh hv with hv | hv | hv
    · rcases h.hit hv with hv | hv
      · exact .inl (Bool.or_eq_true_iff.mpr (.inl hv))
      · exact .inr (hf hv)
    · exact .inl (Bool.or_eq_true_iff.mpr (.inr hv))
    · exact .inr (hf hv)
  · have hc := h.clean
    simp only [View.interrupt, Bool.or_eq_true, Bool.and_eq_true]
    tauto
  · have hc := h.dirty
    simp only [View.interrupt, Bool.or_eq_true, Bool.or_eq_false_iff, Bool.and_eq_false_iff,
      Bool.not_eq_false']
    rintro ⟨hv, hv'⟩ (hi | hr)
    · exact hc hv hi
    · exact hv'.resolve_left (by simp [hr])

/-- A `stop` that ends leaves what has been seen. -/
theorem Seen.stopReturn {s : Life τ} (h : Seen v s.obj) (d : Bool) :
    Seen ((Life.stopEvents d : List (Event τ)).foldl View.next v) (s.stopReturn d).obj := by
  cases d with
  | false => exact h
  | true => exact { h with }

theorem Seen.step (h : Seen v s.obj) (hi : s.Inv) (ht : Transition s evs s') :
    Seen (evs.foldl View.next v) s'.obj := by
  have hf := hi.flags
  cases ht with
  | startRefused err a m hg hc he =>
      obtain ⟨p, rfl⟩ := Option.ne_none_iff_exists'.mp he
      exact { h with dirty := fun _ _ => rfl }
  | startFailed err a m hs hd hc he =>
      obtain ⟨p, rfl⟩ := Option.ne_none_iff_exists'.mp he
      -- a thread that was never there has returned nothing
      have hr := h.returned
      rw [hf.absent hs] at hr
      exact { h with
        returned := hr
        hit := fun hh => nomatch (hf.not_interrupted hs).symm.trans hh
        dirty := fun _ _ => rfl }
  | started t m hs hd hth =>
      have hr := h.returned
      rw [hth] at hr
      exact { h with
        started := rfl
        returned := hr
        hit := fun hh => nomatch (hf.not_interrupted hs).symm.trans hh }
  | interruptIgnored m hg =>
      exact h.interrupt rfl rfl h.disposed
        (fun hm => hm.elim id (h.running_of_guard hf hg)) .inl
  | interrupted t a m ht hs hi' hc =>
      exact h.interrupt rfl rfl h.disposed (fun _ => rfl)
        (fun _ => .inr (h.running_of_live hf hs hc))
  | pulled => exact h
  | stopAgain d b m hd hs =>
      -- this `stop` is an interrupt that does nothing, and returns
      have hv := h.interrupt rfl rfl h.disposed
        (fun hm => hm.elim id (h.running_of_guard hf (hf.guard_of_disposed hd))) .inl
      refine Seen.stopReturn (v := { v.interrupt with stopCalled := true }) ?_ d
      exact { hv with disposed := fun _ => rfl }
  | stopUnstarted d b a m hd hs =>
      have hv := h.interrupt rfl rfl h.disposed
        (fun hm => hm.elim id (h.running_of_guard hf (.inl hs))) .inl
      refine Seen.stopReturn (v := { v.interrupt with stopCalled := true }) ?_ d
      exact { hv with disposed := fun _ => rfl }
  | stopClosed d b t m hd ht hs hg =>
      have hv := h.interrupt rfl rfl h.disposed
        (fun hm => hm.elim id (h.running_of_guard hf (.inr hg))) .inl
      exact { hv with disposed := fun _ => rfl }
  | stopLive d b t a m hd ht hs hi' hc =>
      have hv : Seen v.interrupt ⟨{ s.obj.co with interrupted := true }, s.obj.thread⟩ :=
        h.interrupt rfl rfl h.disposed (fun _ => rfl) fun _ => .inr (h.running_of_live hf hs hc)
      exact { hv with disposed := fun _ => rfl }
  | joined d t res a m hp hth =>
      have hr := h.returned
      have hh := h.hit
      rw [hth] at hr
      rw [Failed, hth] at hh
      refine Seen.stopReturn (v := v) ?_ d
      exact { h with returned := hr, hit := hh }
  | joinFailed => exact h
  | cycleReturned ret t a m hth =>
      have hn : ¬ Failed s.obj := not_failed (by rw [hth]; rfl)
      have hh := fun hv => (h.hit hv).resolve_right hn
      cases ret with
      | none =>
          exact { h with
            returned := by simp [hth, View.next, SrsFastCoroutine.pfn_none]
            hit := fun hv => .inl (hh hv) }
      | some p =>
          exact { h with
            returned := by
              simp [hth, View.next, SrsFastCoroutine.pfn_some, SrsError.wrap]
            hit := fun hv => .inl (hh hv) }

/-- An interrupt that is ignored leaves `trd_err`, and what is seen of it was seen before. -/
theorem Reported.ignored (hR : Reported v o) (h : Seen v o) (hf : o.Flags)
    (hg : o.co.started = false ∨ o.co.interrupted = true ∨ o.co.cycleDone = true) :
    Reported v.interrupt o := by
  refine ⟨hR.fresh, fun hn hv => hR.clean hn ?_, fun hn hv => hR.other hn ?_⟩
  · rcases Bool.or_eq_true_iff.mp hv with hv | hv
    · exact hv
    · obtain ⟨hr, hs⟩ := Bool.and_eq_true_iff.mp hv
      have hi := (h.hit (h.running_of_guard hf hg hr)).resolve_right hn
      by_contra hc
      rw [h.dirty (Bool.not_eq_true _ ▸ hc) hi] at hs
      exact nomatch hs
  · exact (Bool.or_eq_false_iff.mp hv).1

/-- An interrupt that takes effect sets `trd_err`, unless an error of `start` is there. -/
theorem Reported.hit (hR : Reported v o) (h : Seen v o) (hf : o.Flags)
    (hs : o.co.started = true) (hi : o.co.interrupted = false) (hc : o.co.cycleDone = false)
    (a : Nat) :
    Reported v.interrupt ⟨{ o.co with
      interrupted := true
      trdErr := o.co.trdErr.or (SrsError.new a ERROR_THREAD_INTERRUPED "interrupted") },
      o.thread⟩ := by
  have hfresh : ¬ Failed o → (o.co.trdErr = none ↔ v.startFailed = false) := fun hn =>
    hR.fresh hi (h.running.mp ((h.running_of_live hf hs hc).resolve_right hn)).2
      (hf.not_disposed hs hi hc)
  have hclean : v.clean = false := by
    rw [← Bool.not_eq_true]
    exact fun hv => nomatch hi.symm.trans (h.interrupted (h.clean hv))
  refine ⟨nofun, fun hn hv => ?_, fun hn hv _ => ?_⟩
  · have hsf : v.running = true ∧ v.startFailed = false := by
      simpa [View.interrupt, hclean] using hv
    simp [(hfresh hn).mpr hsf.2]
  · have hr := (h.running_of_live hf hs hc).resolve_right hn
    have hsf : v.startFailed = true := by simpa [View.interrupt, hclean, hr] using hv
    have hne : o.co.trdErr ≠ none := fun e => nomatch hsf.symm.trans ((hfresh hn).mp e)
    obtain ⟨p, hp⟩ := Option.ne_none_iff_exists'.mp hne
    simpa [hp] using hR.other hn hclean (.inl hs)

/-- A `stop` that ends leaves `trd_err`, unless the destructor called it. -/
theorem Reported.stopReturn {s : Life τ} {d : Bool} (hR : Reported v s.obj)
    (hx : (s.stopReturn d).destroyed = false) :
    Reported ((Life.stopEvents d : List (Event τ)).foldl View.next v) (s.stopReturn d).obj := by
  cases d with
  | false => exact hR
  | true => exact nomatch hx

/-- A `start` that is refused keeps an error that is there, and an empty `trd_err` takes the one of
this `start`. -/
theorem Reported.refused (hR : Reported v o) {err : SrsError} (a : Nat)
    (hc : SrsError.code err = ERROR_THREAD_DISPOSED ∨ SrsError.code err = ERROR_THREAD_STARTED)
    (he : err ≠ none) :
    Reported (v.next (.startReturned err : Event τ))
      ⟨{ o.co with trdErr := o.co.trdErr.or (SrsError.copy a err) }, o.thread⟩ := by
  obtain ⟨p, rfl⟩ := Option.ne_none_iff_exists'.mp he
  refine ⟨fun _ _ _ => by simp [View.next, SrsError.copy], fun hn hv => ?_, fun hn hv hg => ?_⟩
  · have hcl := hR.clean hn hv
    cases hp : o.co.trdErr with
    | none => rw [hp] at hcl; exact absurd hcl (by decide)
    | some q => rw [hp] at hcl; exact hcl
  · rcases hR.other hn hv hg with e | e
    · refine .inr ?_
      rcases hc with hc | hc
      · exact .inr (.inr (by simp [e, hc]))
      · exact .inr (.inl (by simp [e, hc]))
    · cases hp : o.co.trdErr with
      | none => rw [hp] at e; exact absurd e not_isStartCode_success
      | some q => rw [hp] at e; exact .inr e

/-- The join leaves `trd_err`: without a failure the thread returned `srs_success`, and `cycle_done`
is set. -/
theorem Reported.joined (hR : Reported v o) (hf : o.Flags) {t : τ} {res : SrsError}
    (hth : o.thread = .ended t res) (hs : o.co.started = true) (a : Nat) :
    Reported v ⟨o.co.stopDone a, .joined t res⟩ := by
  have hF : ¬ Failed (⟨o.co.stopDone a, .joined t res⟩ : Obj τ) → ¬ Failed o := by
    rintro hn ⟨p, hp⟩
    rw [hth] at hp
    exact hn ⟨p, hp⟩
  have hd : ¬ Failed o → o.co.stopDone a = { o.co with stopping := false } := by
    intro hn
    have hc : o.co.cycleDone = true := by
      rw [hf.cycleDone, hth]
      cases res with
      | none => rfl
      | some p => exact absurd ⟨p, by rw [hth]; rfl⟩ hn
    simp [SrsFastCoroutine.stopDone, hc]
  refine ⟨fun _ hr => absurd hr (by simp), fun hn hv => ?_, fun hn hv _ => ?_⟩
  · rw [hd (hF hn)]
    exact hR.clean (hF hn) hv
  · rw [hd (hF hn)]
    exact hR.other (hF hn) hv (.inl hs)

theorem Reported.step (hR : Reported v s.obj) (h : Seen v s.obj) (hi : s.Inv)
    (ht : Transition s evs s') (hx : s'.destroyed = false) :
    Reported (evs.foldl View.next v) s'.obj := by
  have hf := hi.flags
  cases ht with
  | startRefused err a m hg hc he => exact hR.refused a hc he
  | startFailed err a m hs hd hc he =>
      obtain ⟨p, rfl⟩ := Option.ne_none_iff_exists'.mp he
      refine ⟨fun _ _ _ => by simp [View.next, SrsError.copy], fun _ hv => ?_, fun _ _ _ => ?_⟩
      · exact absurd hv (h.not_clean hf hs)
      · exact .inr (.inl (by simpa using hc))
  | started t m hs hd hth =>
      have hn : ¬ Failed s.obj := not_failed (by rw [hth]; rfl)
      exact ⟨fun hi' _ _ => hR.fresh hi' (by rw [hth]; rfl) hd, fun _ => hR.clean hn,
        fun _ hv _ => hR.other hn hv (.inr hd)⟩
  | interruptIgnored m hg => exact hR.ignored h hf hg
  | interrupted t a m ht hs hi' hc => exact hR.hit h hf hs hi' hc a
  | pulled => exact hR
  | stopAgain d b m hd hs =>
      refine Reported.stopReturn (v := { v.interrupt with stopCalled := true }) ?_ hx
      exact { hR.ignored h hf (hf.guard_of_disposed hd) with }
  | stopUnstarted d b a m hd hs =>
      refine Reported.stopReturn (v := { v.interrupt with stopCalled := true }) ?_ hx
      refine ⟨fun _ _ hd' => absurd hd'.symm Bool.false_ne_true, fun hn hv => ?_, fun _ _ hg => ?_⟩
      · -- it does not run, so an interrupt that was seen as clean would be from before
        have hr : v.running = false := by
          rw [← Bool.not_eq_true, h.running]
          exact fun hr => Bool.false_ne_true (hs.symm.trans hr.1)
        have hc : v.clean = true := by simpa [View.interrupt, hr] using hv
        exact absurd hc (h.not_clean hf hs)
      · rcases hg with hg | hg
        · exact absurd (hs.symm.trans hg) Bool.false_ne_true
        · exact absurd hg.symm Bool.false_ne_true
  | stopClosed d b t m hd ht hs hg =>
      have hv := hR.ignored h hf (.inr hg)
      exact ⟨fun _ _ hd' => absurd hd'.symm Bool.false_ne_true, hv.clean,
        fun hn hc _ => hv.other hn hc (.inl hs)⟩
  | stopLive d b t a m hd ht hs hi' hc =>
      have hv := hR.hit h hf hs hi' hc a
      exact ⟨fun hi' => absurd hi'.symm Bool.false_ne_true, hv.clean,
        fun hn hc _ => hv.other hn hc (.inl hs)⟩
  | joined d t res a m hp hth =>
      have hst := hf.stopping (hi.stopper.mpr (by simp [hp]))
      exact Reported.stopReturn (hR.joined hf hth hst.2 a) hx
  | joinFailed => exact hR
  | cycleReturned ret t a m hth =>
      have hn : ¬ Failed s.obj := not_failed (by rw [hth]; rfl)
      cases ret with
      | none =>
          refine ⟨fun _ hr => ?_, fun _ hv => hR.clean hn hv, fun _ hv hg => hR.other hn hv hg⟩
          simp [hth] at hr
      | some p =>
          have hF : Failed (s.obj.exit a (some p)) :=
            ⟨_, by rw [Obj.exit_thread, hth, SrsFastCoroutine.pfn_some]; rfl⟩
          refine ⟨fun _ hr => ?_, fun hn' => absurd hF hn', fun hn' => absurd hF hn'⟩
          simp [hth] at hr

/-- Only the return of the handler's `cycle` is seen as such. -/
theorem View.foldl_returned (hn : ∀ ret, .cycleReturned ret ∉ evs) :
    (evs.foldl View.next v).returned = v.returned := by
  induction evs generalizing v with
  | nil => rfl
  | cons e evs ih =>
      rw [List.foldl_cons, ih fun ret hm => hn ret (List.mem_cons_of_mem _ hm)]
      cases e with
      | startReturned err => cases err <;> rfl
      | cycleReturned ret => exact absurd List.mem_cons_self (hn ret)
      | _ => rfl

/-- The handler's `cycle` returns from a running thread, and no other step shows it. -/
theorem Transition.returns (ht : Transition s evs s') :
    (∃ ret t, evs = [.cycleReturned ret] ∧ s.obj.thread = .running t) ∨
      ∀ ret, .cycleReturned ret ∉ evs := by
  cases ht with
  | cycleReturned ret t a m hth => exact .inl ⟨ret, t, rfl, hth⟩
  | stopAgain d => cases d <;> simp [Life.stopEvents]
  | stopUnstarted d => cases d <;> simp [Life.stopEvents]
  | joined d => cases d <;> simp [Life.stopEvents]
  | _ => simp

/-- The state of a coroutine after any run, in terms of what the run has shown. -/
theorem Life.seen {ls : List (Op τ)} (h : exec Life.step Life.new ls = some s) :
    s.Inv ∧ Seen (view (Life.events ls)) s.obj ∧
      (s.destroyed = false → Reported (view (Life.events ls)) s.obj) ∧
      ∀ ret, .cycleReturned ret ∈ Life.events ls → (view (Life.events ls)).returned = some ret := by
  refine Life.ind (P := fun tr s => Seen (view tr) s.obj ∧
    (s.destroyed = false → Reported (view tr) s.obj) ∧
    ∀ ret, .cycleReturned ret ∈ tr → (view tr).returned = some ret) ?_ ?_ h
  · exact ⟨seen_new, fun _ => reported_new, by simp⟩
  · rintro tr s evs s' hi hal ⟨hS, hR, hU⟩ ht
    obtain ⟨hx, -⟩ := Life.alive_iff.mp hal
    refine ⟨view_append ▸ hS.step hi ht, fun hx' => view_append ▸ (hR hx).step hS hi ht hx', ?_⟩
    -- `pfn` runs in a thread that has not ended, so its return is the first
    intro ret hret
    rw [view_append]
    rcases ht.returns with ⟨ret', t, rfl, hth⟩ | hn
    · have hn : (view tr).returned = none := by
        have hr := hS.returned
        rw [hth] at hr
        simpa [eq_comm] using hr
      rcases List.mem_append.mp hret with hm | hm
      · exact absurd (hn.symm.trans (hU ret hm)) (Option.some_ne_none ret).symm
      · cases List.mem_singleton.mp hm
        rfl
    · rw [View.foldl_returned hn]
      exact hU ret ((List.mem_append.mp hret).resolve_right (hn ret))

/-! ### The two results -/

/-- Once the handler's `cycle` has returned, the thread has ended with a result of the same code. -/
theorem Seen.retval (h : Seen v o) {ret : SrsError} (hv : v.returned = some ret) :
    ∃ r, o.thread.retval = some r ∧ r.map (fun p => p.err.code) = ret.map fun p => p.err.code := by
  have hr := h.returned
  rw [hv] at hr
  exact Option.map_eq_some_iff.mp hr

/-- **`pull` after the return of the handler's `cycle`.**  In every run of a coroutine and every
state after the return, `pull` gives the documented result exactly when `cycle` returned an error,
or the coroutine was interrupted while it ran and no `start` had failed before that. -/
theorem pull_reports_termination_iff {ls : List (Op τ)} {s : Life τ}
    (h : exec Life.step Life.new ls = some s) (hal : s.alive = true) {ret : SrsError}
    (hret : .cycleReturned ret ∈ Life.events ls) (mem : Nat) :
    ReportsTermination (Life.events ls) ret (s.obj.co.pull mem) ↔
      ret ≠ none ∨ CleanInterrupt (Life.events ls) := by
  obtain ⟨hi, hS, hR, hU⟩ := Life.seen h
  obtain ⟨hx, -⟩ := Life.alive_iff.mp hal
  have hR := hR hx
  obtain ⟨r, hr, hc⟩ := hS.retval (hU ret hret)
  cases ret with
  | some p =>
      obtain ⟨q, rfl, hq⟩ : ∃ q, r = some q ∧ q.err.code = p.err.code := by
        simpa using hc
      have he := hi.trdErr hx q hr
      refine ⟨fun _ => .inl nofun, fun _ => ⟨by simp [he], ?_, nofun, nofun⟩⟩
      rintro _ ⟨⟩
      simp [he, hq]
  | none =>
      obtain rfl : r = none := by simpa using hc
      have hn : ¬ Failed s.obj := by
        rintro ⟨p, hp⟩
        simp [hr] at hp
      have hs : s.obj.co.started = true := by
        rw [hi.flags.started, hi.flags.trd]
        cases hth : s.obj.thread <;> simp [hth] at hr ⊢
      rw [← view_clean]
      constructor
      · intro hrep
        refine .inr ?_
        by_contra hcl
        -- what is there is an error of `start`, or nothing
        have hne : s.obj.co.trdErr ≠ none := fun e =>
          hrep.terminated (SrsFastCoroutine.pull_eq_none.mpr e)
        have ho := (hR.other hn (Bool.not_eq_true _ ▸ hcl) (.inl hs)).resolve_left hne
        rw [← s.obj.co.code_pull mem] at ho
        by_cases hint : Interrupted (Life.events ls)
        · exact not_isStartCode_interrupted (hrep.interrupted rfl hint ▸ ho)
        · exact not_isStartCode_terminated (hrep.done rfl hint ▸ ho)
      · intro hcl
        have hcl := hcl.resolve_left (by simp)
        have hcode := hR.clean hn hcl
        refine ⟨fun e => ?_, nofun, fun _ _ => by simpa using hcode, fun _ hint => ?_⟩
        · rw [SrsFastCoroutine.pull_eq_none] at e
          rw [e] at hcode
          exact absurd hcode (by decide)
        · exact absurd (view_interrupted.mp (hS.clean hcl)) hint

/-- A coroutine that is interrupted, returns `srs_success` and reports the interrupt. -/
theorem pull_reports_termination_iff_interrupted :
    ∃ s, exec Life.step Life.new [.start (some 7), .interrupt, .cycleReturn none] = some s ∧
      ReportsTermination
        (Life.events [.start (some 7), .interrupt, .cycleReturn none]) none (s.obj.co.pull 0) :=
  ⟨_, rfl, (pull_reports_termination_iff rfl rfl (by decide) 0).mpr
    (.inr (view_clean.mp (by decide)))⟩

/-- A coroutine that returns `srs_success` by itself is not reported: `pull` keeps giving
`srs_success`. -/
theorem pull_misses_termination :
    ¬ ∀ (ls : List (Op Nat)) (s : Life Nat) (ret : SrsError) (mem : Nat),
      exec Life.step Life.new ls = some s → s.alive = true → .cycleReturned ret ∈ Life.events ls →
      ReportsTermination (Life.events ls) ret (s.obj.co.pull mem) := by
  intro H
  have hrep := H [.start (some 7), .cycleReturn none] _ none 0 rfl rfl (by decide)
  exact hrep.terminated rfl

/-- **`pull` on a running coroutine.**  In every run, while a coroutine that `start` has started
has not returned from its handler's `cycle` and nobody has called `interrupt` or `stop`, `pull`
gives `srs_success` exactly when no `start` has failed. -/
theorem pull_running_iff (ls : List (Op τ)) {s : Life τ}
    (h : exec Life.step Life.new ls = some s) (hrun : Running (Life.events ls))
    (hint : .interruptCalled ∉ Life.events ls) (hstop : .stopCalled ∉ Life.events ls)
    (mem : Nat) :
    s.obj.co.pull mem = none ↔ NoStartFailed (Life.events ls) := by
  obtain ⟨hi, hS, hR, -⟩ := Life.seen h
  have hd : s.obj.co.disposed = false := by
    rw [← Bool.not_eq_true]
    exact fun hd => hstop (view_spec.2.2.1.mp (hS.disposed hd))
  have hx : s.destroyed = false := by
    rw [← Bool.not_eq_true]
    exact fun hx => nomatch hd.symm.trans (hi.destroyed hx).1
  obtain ⟨hs, hr⟩ := hS.running.mp (view_running.mpr hrun)
  have hni : s.obj.co.interrupted = false := by
    rw [← Bool.not_eq_true]
    intro hit
    rcases hS.hit hit with hit | ⟨p, hp⟩
    · obtain ⟨pre, e, post, e', he, -⟩ := view_interrupted.mp hit
      rcases he with rfl | rfl
      · exact hint (e' ▸ by simp)
      · exact hstop (e' ▸ by simp)
    · exact nomatch hr.symm.trans hp
  rw [SrsFastCoroutine.pull_eq_none, (hR hx).fresh hni hr hd, view_spec.2.1]

/-- A coroutine that is running and reports nothing. -/
theorem pull_running_iff_started :
    ∃ s, exec Life.step Life.new [.start (some 7), .pull] = some s ∧ s.obj.co.pull 0 = none :=
  ⟨_, rfl, (pull_running_iff [.start (some 7), .pull] rfl (view_running.mp (by decide))
    (by decide) (by decide) 0).mpr (view_spec.2.1.mp (by decide))⟩

/-- A thread creation that failed before the one that succeeded makes `pull` report an error while
the coroutine runs. -/
theorem pull_reports_failed_start :
    ¬ ∀ (ls : List (Op Nat)) (s : Life Nat) (mem : Nat),
      exec Life.step Life.new ls = some s → Running (Life.events ls) →
      .interruptCalled ∉ Life.events ls → .stopCalled ∉ Life.events ls →
      s.obj.co.pull mem = none := by
  intro H
  have h := H [.start none, .start (some 7)] _ 0 rfl
    (view_running.mp (by decide)) (by decide) (by decide)
  exact nomatch h

end StCoroutine.Coroutine
