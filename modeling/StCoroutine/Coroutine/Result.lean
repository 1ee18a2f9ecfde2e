import StCoroutine.Coroutine.Handle

/-!
# Coroutine — the error a coroutine ends with

Five places of `SrsFastCoroutine` store to `trd_err`, and two of them free what was there.  After
the body has ended with an error none of them does: `pfn` has put its error there, the others
store only where there is `srs_success`, and a `start` that could fail after it is refused.

* `Transition.retval`: no step changes what a thread has returned.
* `Life.trdErr_of_cycleReturn`: `trd_err` is the object that `pfn` returned, from its return until
  the destructor.
* `stop_assertion`: the assertion of `stop` on the two pointers holds in every run.
-/

set_option autoImplicit false

namespace StCoroutine.Coroutine
open Kernel Lts

variable {τ : Type*} {s s' : Life τ} {evs : List (Event τ)} {r : SrsError}

/-- What a thread has returned stays what it is. -/
theorem Transition.retval (hi : s.Inv) (h : Transition s evs s')
    (hr : s.obj.thread.retval = some r) : s'.obj.thread.retval = some r := by
  cases h with
  | startRefused => exact hr
  | startFailed err a m hs =>
      rw [hi.flags.absent hs] at hr
      cases hr
  | started t m hs hd hth =>
      rw [hth] at hr
      cases hr
  | interruptIgnored => exact hr
  | interrupted => exact hr
  | pulled => exact hr
  | stopAgain d => simpa using hr
  | stopUnstarted d => simpa using hr
  | stopClosed => exact hr
  | stopLive => exact hr
  | joined d t res a m hp hth =>
      rw [hth] at hr
      simpa using hr
  | joinFailed => exact hr
  | cycleReturned ret t a m hth =>
      rw [hth] at hr
      cases hr

namespace Life

theorem inv_of_exec {ls : List (Op τ)} (h : exec step new ls = some s) : s.Inv :=
  (ind (P := fun _ _ => True) trivial (fun _ _ _ _ _ _ _ _ => trivial) h).1

theorem Inv.step (hi : s.Inv) {l : Op τ} (hs : s.step l = some s') :
    s'.Inv ∧ ∃ evs, Transition s evs s' := by
  obtain ⟨⟨evs, _⟩, ha, rfl⟩ := Option.map_eq_some_iff.mp hs
  obtain ⟨ht, hi'⟩ := act_spec hi ha
  exact ⟨hi', evs, ht⟩

/-- The result of a thread is there from then on. -/
theorem retval_of_exec (hi : s.Inv) (hr : s.obj.thread.retval = some r) {ls : List (Op τ)}
    (h : exec step s ls = some s') : s'.obj.thread.retval = some r := by
  refine (exec_inv (I := fun s => s.Inv ∧ s.obj.thread.retval = some r) ⟨hi, hr⟩ ?_ h).2
  rintro m l m' ⟨hm, hr⟩ hs
  obtain ⟨hm', evs, ht⟩ := hm.step hs
  exact ⟨hm', ht.retval hm hr⟩

/-- The body returns only to a thread that runs, and `pfn` ends the thread. -/
theorem retval_cycleReturn {ret : SrsError} (hs : s.step (.cycleReturn ret) = some s') :
    s'.obj.thread.retval = some (s.obj.co.pfn s.mem ret).1 := by
  obtain ⟨⟨evs, _⟩, ha, rfl⟩ := Option.map_eq_some_iff.mp hs
  simp only [act] at ha
  split at ha
  · next t _ hth =>
      simp only [Option.some.injEq, Prod.mk.injEq] at ha
      obtain ⟨-, rfl⟩ := ha
      simp [hth]
  · cases ha

/-- **`trd_err` is the object that `pfn` returned**, from the end of a body that failed until the
destructor, whatever calls come after it. -/
theorem trdErr_of_cycleReturn {pre post : List (Op τ)} {ret : SrsError} {m : Life τ}
    (hm : exec step new pre = some m) (hret : ret ≠ none)
    (h : exec step m (.cycleReturn ret :: post) = some s) (hd : s.destroyed = false) :
    ∃ p, (m.obj.co.pfn m.mem ret).1 = some p ∧ s.obj.thread.retval = some (some p) ∧
      s.obj.co.trdErr = some p := by
  obtain ⟨q, rfl⟩ := Option.ne_none_iff_exists'.mp hret
  obtain ⟨m', hstep, hpost⟩ := exec_cons.mp h
  have hinv := inv_of_exec hm
  have hres := retval_of_exec (hinv.step hstep).1 (retval_cycleReturn hstep) hpost
  have hinv' : s.Inv := inv_of_exec (exec_append.mpr ⟨m, hm, h⟩)
  exact ⟨_, rfl, hres, hinv'.trdErr hd _ hres⟩

end Life

/-- **The assertion of `stop`**, in every run of a coroutine: after a body that failed `trd_err` is
the object that `pfn` returned to the thread until the destructor, and when the join of a `stop`
leaves an error, `trd_err` is that very object and the call goes through. -/
theorem stop_assertion {ls : List (Op τ)} {s : Life τ} (h : exec Life.step Life.new ls = some s) :
    (∀ pre ret post m, ls = pre ++ .cycleReturn ret :: post →
      exec Life.step Life.new pre = some m → ret ≠ none → s.destroyed = false →
      ∃ p, (m.obj.co.pfn m.mem ret).1 = some p ∧ s.obj.thread.retval = some (some p) ∧
        s.obj.co.trdErr = some p) ∧
    (∀ d t res, s.stopper = some d → s.obj.thread = .ended t res →
      (res ≠ none → SrsError.addr s.obj.co.trdErr = SrsError.addr res) ∧
      ∃ e, s.obj.co.stopJoined s.mem t 0 res = some e ∧
        (s.joinReturn d t 0 res).2 = (s.apply e).stopReturn d) := by
  have hi := Life.inv_of_exec h
  constructor
  · rintro pre ret post m rfl hm hret hd
    obtain ⟨m', hm', hpost⟩ := exec_append.mp h
    rw [hm] at hm'
    cases hm'
    exact Life.trdErr_of_cycleReturn hm hret hpost hd
  · intro d t res hp hth
    -- a call of `stop` waits, so the destructor has not come to its end
    have hd : s.destroyed = false := by
      rw [← Bool.not_eq_true]
      intro hd
      exact absurd (hp.symm.trans (hi.destroyed hd).2) nofun
    have he : s.obj.co.stopJoined s.mem t 0 res = _ := (hi.obj hd).stopJoined_eq hth
    refine ⟨fun hres => ?_, _, he, ?_⟩
    · obtain ⟨p, rfl⟩ := Option.ne_none_iff_exists'.mp hres
      rw [hi.trdErr hd p (by rw [hth, Thread.retval_ended])]
    · simp only [Life.joinReturn, he]

/-- A start that fails, a start, an interrupt, a body that fails, a start that is refused, and a
`stop` that waits: `trd_err` is the object of the thread. -/
theorem stop_assertion_joining : ∃ s : Life Nat,
    exec Life.step Life.new [.start none, .start (some 7), .interrupt,
      .cycleReturn (SrsError.new 50 ERROR_SOCKET_READ "read"), .start none, .pull, .stop]
        = some s ∧
      SrsError.code s.obj.co.trdErr = ERROR_SOCKET_READ ∧
      SrsError.addr s.obj.co.trdErr = some 3 := by
  have h : exec Life.step (Life.new : Life Nat) [.start none, .start (some 7), .interrupt,
      .cycleReturn (SrsError.new 50 ERROR_SOCKET_READ "read"), .start none, .pull, .stop]
        = some _ := rfl
  exact ⟨_, h, rfl, ((stop_assertion h).2 false 7 (some ⟨3, _⟩) rfl rfl).1 nofun⟩

end StCoroutine.Coroutine
