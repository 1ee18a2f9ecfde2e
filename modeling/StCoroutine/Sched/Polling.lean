import Mathlib.Algebra.BigOperators.Group.List.Lemmas
import StCoroutine.Sched.Epoll
import StCoroutine.Sched.Ownership

/-!
# Polling — the scheduler and the event system together

`Vp` leaves to its steps what the event system decides.  Here `st_poll` and the idle thread call the
functions of `Epoll`: `Proc` is the scheduler, the event system, and the requests of the threads in
`st_poll`, in whose frames they are.  What `epoll_wait` finds is part of the step; it finds only
what the kernel watches (`Reports`).

Every step that is taken is one of the scheduler, with what the event system decides (`view`).  An
enabled step can be taken while all descriptors are below `2 ^ 30` (`Low`): `fd_data` is never read
outside, and the loops that double a size end, which they do not for a larger descriptor.  `Synced`
is what the steps keep.
-/

set_option autoImplicit false

namespace StCoroutine.Sched
open Lts

/-- The scheduler, the event system, and the requests of the threads in `st_poll`. -/
structure Proc where
  vp : Vp
  ep : Epoll
  pds : Tid → List Pollfd

/-- The running thread makes a call, goes on behind a switch or opens a descriptor, or the idle
thread makes a round, in which `epoll_wait` finds `fired`. -/
inductive Move where
  | call (c : Call)
  | poll (pds : List Pollfd) (timeout : Nat)
  | fdNew (osfd : Nat)
  | resume
  | idle (fired : List (Nat × Mask)) (now : Nat)

/-- The descriptors that the step names are below `n`. -/
def Move.Below (n : Nat) : Move → Prop
  | .poll pds _ => ∀ pd ∈ pds, pd.fd < n
  | .fdNew osfd => osfd < n
  | .call _ | .resume | .idle _ _ => True

namespace Proc

/-- A round of the loop of `_st_epoll_dispatch` over the io queue, and the rounds after it. -/
def dispatchLoop : List Tid → Proc → Option Proc
  | [], p => some p
  | t :: q, p =>
      (p.ep.findAll (p.pds t)).bind fun pds =>
        let p := { p with pds := Function.update p.pds t pds }
        if ∃ pd ∈ pds, pd.revents ≠ ∅ then
          (Epoll.pollsetDel pds p.ep).bind fun e =>
            (({ p.vp with ioq := p.vp.ioq.erase t } : Vp).delIfSleeping t).bind fun s =>
              dispatchLoop q { p with vp := s.makeRunnable t, ep := e }
        else dispatchLoop q p

/-- `_st_epoll_dispatch`, when `epoll_wait` finds `fired`. -/
def dispatch (p : Proc) (fired : List (Nat × Mask)) : Option Proc :=
  if fired = [] then some p
  else
    (Epoll.mark fired p.ep).bind fun e =>
      (dispatchLoop p.vp.ioq { p with ep := e }).bind fun p =>
        (Epoll.sweep fired p.ep).map fun e => { p with ep := e }

/-- What `epoll_wait` can find: descriptors that are watched, once each, with events that they are
watched for, or errors. -/
structure Reports (e : Epoll) (fired : List (Nat × Mask)) : Prop where
  nodup : (fired.map Prod.fst).Nodup
  watched : ∀ r ∈ fired, r.1 ∈ e.registered ∧ r.2 ≠ ∅ ∧ r.2 ⊆ e.mask r.1 ∪ {.POLLERR, .POLLHUP}
  size : fired.length ≤ e.evtlistSize

instance (e : Epoll) (fired : List (Nat × Mask)) : Decidable (Reports e fired) :=
  decidable_of_iff ((fired.map Prod.fst).Nodup ∧
      (∀ r ∈ fired, r.1 ∈ e.registered ∧ r.2 ≠ ∅ ∧
        r.2 ⊆ e.mask r.1 ∪ {.POLLERR, .POLLHUP}) ∧ fired.length ≤ e.evtlistSize)
    ⟨fun ⟨h₁, h₂, h₃⟩ => ⟨h₁, h₂, h₃⟩, fun ⟨h₁, h₂, h₃⟩ => ⟨h₁, h₂, h₃⟩⟩

/-- Which step can be taken; `st_poll` has a label of its own. -/
def Enabled (p : Proc) : Move → Prop
  | .call c => p.vp.Enabled (.call c) ∧ ¬ (Pc.inside c).Polls
  | .poll _ _ | .fdNew _ => (p.vp.thread p.vp.current).pc = .user
  | .resume => p.vp.Enabled .resume
  | .idle fired now => p.vp.Enabled (.idle [] now) ∧ Reports p.ep fired

instance : DecidablePred Pc.Polls
  | .inside (.poll _ _) => inferInstanceAs (Decidable True)
  | .start | .idle | .user | .exit | .gone => inferInstanceAs (Decidable False)
  | .inside (.create _) | .inside (.exit _) | .inside (.join _) | .inside (.yield _)
  | .inside (.interrupt _) | .inside (.usleep _) | .inside (.condWait _ _)
  | .inside (.condSignal _) | .inside (.condBroadcast _) | .inside (.mutexLock _)
  | .inside (.mutexUnlock _) | .inside (.mutexTrylock _) => inferInstanceAs (Decidable False)

instance (p : Proc) : (m : Move) → Decidable (p.Enabled m)
  | .call _ | .idle _ _ => inferInstanceAs (Decidable (_ ∧ _))
  | .poll _ _ | .fdNew _ => inferInstanceAs (Decidable (_ = _))
  | .resume => inferInstanceAs (Decidable (p.vp.Enabled .resume))

/-- `st_poll` up to its switch. -/
def poll (p : Proc) (pds : List Pollfd) (timeout : Nat) : Option Proc :=
  if (p.vp.thread p.vp.current).interrupt then
    (p.vp.step (.call (.poll true timeout))).map fun s => { p with vp := s }
  else
    (p.ep.pollsetAdd pds).bind fun r =>
      (p.vp.step (.call (.poll (decide (r.2 = none)) timeout))).map fun s =>
        ⟨s, r.1, Function.update p.pds p.vp.current pds⟩

/-- A thread from a switch on: in `st_poll` it takes its requests back if it is still on the io
queue. -/
def resume (p : Proc) : Option Proc :=
  if (p.vp.thread p.vp.current).pc.Polls ∧ p.vp.current ∈ p.vp.ioq then
    (Epoll.pollsetDel (p.pds p.vp.current) p.ep).bind fun e =>
      (p.vp.step .resume).map fun s => { p with vp := s, ep := e }
  else (p.vp.step .resume).map fun s => { p with vp := s }

/-- A round of `_st_idle_thread_start`. -/
def idle (p : Proc) (fired : List (Nat × Mask)) (now : Nat) : Option Proc :=
  (p.dispatch fired).bind fun p =>
    (p.vp.checkClock now).map fun s =>
      { p with vp := (s.setState s.current .runnable).switch .idle }

def act (p : Proc) : Move → Option Proc
  | .call c => (p.vp.step (.call c)).map fun s => { p with vp := s }
  | .poll pds timeout => p.poll pds timeout
  | .fdNew osfd => (p.ep.fdNew osfd).map fun r => { p with ep := r.1 }
  | .resume => p.resume
  | .idle fired now => p.idle fired now

def step (p : Proc) (m : Move) : Option Proc := if p.Enabled m then p.act m else none

/-- All descriptors are below `2 ^ 30`: those that are waited for, and those that the step names. -/
structure Low (p : Proc) (m : Move) : Prop where
  queued : ∀ t ∈ p.vp.ioq, ∀ pd ∈ p.pds t, pd.fd < 2 ^ 30
  move : m.Below (2 ^ 30)

/-- What `st_poll` returns behind its switch, when it is not interrupted. -/
def polled (p : Proc) (t : Tid) : Nat :=
  if t ∈ p.vp.ioq then 0 else (p.pds t).countP fun pd => pd.revents ≠ ∅

/-- After `st_init`. -/
def init (clock : Nat) (fdlim : Int) (refuses : Nat → Bool) : Proc :=
  ⟨Vp.init clock, Epoll.init fdlim refuses, fun _ => []⟩

/-- The threads of the io queue with a request that is hit. -/
def ready (p : Proc) (fired : List (Nat × Mask)) : List Tid :=
  p.vp.ioq.filter fun t => ∃ pd ∈ p.pds t, Epoll.Hits fired pd

/-- The step of the scheduler. -/
def view (p : Proc) : Move → List Label
  | .call c => [.call c]
  | .poll pds timeout =>
      [.call (.poll (decide ((p.vp.thread p.vp.current).interrupt = true ∨
        (p.ep.pollsetAdd pds).map Prod.snd = some none)) timeout)]
  | .fdNew _ => []
  | .resume => [.resume]
  | .idle fired now => [.idle (p.ready fired) now]

end Proc

/-! ### Polling in the scheduler -/

namespace Vp

variable {s s' : Vp} {t : Tid} {l : Label} {evs : List Ev} {ws : List (Why × Tid)} {c : Call}

/-- **A thread that is in `st_poll` after a step** was there before, or has just called it. -/
theorem Turn.polls (T : Turn s l s' evs) (V : s.Inv) (V' : s'.Inv) (he : s.Enabled l)
    (h : (s'.thread t).pc.Polls) :
    ((s.thread t).pc.Polls ∧ t ≠ s.current) ∨ (t = s.current ∧ t ∈ s'.ioq) := by
  cases hpc : (s'.thread t).pc with
  | inside c =>
      have hp : (Pc.inside c).Polls := hpc ▸ h
      cases (T.fate V.core V.queued he t).inside V.core hpc with
      | stays hne hs | wakes hne hs | flagged hne hs => exact .inl ⟨hs ▸ hp, hne⟩
      | waits hcur hs hi hw hth hb hdue hev =>
          refine .inr ⟨hcur, V'.queued.ioWait t (by rw [Live, hpc]; simp) ?_⟩
          rw [hth]
          cases c with
          | poll => rfl
          | _ => exact hp.elim
      | again hc =>
          subst hc
          exact hp.elim
      | yields hc =>
          subst hc
          exact hp.elim
  | _ =>
      rw [hpc] at h
      exact h.elim

theorem delIfSleeping_ioq (h : s.delIfSleeping t = some s') : s'.ioq = s.ioq := by
  rw [delIfSleeping] at h
  split at h
  · obtain ⟨q, -, rfl⟩ := Option.map_eq_some_iff.mp h
    rfl
  · cases h
    rfl

theorem checkClock_ioq {now : Nat} (h : s.checkClock now = some s') : s'.ioq = s.ioq := by
  have hloop : ∀ (fuel : Nat) {s s' : Vp}, checkClockLoop now fuel s = some s' →
      s'.ioq = s.ioq := by
    intro fuel
    induction fuel with
    | zero =>
        intro s s' h
        cases h
    | succ fuel ih =>
        intro s s' h
        rw [checkClockLoop] at h
        split at h
        · cases h
          rfl
        · split at h
          · cases h
            rfl
          · obtain ⟨s₁, hs₁, h⟩ := Option.bind_eq_some_iff.mp h
            obtain ⟨q, -, rfl⟩ := Option.map_eq_some_iff.mp hs₁
            rw [ih h]
            dsimp only
            split <;> rfl
  exact hloop (s := { s with lastClock := now }) _ h

theorem dispatchLoop_none (q : List Tid) : dispatchLoop [] q s = some s := by
  induction q with
  | nil => rfl
  | cons t q ih => rw [dispatchLoop, if_neg (by simp), ih]

/-- An enabled step can be taken. -/
theorem Inv.total (V : s.Inv) (he : s.Enabled l) : ∃ s', Vp.step s l = some s' := by
  obtain ⟨s', evs, hact, -⟩ := act_turn V.core V.queued V.idleLast he
  exact ⟨s', by simp [Vp.step, he, hact]⟩

end Vp

/-! ### What the steps keep -/

namespace Proc

open Epoll

variable {p p' : Proc} {t : Tid} {q : List Tid} {pds : Tid → List Pollfd} {fd : Nat} {b : Bit}
  {fired : List (Nat × Mask)} {m : Move}

/-- How often the threads of a queue ask for `b` on `fd`. -/
def load (q : List Tid) (pds : Tid → List Pollfd) (fd : Nat) (b : Bit) : Int :=
  (q.map fun t => want (pds t) fd b).sum

theorem load_cons : load (t :: q) pds fd b = want (pds t) fd b + load q pds fd b := by
  simp [load]

theorem load_concat : load (q ++ [t]) pds fd b = load q pds fd b + want (pds t) fd b := by
  simp [load]

theorem load_nonneg (q : List Tid) (pds : Tid → List Pollfd) (fd : Nat) (b : Bit) :
    0 ≤ load q pds fd b := by
  induction q with
  | nil => exact Int.le_refl 0
  | cons t q ih =>
      rw [load_cons]
      exact Int.add_nonneg (want_nonneg _ fd b) ih

theorem load_erase (ht : t ∈ q) :
    load (q.erase t) pds fd b = load q pds fd b + - want (pds t) fd b := by
  have h : want (pds t) fd b + load (q.erase t) pds fd b = load q pds fd b :=
    List.sum_map_erase (fun t => want (pds t) fd b) ht
  omega

theorem load_congr {r : Tid → List Pollfd} (h : ∀ t ∈ q, want (pds t) fd b = want (r t) fd b) :
    load q pds fd b = load q r fd b := by
  rw [load, List.map_congr_left h]
  rfl

theorem want_le_load (ht : t ∈ q) : want (pds t) fd b ≤ load q pds fd b := by
  have h : load (q.erase t) pds fd b = load q pds fd b + - want (pds t) fd b := load_erase ht
  have := load_nonneg (q.erase t) pds fd b
  omega

/-- A count that is not zero has a request. -/
theorem exists_of_load_ne (h : load q pds fd b ≠ 0) :
    ∃ t ∈ q, ∃ pd ∈ pds t, pd.fd = fd ∧ b ∈ pd.events := by
  by_contra hn
  have hzero : ∀ t ∈ q, want (pds t) fd b = want [] fd b := fun t ht => by
    have hz : ∀ pd ∈ pds t, asks pd fd b = 0 := fun pd hpd => by
      rw [asks, if_neg]
      exact fun hask => hn ⟨t, ht, pd, hpd, hask.1, hask.2.2⟩
    rw [want, List.map_congr_left hz]
    simp [want]
  refine h ?_
  rw [load_congr (r := fun _ => []) hzero]
  simp [load, want]

/-- **The counts are the requests of the threads on the io queue**, and the kernel watches them. -/
structure Requested (p : Proc) : Prop where
  ref : ∀ fd b, p.ep.ref fd b = load p.vp.ioq p.pds fd b
  valid : ∀ t ∈ p.vp.ioq, ∀ pd ∈ p.pds t, Valid p.ep pd
  watched : Watched p.ep.events p.ep
  size : 0 < p.ep.size
  evtlist : 0 < p.ep.evtlistSize

/-- The requests of a thread that leaves the io queue are taken back. -/
theorem Requested.leaves (R : Requested p) (ht : t ∈ p.vp.ioq) (hn : p.vp.ioq.Nodup)
    {ps : List Pollfd} (hv : ∀ pd ∈ ps, Valid p.ep pd)
    (hw : ∀ fd b, want ps fd b = want (p.pds t) fd b) {s : Vp} (hs : s.ioq = p.vp.ioq.erase t)
    (hpds : ∀ u, u ≠ t → pds u = p.pds u) :
    ∃ e, pollsetDel ps p.ep = some e ∧ Requested ⟨s, e, pds⟩ ∧ e.revents = p.ep.revents ∧
      e.size = p.ep.size := by
  obtain ⟨e, he, C, W⟩ := pollsetDel_watched R.watched (fun pd hpd => (hv pd hpd).fd)
    (fun fd b => by
      rw [hw, R.ref]
      exact want_le_load ht)
  have hne : ∀ u ∈ p.vp.ioq.erase t, u ≠ t := fun u hu e => hn.not_mem_erase (e ▸ hu)
  refine ⟨e, he, ⟨fun fd b => ?_, fun u hu pd hpd => ?_, W, ?_, ?_⟩, C.revents, C.size⟩
  · show e.ref fd b = load s.ioq pds fd b
    rw [C.ref, hw, R.ref, hs, ← load_erase ht]
    exact load_congr fun u hu => by rw [hpds u (hne u hu)]
  · have hu' : u ∈ p.vp.ioq.erase t := hs ▸ hu
    change pd ∈ pds u at hpd
    rw [hpds u (hne u hu')] at hpd
    exact (R.valid u (List.mem_of_mem_erase hu') pd hpd).of_size (Nat.le_of_eq C.size.symm)
  · exact C.size ▸ R.size
  · exact Nat.lt_of_lt_of_le R.evtlist C.evtlistSize

/-- The library writes to the requests of a thread. -/
theorem Requested.writes (R : Requested p) {ps : List Pollfd} (hv : ∀ pd ∈ ps, Valid p.ep pd)
    (hw : ∀ fd b, want ps fd b = want (p.pds t) fd b) :
    Requested { p with pds := Function.update p.pds t ps } := by
  refine ⟨fun fd b => ?_, fun u hu pd hpd => ?_, R.watched, R.size, R.evtlist⟩
  · rw [R.ref]
    refine load_congr fun u _ => ?_
    by_cases hut : u = t
    · subst hut
      rw [← hw]
      exact congrArg (want · fd b) (Function.update_self u ps p.pds).symm
    · exact congrArg (want · fd b) (Function.update_of_ne hut ps p.pds).symm
  · change pd ∈ Function.update p.pds t ps u at hpd
    by_cases hut : u = t
    · subst hut
      rw [Function.update_self] at hpd
      exact hv pd hpd
    · rw [Function.update_of_ne hut] at hpd
      exact R.valid u hu pd hpd

/-- **The loop of `dispatch`** is that of the scheduler, where those threads are ready that have
events to report. -/
theorem dispatchLoop_spec {ready : List Tid} {s : Vp} (R : Requested p) (hq : q.Nodup)
    (hio : ∀ t ∈ q, t ∈ p.vp.ioq) (hn : p.vp.ioq.Nodup)
    (hr : ∀ t ∈ q, t ∈ ready ↔
      ∃ pd ∈ p.pds t, found (p.ep.revents pd.fd.toNat) pd.events ≠ ∅)
    (hs : Vp.dispatchLoop ready q p.vp = some s) :
    ∃ p', dispatchLoop q p = some p' ∧ p'.vp = s ∧ Requested p' ∧
      p'.ep.revents = p.ep.revents ∧ p'.ep.size = p.ep.size ∧
      (∀ t, t ∉ q → p'.pds t = p.pds t) ∧
      ∀ t ∈ q, p'.pds t = (p.pds t).map fun pd =>
        { pd with revents := found (p.ep.revents pd.fd.toNat) pd.events } := by
  induction q generalizing p with
  | nil =>
      cases hs
      exact ⟨p, rfl, rfl, R, rfl, rfl, fun _ _ => rfl, fun _ h => by cases h⟩
  | cons t q ih =>
      obtain ⟨htq, hq⟩ := List.nodup_cons.mp hq
      have ht : t ∈ p.vp.ioq := hio t List.mem_cons_self
      have hne : ∀ u ∈ q, u ≠ t := fun u hu e => htq (e ▸ hu)
      obtain ⟨ps, hps⟩ : ∃ ps, (p.pds t).map (fun pd =>
        { pd with revents := found (p.ep.revents pd.fd.toNat) pd.events }) = ps := ⟨_, rfl⟩
      have hv : ∀ pd ∈ ps, Valid p.ep pd := fun pd hpd => by
        rw [← hps] at hpd
        obtain ⟨pd, hm, rfl⟩ := List.mem_map.mp hpd
        have := R.valid t ht pd hm
        exact ⟨this.fd, this.some, this.io⟩
      have hw : ∀ fd b, want ps fd b = want (p.pds t) fd b := fun fd b => by
        rw [← hps, want_found]
      have hpds : ∀ u, u ≠ t → Function.update p.pds t ps u = p.pds u := fun u hu =>
        Function.update_of_ne hu _ _
      have hnotify : (∃ pd ∈ ps, pd.revents ≠ ∅) ↔ t ∈ ready := by
        rw [hr t List.mem_cons_self, ← hps]
        simp
      have hr' : ∀ u ∈ q, u ∈ ready ↔ ∃ pd ∈ Function.update p.pds t ps u,
          found (p.ep.revents pd.fd.toNat) pd.events ≠ ∅ := fun u hu => by
        rw [hpds u (hne u hu)]
        exact hr u (List.mem_cons_of_mem _ hu)
      rw [dispatchLoop, findAll_spec (R.valid t ht), hps, Option.bind_some]
      rw [Vp.dispatchLoop] at hs
      by_cases hmem : t ∈ ready
      · rw [if_pos hmem] at hs
        obtain ⟨s₁, hs₁, hs⟩ := Option.bind_eq_some_iff.mp hs
        have hioq : (s₁.makeRunnable t).ioq = p.vp.ioq.erase t := Vp.delIfSleeping_ioq hs₁
        obtain ⟨e, he, R₁, hrev, hsize⟩ := R.leaves ht hn hv hw hioq hpds
        obtain ⟨p', hp, hvp, R', hrev', hsize', hout, hin⟩ := ih R₁ hq
          (fun u hu => by
            rw [hioq]
            exact (List.mem_erase_of_ne (hne u hu)).mpr (hio u (List.mem_cons_of_mem _ hu)))
          (by rw [hioq]; exact hn.erase t) (by rw [hrev]; exact hr') hs
        refine ⟨p', ?_, hvp, R', hrev'.trans hrev, hsize'.trans hsize, fun u hu => ?_,
          fun u hu => ?_⟩
        · dsimp only
          rw [if_pos (hnotify.mpr hmem), he, Option.bind_some, hs₁, Option.bind_some]
          exact hp
        · obtain ⟨hut, hu⟩ := not_or.mp fun h => hu (List.mem_cons.mpr h)
          exact (hout u hu).trans (hpds u hut)
        · rcases List.mem_cons.mp hu with rfl | hu
          · rw [hout u htq, hps]
            exact Function.update_self _ _ _
          · rw [hin u hu, hrev]
            exact congrArg (List.map _) (hpds u (hne u hu))
      · rw [if_neg hmem] at hs
        obtain ⟨p', hp, hvp, R', hrev', hsize', hout, hin⟩ := ih (R.writes hv hw) hq
          (fun u hu => hio u (List.mem_cons_of_mem _ hu)) hn hr' hs
        refine ⟨p', ?_, hvp, R', hrev', hsize', fun u hu => ?_, fun u hu => ?_⟩
        · dsimp only
          rw [if_neg fun h => hmem (hnotify.mp h)]
          exact hp
        · obtain ⟨hut, hu⟩ := not_or.mp fun h => hu (List.mem_cons.mpr h)
          exact (hout u hu).trans (hpds u hut)
        · rcases List.mem_cons.mp hu with rfl | hu
          · rw [hout u htq, hps]
            exact Function.update_self _ _ _
          · rw [hin u hu]
            exact congrArg (List.map _) (hpds u (hne u hu))

/-- **`_st_epoll_dispatch`** is the loop of the scheduler for the threads that are ready, and leaves
no event behind. -/
theorem dispatch_spec {s : Vp} (R : Requested p) (hquiet : ∀ fd, p.ep.revents fd = ∅)
    (hR : Reports p.ep fired) (hn : p.vp.ioq.Nodup)
    (hs : Vp.dispatchLoop (p.ready fired) p.vp.ioq p.vp = some s) :
    ∃ p', p.dispatch fired = some p' ∧ p'.vp = s ∧ Requested p' ∧
      (∀ fd, p'.ep.revents fd = ∅) ∧ (∀ t, t ∉ p.vp.ioq → p'.pds t = p.pds t) ∧
      ∀ t ∈ p.ready fired, (p'.pds t).countP (fun pd => pd.revents ≠ ∅) =
        (p.pds t).countP fun pd => Hits fired pd := by
  by_cases hf : fired = []
  · subst hf
    have hnone : p.ready [] = [] := by simp [ready, Hits]
    rw [hnone, Vp.dispatchLoop_none] at hs
    cases hs
    refine ⟨p, if_pos rfl, rfl, R, hquiet, fun _ _ => rfl, fun t ht => ?_⟩
    rw [hnone] at ht
    cases ht
  · have hlt : ∀ r ∈ fired, r.1 < p.ep.size := fun r hr =>
      R.watched.inside r.1 (hR.watched r hr).1
    obtain ⟨E, hE, hout, hin⟩ := mark_spec hlt hR.nodup
    have hiff : ∀ t ∈ p.vp.ioq, ∀ pd ∈ p.pds t,
        found (E pd.fd.toNat) pd.events ≠ ∅ ↔ Hits fired pd := fun t ht pd hpd =>
      found_iff_hits (R.valid t ht pd hpd) hquiet hout hin
    have R₁ : Requested { p with ep := { p.ep with revents := E } } := by
      refine ⟨R.ref, fun t ht pd hpd => (R.valid t ht pd hpd).of_size (Nat.le_refl _),
        ⟨R.watched.covers, fun fd hr _ => R.watched.used fd hr (hquiet fd), R.watched.inside,
          R.watched.counted⟩, R.size, R.evtlist⟩
    obtain ⟨p₁, hp₁, hvp, R₂, hrev, hsize, hpds, hready⟩ :=
      dispatchLoop_spec R₁ hn (fun _ h => h) hn (fun t ht => by
        rw [ready, List.mem_filter, decide_eq_true_iff]
        exact ⟨fun ⟨_, pd, hpd, hh⟩ => ⟨pd, hpd, (hiff t ht pd hpd).mpr hh⟩,
          fun ⟨pd, hpd, hh⟩ => ⟨ht, pd, hpd, (hiff t ht pd hpd).mp hh⟩⟩) hs
    obtain ⟨e, he, href, hq, hsz, hevt, W⟩ := sweep_spec
      (fun r (hr : r ∈ fired) => by
        rw [hsize]
        exact hlt r hr)
      (fun fd hfd => by
        rw [hrev]
        exact (hout fd hfd).trans (hquiet fd)) R₂.watched
    refine ⟨{ p₁ with ep := e }, ?_, hvp, ⟨fun fd b => ?_, fun t ht pd hpd => ?_, W, ?_, ?_⟩, hq,
      hpds, fun t ht => ?_⟩
    · rw [dispatch, if_neg hf, hE, Option.bind_some, hp₁, Option.bind_some, he, Option.map_some]
    · exact (congrFun (congrFun href fd) b).trans (R₂.ref fd b)
    · exact (R₂.valid t ht pd hpd).of_size (Nat.le_of_eq hsz.symm)
    · exact hsz ▸ R₂.size
    · exact Nat.lt_of_lt_of_le R₂.evtlist hevt
    · have hio := List.mem_of_mem_filter ht
      show (p₁.pds t).countP _ = _
      rw [hready t hio, List.countP_map]
      exact List.countP_congr fun pd hpd => by simpa using hiff t hio pd hpd

/-- **What every step keeps**: besides the requests, that no event is left in `fd_data` outside of
`dispatch`, and that a thread that is taken off the io queue has events to return. -/
structure Synced (p : Proc) : Prop extends Requested p where
  quiet : ∀ fd, p.ep.revents fd = ∅
  ready : ∀ t, (p.vp.thread t).pc.Polls → t ∉ p.vp.ioq → ∃ pd ∈ p.pds t, pd.revents ≠ ∅

theorem Synced.zero (S : Synced p) : p.ep.Zero := fun fd hfd => by
  refine ⟨fun b => ?_, S.quiet fd⟩
  rw [S.ref]
  have hzero : ∀ t ∈ p.vp.ioq, want (p.pds t) fd b = want [] fd b := fun t ht => by
    have hv := S.valid t ht
    revert hv
    generalize p.pds t = ps
    intro hv
    induction ps with
    | nil => rfl
    | cons pd ps ih =>
        have hlt := (hv pd List.mem_cons_self).fd
        have hne : pd.fd ≠ fd := by omega
        rw [want_cons, ih fun q hq => hv q (List.mem_cons_of_mem _ hq), asks, if_neg]
        · rfl
        · exact fun h => hne h.1
  rw [load_congr (r := fun _ => []) hzero]
  simp [load, want]

/-- What the kernel watches is requested. -/
theorem Synced.requested (S : Synced p) (fd : Nat) (hfd : fd ∈ p.ep.registered) :
    ∃ t ∈ p.vp.ioq, ∃ pd ∈ p.pds t, pd.fd = fd := by
  obtain ⟨b, hb⟩ := Finset.nonempty_iff_ne_empty.mpr (S.watched.used fd hfd (S.quiet fd))
  have hne := (mem_events.mp hb).2
  rw [S.ref] at hne
  obtain ⟨t, ht, pd, hpd, he, -⟩ := exists_of_load_ne hne
  exact ⟨t, ht, pd, hpd, he⟩

/-- A step of the scheduler that leaves the io queue as it is. -/
theorem Synced.of_vp {s : Vp} {l : Label} (S : Synced p) (V : p.vp.Inv)
    (hs : Vp.step p.vp l = some s) (hio : s.ioq = p.vp.ioq) : Synced { p with vp := s } := by
  obtain ⟨he, T⟩ := V.turn hs
  refine ⟨⟨fun fd b => ?_, fun t ht => ?_, S.watched, S.size, S.evtlist⟩, S.quiet,
    fun t hp ht => ?_⟩
  · rw [S.ref]
    exact congrArg (load · p.pds fd b) hio.symm
  · exact S.valid t (hio ▸ ht)
  · rcases T.polls V (V.step hs) he hp with ⟨hp', -⟩ | ⟨-, hmem⟩
    · exact S.ready t hp' (hio ▸ ht)
    · exact absurd hmem ht

theorem Synced.ref_nonneg (S : Synced p) (fd : Nat) (b : Bit) : 0 ≤ p.ep.ref fd b := by
  rw [S.ref]
  exact load_nonneg _ _ fd b

/-- A step of the scheduler in which `st_poll` has asked the event system. -/
theorem Synced.asked {s : Vp} {ps : List Pollfd} {timeout : Nat} {e : Epoll} {err : Option Errno}
    (S : Synced p) (V : p.vp.Inv) (hcur : p.vp.current ∉ p.vp.ioq)
    (hi : (p.vp.thread p.vp.current).interrupt = false) (ha : p.ep.pollsetAdd ps = some (e, err))
    (hs : Vp.step p.vp (.call (.poll (decide (err = none)) timeout)) = some s) :
    Synced ⟨s, e, Function.update p.pds p.vp.current ps⟩ := by
  obtain ⟨href, hrev, hsize, hevt, W, hvalid⟩ :=
    pollsetAdd_spec S.zero S.quiet S.ref_nonneg S.watched ha
  obtain ⟨hen, T⟩ := V.turn hs
  have hio := T.ioq V.queued
  rw [Vp.ioqAfter] at hio
  have hpds : ∀ t, t ≠ p.vp.current →
      Function.update p.pds p.vp.current ps t = p.pds t := fun t ht =>
    Function.update_of_ne ht _ _
  have hself : Function.update p.pds p.vp.current ps p.vp.current = ps :=
    Function.update_self _ _ _
  refine ⟨⟨fun fd b => ?_, fun t ht pd hpd => ?_, W, Nat.lt_of_lt_of_le S.size hsize,
    Nat.lt_of_lt_of_le S.evtlist hevt⟩, fun fd => by rw [hrev]; exact S.quiet fd,
    fun t hp ht => ?_⟩
  · show e.ref fd b = load s.ioq (Function.update p.pds p.vp.current ps) fd b
    have hold : load p.vp.ioq (Function.update p.pds p.vp.current ps) fd b =
        load p.vp.ioq p.pds fd b :=
      load_congr fun t ht => by rw [hpds t fun e => hcur (e ▸ ht)]
    rw [href, S.ref, hio]
    cases err with
    | none => rw [if_pos rfl, if_pos ⟨hi, by simp⟩, load_concat, hself, hold]
    | some err => rw [if_neg (by simp), if_neg (by simp), Int.add_zero, hold]
  · change t ∈ s.ioq at ht
    change pd ∈ Function.update p.pds p.vp.current ps t at hpd
    by_cases htc : t = p.vp.current
    · subst htc
      rw [hself] at hpd
      cases err with
      | none => exact hvalid rfl pd hpd
      | some err =>
          rw [hio, if_neg (by simp)] at ht
          exact absurd ht hcur
    · rw [hpds t htc] at hpd
      refine (S.valid t ?_ pd hpd).of_size hsize
      rw [hio] at ht
      split at ht
      · exact (List.mem_append.mp ht).resolve_right fun h => htc (List.mem_singleton.mp h)
      · exact ht
  · change t ∉ s.ioq at ht
    show ∃ pd ∈ Function.update p.pds p.vp.current ps t, pd.revents ≠ ∅
    rcases T.polls V (V.step hs) hen hp with ⟨hp', hne⟩ | ⟨-, hmem⟩
    · rw [hpds t hne]
      refine S.ready t hp' fun h => ht ?_
      rw [hio]
      split
      · exact List.mem_append_left _ h
      · exact h
    · exact absurd hmem ht

/-- **`st_poll`** makes its requests, or is refused. -/
theorem poll_spec (V : p.vp.Inv) (S : Synced p) {pds : List Pollfd} {timeout : Nat}
    (hme : (p.vp.thread p.vp.current).pc = .user) (h : p.poll pds timeout = some p') :
    exec Vp.step p.vp (p.view (.poll pds timeout)) = some p'.vp ∧ Synced p' := by
  have hcur : p.vp.current ∉ p.vp.ioq := fun h => by
    have hp := V.queued.ioq _ h
    rw [hme] at hp
    exact hp
  by_cases hi : (p.vp.thread p.vp.current).interrupt = true
  · rw [poll, if_pos hi] at h
    obtain ⟨s, hs, rfl⟩ := Option.map_eq_some_iff.mp h
    have hio : s.ioq = p.vp.ioq := by
      rw [(V.turn hs).2.ioq V.queued, Vp.ioqAfter, if_neg (by simp [hi])]
    refine ⟨?_, S.of_vp V hs hio⟩
    rw [view, decide_eq_true (.inl hi), exec_singleton, hs]
  · rw [poll, if_neg hi] at h
    obtain ⟨⟨e, err⟩, he, h⟩ := Option.bind_eq_some_iff.mp h
    obtain ⟨s, hs, rfl⟩ := Option.map_eq_some_iff.mp h
    have hi' : (p.vp.thread p.vp.current).interrupt = false := Bool.eq_false_of_not_eq_true hi
    refine ⟨?_, S.asked V hcur hi' he hs⟩
    rw [view, exec_singleton, he]
    simp only [hi', Bool.false_eq_true, false_or, Option.map_some, Option.some_inj]
    exact hs

/-- **Behind its switch** `st_poll` takes its requests back. -/
theorem resume_spec (V : p.vp.Inv) (S : Synced p) (he : p.vp.Enabled .resume) :
    ∃ p', p.resume = some p' ∧ exec Vp.step p.vp (p.view .resume) = some p'.vp ∧ Synced p' := by
  obtain ⟨s, hs⟩ := V.total he
  have hio : s.ioq = p.vp.ioq.erase p.vp.current := (V.turn hs).2.ioq V.queued
  rw [view, exec_singleton, hs]
  by_cases hpoll : (p.vp.thread p.vp.current).pc.Polls ∧ p.vp.current ∈ p.vp.ioq
  · obtain ⟨e, hdel, R, hrev, -⟩ := S.toRequested.leaves hpoll.2 V.queued.ioqNodup
      (S.valid _ hpoll.2) (fun _ _ => rfl) hio fun _ _ => rfl
    refine ⟨⟨s, e, p.pds⟩, ?_, rfl, R, fun fd => by rw [hrev]; exact S.quiet fd,
      fun t hp ht => ?_⟩
    · rw [resume, if_pos hpoll, hdel, Option.bind_some, hs, Option.map_some]
    · rcases (V.turn hs).2.polls V (V.step hs) he hp with ⟨hp', hne⟩ | ⟨-, hmem⟩
      · refine S.ready t hp' fun h => ht ?_
        show t ∈ s.ioq
        rw [hio]
        exact (List.mem_erase_of_ne hne).mpr h
      · exact absurd hmem ht
  · have hcur : p.vp.current ∉ p.vp.ioq := fun h => hpoll ⟨V.queued.ioq _ h, h⟩
    rw [List.erase_of_not_mem hcur] at hio
    exact ⟨{ p with vp := s }, by rw [resume, if_neg hpoll, hs, Option.map_some], rfl,
      S.of_vp V hs hio⟩

/-- **A round of the idle thread** wakes the threads whose requests are hit. -/
theorem idle_spec (V : p.vp.Inv) (S : Synced p) {now : Nat} (he : p.vp.Enabled (.idle [] now))
    (hR : Reports p.ep fired) :
    ∃ p', p.idle fired now = some p' ∧
      exec Vp.step p.vp (p.view (.idle fired now)) = some p'.vp ∧ Synced p' ∧
      ∀ t ∈ p.ready fired, (p'.pds t).countP (fun pd => pd.revents ≠ ∅) =
        (p.pds t).countP fun pd => Hits fired pd := by
  have hen : p.vp.Enabled (.idle (p.ready fired) now) := he
  obtain ⟨s', hs'⟩ := V.total hen
  have hio : s'.ioq = p.vp.ioq.filter (· ∉ p.ready fired) := (V.turn hs').2.ioq V.queued
  have hround : p.vp.idleRound (p.ready fired) now = some s' := by
    have h := hs'
    rw [Vp.step, if_pos hen, Vp.act, Option.map_map] at h
    obtain ⟨s₁, hs₁, rfl⟩ := Option.map_eq_some_iff.mp h
    exact hs₁
  obtain ⟨s₁, hs₁, hround⟩ := Option.bind_eq_some_iff.mp hround
  obtain ⟨s₂, hs₂, rfl⟩ := Option.map_eq_some_iff.mp hround
  obtain ⟨p₁, hp₁, rfl, R, hquiet, hpds, hready⟩ :=
    dispatch_spec S.toRequested S.quiet hR V.queued.ioqNodup hs₁
  have hioq : ((s₂.setState s₂.current .runnable).switch .idle).ioq = p₁.vp.ioq := by
    rw [← Vp.checkClock_ioq hs₂]
    exact Vp.schedule_ioq
  refine ⟨{ p₁ with vp := (s₂.setState s₂.current .runnable).switch .idle }, ?_, ?_,
    ⟨⟨fun fd b => ?_, fun t ht => ?_, R.watched, R.size, R.evtlist⟩, hquiet, fun t hp ht => ?_⟩,
    hready⟩
  · rw [idle, hp₁, Option.bind_some, hs₂, Option.map_some]
  · rw [view, exec_singleton, hs']
  · rw [R.ref]
    exact congrArg (load · p₁.pds fd b) hioq.symm
  · exact R.valid t (hioq ▸ ht)
  · change t ∉ ((s₂.setState s₂.current .runnable).switch .idle).ioq at ht
    rcases (V.turn hs').2.polls V (V.step hs') hen hp with ⟨hp', -⟩ | ⟨-, hmem⟩
    · by_cases hmem : t ∈ p.vp.ioq
      · have hr : t ∈ p.ready fired := not_not.mp fun h => ht (by
          rw [hio]
          exact List.mem_filter.mpr ⟨hmem, decide_eq_true h⟩)
        obtain ⟨pd, hpd, hh⟩ := of_decide_eq_true (List.mem_filter.mp hr).2
        have hpos : 0 < (p₁.pds t).countP fun pd => pd.revents ≠ ∅ := by
          rw [hready t hr]
          exact List.countP_pos_iff.mpr ⟨pd, hpd, decide_eq_true hh⟩
        obtain ⟨pd', hpd', hne⟩ := List.countP_pos_iff.mp hpos
        exact ⟨pd', hpd', of_decide_eq_true hne⟩
      · show ∃ pd ∈ p₁.pds t, pd.revents ≠ ∅
        rw [hpds t hmem]
        exact S.ready t hp' hmem
    · exact absurd hmem ht

/-- **A step that is taken** is one of the scheduler, and keeps the invariant. -/
theorem act_spec (V : p.vp.Inv) (S : Synced p) (he : p.Enabled m) (h : p.act m = some p') :
    exec Vp.step p.vp (p.view m) = some p'.vp ∧ Synced p' := by
  cases m with
  | call c =>
      obtain ⟨s, hs, rfl⟩ := Option.map_eq_some_iff.mp h
      have hio : s.ioq = p.vp.ioq :=
        ((V.turn hs).2.ioq V.queued).trans (Vp.ioqAfter_call he.2)
      exact ⟨by rw [view, exec_singleton, hs], S.of_vp V hs hio⟩
  | poll pds timeout => exact poll_spec V S he h
  | fdNew osfd =>
      obtain ⟨⟨e, ok⟩, hnew, rfl⟩ := Option.map_eq_some_iff.mp h
      have G : Grown p.ep e := by
        rw [fdNew] at hnew
        split at hnew
        · exact (fdDataExpand_spec S.zero hnew).1
        · cases hnew
          exact Grown.refl _
      refine ⟨rfl,
        ⟨⟨fun fd b => ?_, fun t ht pd hpd => (S.valid t ht pd hpd).of_size G.size, ?_,
          Nat.lt_of_lt_of_le S.size G.size, Nat.lt_of_lt_of_le S.evtlist G.evtlistSize⟩,
          fun fd => ?_, S.ready⟩⟩
      · exact (congrFun (congrFun G.ref fd) b).trans (S.ref fd b)
      · show Watched e.events e
        rw [events_congr G.ref]
        exact S.watched.grown G
      · exact (congrFun G.revents fd).trans (S.quiet fd)
  | resume =>
      obtain ⟨p₁, hact, hvp, S'⟩ := resume_spec V S he
      cases hact.symm.trans h
      exact ⟨hvp, S'⟩
  | idle fired now =>
      obtain ⟨p₁, hact, hvp, S', -⟩ := idle_spec V S he.1 he.2
      cases hact.symm.trans h
      exact ⟨hvp, S'⟩

/-- **An enabled step can be taken** while all descriptors are below `2 ^ 30`. -/
theorem act_total (V : p.vp.Inv) (S : Synced p) (he : p.Enabled m) (hlow : p.Low m) :
    ∃ p', p.act m = some p' := by
  have hreg : ∀ fd ∈ p.ep.registered, fd < 2 ^ 30 := fun fd hfd => by
    obtain ⟨t, ht, pd, hpd, he⟩ := S.requested fd hfd
    have := hlow.queued t ht pd hpd
    omega
  cases m with
  | call c =>
      obtain ⟨s, hs⟩ := V.total he.1
      exact ⟨{ p with vp := s }, by rw [act, hs, Option.map_some]⟩
  | poll pds timeout =>
      obtain ⟨⟨e, err⟩, ha⟩ := pollsetAdd_total S.size S.evtlist S.zero S.quiet S.ref_nonneg
        S.watched hreg hlow.move
      have hs : ∀ added, ∃ s, Vp.step p.vp (.call (.poll added timeout)) = some s := fun added =>
        V.total ⟨he, trivial⟩
      rw [act, poll]
      split
      · obtain ⟨s, hs⟩ := hs true
        exact ⟨_, by rw [hs, Option.map_some]⟩
      · obtain ⟨s, hs⟩ := hs (decide (err = none))
        exact ⟨_, by rw [ha, Option.bind_some, hs, Option.map_some]⟩
  | fdNew osfd =>
      rw [act, fdNew]
      split
      · obtain ⟨r, hr⟩ := fdDataExpand_total S.size osfd hlow.move
        exact ⟨_, by rw [hr, Option.map_some]⟩
      · exact ⟨_, rfl⟩
  | resume =>
      obtain ⟨p', hact, -⟩ := resume_spec V S he
      exact ⟨p', hact⟩
  | idle fired now =>
      obtain ⟨p', hact, -⟩ := idle_spec V S he.1 he.2
      exact ⟨p', hact⟩

/-! ### Over runs -/

variable {clock : Nat} {fdlim : Int} {refuses : Nat → Bool} {ms : List Move}

theorem synced_init (clock : Nat) (fdlim : Int) (refuses : Nat → Bool) :
    Synced (init clock fdlim refuses) := by
  have hsize : 0 < (Epoll.init fdlim refuses).size := by
    show 0 < if 0 < fdlim ∧ fdlim < 4096 then fdlim.toNat else 4096
    split <;> omega
  have hnone : ∀ fd, (Epoll.init fdlim refuses).events fd = ∅ := fun fd => by
    simp [Epoll.events, Epoll.init]
  have W : Watched (Epoll.init fdlim refuses).events (Epoll.init fdlim refuses) :=
    ⟨fun fd h => absurd (hnone fd) h, fun fd h => absurd h (Finset.notMem_empty fd),
      fun fd h => absurd h (Finset.notMem_empty fd), rfl⟩
  refine ⟨⟨fun _ _ => rfl, fun t ht => absurd ht List.not_mem_nil, W, hsize, hsize⟩, fun _ => rfl,
    fun t hp => ?_⟩
  · rcases Vp.init_cases clock t with ⟨-, h⟩ | ⟨-, h⟩ | ⟨-, h⟩
    all_goals
      change ((Vp.init clock).thread t).pc.Polls at hp
      rw [h] at hp
      exact hp.elim

/-- **A step** is enabled, one of the scheduler, and keeps the invariant. -/
theorem step_spec (V : p.vp.Inv) (S : Synced p) (hs : p.step m = some p') :
    p.Enabled m ∧ exec Vp.step p.vp (p.view m) = some p'.vp ∧ p'.vp.Inv ∧ Synced p' := by
  have he : p.Enabled m := by
    by_contra hn
    rw [step, if_neg hn] at hs
    cases hs
  rw [step, if_pos he] at hs
  obtain ⟨hvp, S'⟩ := act_spec V S he hs
  exact ⟨he, hvp, exec_inv V (fun _ _ _ V hs => V.step hs) hvp, S'⟩

theorem synced_of_exec (h : exec step (init clock fdlim refuses) ms = some p) :
    (p.vp.Inv ∧ Synced p) ∧ ∃ ls, exec Vp.step (Vp.init clock) ls = some p.vp := by
  refine exec_ind (P := fun _ p => (p.vp.Inv ∧ Synced p) ∧
    ∃ ls, exec Vp.step (Vp.init clock) ls = some p.vp)
    ⟨⟨Vp.Inv.init clock, synced_init clock fdlim refuses⟩, [], rfl⟩ ?_ h
  rintro ms p m p' - ⟨⟨V, S⟩, ls, hls⟩ hs
  obtain ⟨-, hvp, V', S'⟩ := step_spec V S hs
  exact ⟨⟨V', S'⟩, ls ++ p.view m, exec_append.mpr ⟨p.vp, hls, hvp⟩⟩

/-- The state after the run `ms` from the clock 0, where the kernel refuses nothing. -/
def after (ms : List Move) : Proc :=
  (exec step (init 0 (-1) fun _ => false) ms).getD (init 0 (-1) fun _ => false)

theorem exec_after (h : (exec step (init 0 (-1) fun _ => false) ms).isSome = true) :
    exec step (init 0 (-1) fun _ => false) ms = some (after ms) := by
  obtain ⟨p, hp⟩ := Option.isSome_iff_exists.mp h
  rw [after, hp]
  rfl

theorem step_after (h : (exec step (init 0 (-1) fun _ => false) (ms ++ [m])).isSome = true) :
    step (after ms) m = some (after (ms ++ [m])) := by
  obtain ⟨p, hp, hs⟩ := exec_snoc.mp (exec_after h)
  rw [after, hp]
  exact hs

/-- **The scheduler with the event system is the scheduler**: every state it reaches is one that the
scheduler reaches, every step that it takes is one of the scheduler, and every enabled step can be
taken while all descriptors are below `2 ^ 30`. -/
theorem polling_refines_scheduler (h : exec step (init clock fdlim refuses) ms = some p) :
    (∃ ls, exec Vp.step (Vp.init clock) ls = some p.vp) ∧
      (∀ m p', p.step m = some p' → exec Vp.step p.vp (p.view m) = some p'.vp) ∧
      ∀ m, p.Enabled m → p.Low m → ∃ p', p.step m = some p' := by
  obtain ⟨⟨V, S⟩, hls⟩ := synced_of_exec h
  refine ⟨hls, fun m p' hs => (step_spec V S hs).2.1, fun m he hlow => ?_⟩
  obtain ⟨p', hact⟩ := act_total V S he hlow
  exact ⟨p', by rw [step, if_pos he, hact]⟩

/-- Thread 1 waits for input on 7 and output on 5000, and thread 2 for output on 7. -/
def polling : List Move :=
  [.call (.create false), .poll [⟨7, {.POLLIN}, ∅⟩, ⟨5000, {.POLLOUT}, ∅⟩] 50, .resume,
    .poll [⟨7, {.POLLOUT}, ∅⟩] Sched.noTimeout]

theorem polling_refines_scheduler_two :
    ((after polling).vp.ioq = [1, 2] ∧ (after polling).ep.size = 8192) ∧
      (∃ ls, exec Vp.step (Vp.init 0) ls = some (after polling).vp) ∧
      (∀ m p', (after polling).step m = some p' →
        exec Vp.step (after polling).vp ((after polling).view m) = some p'.vp) ∧
      ∀ m, (after polling).Enabled m → (after polling).Low m →
        ∃ p', (after polling).step m = some p' :=
  ⟨by decide, polling_refines_scheduler (exec_after (by decide))⟩

/-- The loop of `_st_epoll_fd_data_expand` does not end for this descriptor. -/
example : (init 0 (-1) fun _ => false).ep.fdNew (2 ^ 30) = none := by decide

/-- A request is counted. -/
theorem Requested.counts (R : Requested p) (ht : t ∈ p.vp.ioq) {pd : Pollfd}
    (hpd : pd ∈ p.pds t) (hb : b ∈ pd.events) : b ∈ p.ep.events pd.fd.toNat := by
  have hv := R.valid t ht pd hpd
  have hcast : (pd.fd.toNat : Int) = pd.fd := Int.toNat_of_nonneg hv.fd.1
  have hask : asks pd pd.fd.toNat b = 1 := if_pos ⟨hcast.symm, hv.io hb, hb⟩
  have hle : asks pd pd.fd.toNat b ≤ p.ep.ref pd.fd.toNat b := by
    rw [R.ref]
    exact Int.le_trans (asks_le_want hpd) (want_le_load ht)
  exact mem_events.mpr ⟨hv.io hb, by omega⟩

/-- **The reference counts are exact**: each is the number of requests of the threads on the io
queue, and a descriptor can be closed exactly when none of them waits for it. -/
theorem requests_counted (h : exec step (init clock fdlim refuses) ms = some p) :
    (∀ fd b, p.ep.ref fd b = load p.vp.ioq p.pds fd b) ∧
      ∀ fd < p.ep.size, (p.ep.fdClose fd = some true ↔
        ∀ t ∈ p.vp.ioq, ∀ pd ∈ p.pds t, pd.fd ≠ fd) := by
  obtain ⟨⟨-, S⟩, -⟩ := synced_of_exec h
  refine ⟨S.ref, fun fd hfd => ?_⟩
  have hindex : p.ep.index? (fd : Int) = some fd := by
    rw [index?, if_pos ⟨Int.natCast_nonneg fd, Int.ofNat_lt.mpr hfd⟩, Int.toNat_natCast]
  have hclose : p.ep.fdClose fd = some true ↔ ∀ b ∈ Mask.io, p.ep.ref fd b = 0 := by
    rw [fdClose, hindex, Option.map_some, Option.some_inj, decide_eq_true_iff]
    simp [Mask.io]
  rw [hclose]
  constructor
  · intro hz t ht pd hpd he
    have hv := S.valid t ht pd hpd
    obtain ⟨b, hb⟩ := Finset.nonempty_iff_ne_empty.mpr hv.some
    have hmem := S.toRequested.counts ht hpd hb
    have hfd' : pd.fd.toNat = fd := by omega
    rw [hfd'] at hmem
    exact (mem_events.mp hmem).2 (hz b (hv.io hb))
  · intro hn b hb
    by_contra hne
    rw [S.ref] at hne
    obtain ⟨t, ht, pd, hpd, he, -⟩ := exists_of_load_ne hne
    exact hn t ht pd hpd he

theorem requests_counted_two :
    ((after polling).ep.ref 7 .POLLIN = 1 ∧ (after polling).ep.ref 7 .POLLOUT = 1 ∧
      (after polling).ep.fdClose 7 = some false ∧ (after polling).ep.fdClose 8 = some true) ∧
    (∀ fd b, (after polling).ep.ref fd b = load (after polling).vp.ioq (after polling).pds fd b) ∧
      ∀ fd < (after polling).ep.size, ((after polling).ep.fdClose fd = some true ↔
        ∀ t ∈ (after polling).vp.ioq, ∀ pd ∈ (after polling).pds t, pd.fd ≠ fd) :=
  ⟨by decide, requests_counted (exec_after (by decide))⟩

/-- **The kernel watches what the threads wait for**, whatever it refused: every request with its
events, and no descriptor that no thread waits for; `evtlist_cnt` is the number of them. -/
theorem requests_watched (h : exec step (init clock fdlim refuses) ms = some p) :
    (∀ t ∈ p.vp.ioq, ∀ pd ∈ p.pds t,
      pd.fd.toNat ∈ p.ep.registered ∧ pd.events ⊆ p.ep.mask pd.fd.toNat) ∧
      (∀ fd ∈ p.ep.registered, ∃ t ∈ p.vp.ioq, ∃ pd ∈ p.pds t, pd.fd = fd) ∧
      p.ep.evtlistCnt = p.ep.registered.card := by
  obtain ⟨⟨-, S⟩, -⟩ := synced_of_exec h
  refine ⟨fun t ht pd hpd => ?_, S.requested, S.watched.counted⟩
  obtain ⟨b, hb⟩ := Finset.nonempty_iff_ne_empty.mpr (S.valid t ht pd hpd).some
  have hne : p.ep.events pd.fd.toNat ≠ ∅ := fun he => by
    have hmem := S.toRequested.counts ht hpd hb
    rw [he] at hmem
    exact absurd hmem (Finset.notMem_empty b)
  obtain ⟨hr, hm⟩ := S.watched.covers _ hne
  exact ⟨hr, fun b hb => hm (S.toRequested.counts ht hpd hb)⟩

theorem requests_watched_two :
    ((after polling).ep.registered = {7, 5000} ∧ (after polling).ep.evtlistCnt = 2 ∧
      (after polling).ep.mask 7 = {.POLLIN, .POLLOUT}) ∧
    (∀ t ∈ (after polling).vp.ioq, ∀ pd ∈ (after polling).pds t,
      pd.fd.toNat ∈ (after polling).ep.registered ∧
        pd.events ⊆ (after polling).ep.mask pd.fd.toNat) ∧
      (∀ fd ∈ (after polling).ep.registered,
        ∃ t ∈ (after polling).vp.ioq, ∃ pd ∈ (after polling).pds t, pd.fd = fd) ∧
      (after polling).ep.evtlistCnt = (after polling).ep.registered.card :=
  ⟨by decide, requests_watched (exec_after (by decide))⟩

/-- A thread that is taken off the io queue by `dispatch` can run. -/
theorem state_of_dispatched {s s' : Vp} {ready : List Tid} {now : Nat} (V : s.Inv)
    (hs : Vp.step s (.idle ready now) = some s') (ht : t ∈ s.ioq) (ht' : t ∉ s'.ioq) :
    (s'.thread t).state = .runnable ∨ (s'.thread t).state = .running := by
  obtain ⟨he, T⟩ := V.turn hs
  have hne : t ≠ s.current := fun e => by
    have hp := V.queued.ioq t ht
    rw [e, he.1] at hp
    exact hp
  cases T.fate V.core V.queued he t with
  | rests _ _ hio => exact absurd (hio.mpr ht) ht'
  | flagged _ _ _ hio => exact absurd (hio.mpr ht) ht'
  | wakes _ _ _ _ hr =>
      rcases hr with h | ⟨-, h⟩
      · left
        rw [h]
        exact Vp.Why.thread_state
      · right
        rw [h]
  | collected _ hz =>
      have hp := V.queued.ioq t ht
      rw [V.core.exit_of_zombie hz] at hp
      exact hp.elim
  | created _ hdead =>
      have hp := V.queued.ioq t ht
      rw [not_not.mp hdead] at hp
      exact hp.elim
  | calls hcur | waits hcur | yields hcur | exits hcur | dies hcur | starts hcur | returns hcur
  | rejoins hcur | joined hcur | ends hcur | idles hcur => exact absurd hcur hne

/-- **`dispatch` wakes exactly the threads with a request that is hit**, and such a thread will
return the number of its requests that are. -/
theorem dispatch_wakes {now : Nat} (h : exec step (init clock fdlim refuses) ms = some p)
    (hs : p.step (.idle fired now) = some p') (ht : t ∈ p.vp.ioq) :
    (t ∉ p'.vp.ioq ↔ ∃ pd ∈ p.pds t, Hits fired pd) ∧
      (t ∉ p'.vp.ioq →
        ((p'.vp.thread t).state = .runnable ∨ (p'.vp.thread t).state = .running) ∧
          p'.polled t = (p.pds t).countP fun pd => Hits fired pd) := by
  obtain ⟨⟨V, S⟩, -⟩ := synced_of_exec h
  obtain ⟨he, hvp, -, -⟩ := step_spec V S hs
  obtain ⟨p₁, hact, -, -, hcount⟩ := idle_spec V S he.1 he.2
  have hp : p₁ = p' := by
    rw [step, if_pos he, act, hact] at hs
    exact Option.some.inj hs
  subst hp
  rw [view, exec_singleton] at hvp
  have hio : p₁.vp.ioq = p.vp.ioq.filter (· ∉ p.ready fired) := (V.turn hvp).2.ioq V.queued
  have hready : t ∉ p₁.vp.ioq ↔ t ∈ p.ready fired := by
    rw [hio, List.mem_filter]
    simp [ht]
  refine ⟨?_, fun hout => ⟨state_of_dispatched V hvp ht hout, ?_⟩⟩
  · rw [hready, ready, List.mem_filter, decide_eq_true_iff]
    exact and_iff_right ht
  · rw [polled, if_neg hout]
    exact hcount t (hready.mp hout)

/-- `epoll_wait` finds 7 ready for input. -/
def reported : List Move := polling ++ [.idle [(7, {.POLLIN})] 3]

/-- Thread 1 is woken, and thread 2 waits on. -/
theorem dispatch_wakes_two :
    ((after reported).vp.ioq = [2] ∧ (after reported).vp.current = 1 ∧
      (after reported).polled 1 = 1) ∧
      (1 ∉ (after reported).vp.ioq ↔
        ∃ pd ∈ (after polling).pds 1, Hits [(7, {.POLLIN})] pd) ∧
      (1 ∉ (after reported).vp.ioq →
        (((after reported).vp.thread 1).state = .runnable ∨
          ((after reported).vp.thread 1).state = .running) ∧
          (after reported).polled 1 =
            ((after polling).pds 1).countP fun pd => Hits [(7, {.POLLIN})] pd) :=
  ⟨by decide, dispatch_wakes (exec_after (by decide)) (step_after (by decide)) (by decide)⟩

/-- **What `st_poll` returns is positive exactly when its thread was taken off the io queue**, and
then it takes back nothing; else it returns `0` and takes its requests back. -/
theorem poll_returns_ready {added : Bool} {timeout : Nat}
    (h : exec step (init clock fdlim refuses) ms = some p)
    (hpc : (p.vp.thread p.vp.current).pc = .inside (.poll added timeout)) :
    ∃ p', p.step .resume = some p' ∧ p.vp.current ∉ p'.vp.ioq ∧
      (0 < p.polled p.vp.current ↔ p.vp.current ∉ p.vp.ioq) ∧
      Vp.obs p.vp .resume = [.leave p.vp.current (.poll added timeout)
        (if (p.vp.thread p.vp.current).interrupt then .EINTR
          else .polled (decide (0 < p.polled p.vp.current)))] ∧
      ∀ fd b, p'.ep.ref fd b = p.ep.ref fd b +
        if p.vp.current ∈ p.vp.ioq then - want (p.pds p.vp.current) fd b else 0 := by
  obtain ⟨⟨V, S⟩, -⟩ := synced_of_exec h
  have he : p.vp.Enabled .resume := by
    rw [Vp.Enabled, hpc]
    exact ⟨by simp, by simp⟩
  have hen : p.Enabled .resume := he
  obtain ⟨p', hact, hvp, S'⟩ := resume_spec V S he
  have hpos : 0 < p.polled p.vp.current ↔ p.vp.current ∉ p.vp.ioq := by
    rw [polled]
    split
    next hio => exact iff_of_false (Nat.lt_irrefl 0) fun hn => hn hio
    next hio =>
      obtain ⟨pd, hpd, hne⟩ := S.ready _ (by rw [hpc]; trivial) hio
      exact iff_of_true (List.countP_pos_iff.mpr ⟨pd, hpd, decide_eq_true hne⟩) hio
  rw [view, exec_singleton] at hvp
  have hio : p'.vp.ioq = p.vp.ioq.erase p.vp.current := (V.turn hvp).2.ioq V.queued
  refine ⟨p', (if_pos hen).trans hact, ?_, hpos, ?_, fun fd b => ?_⟩
  · rw [hio]
    exact V.queued.ioqNodup.not_mem_erase
  · have hobs : Vp.obs p.vp .resume =
        [.leave p.vp.current (.poll added timeout) p.vp.pollDone.2] := by
      simp [Vp.obs, Vp.act, hpc, Vp.goOn, Vp.leave?]
    have hdec : decide (0 < p.polled p.vp.current) = !(p.vp.current ∈ p.vp.ioq : Bool) := by
      rw [← decide_not]
      exact decide_eq_decide.mpr hpos
    rw [hobs, hdec, Vp.pollDone]
    dsimp only
    split <;> rfl
  · have hpds : p'.pds = p.pds := by
      rw [resume] at hact
      split at hact
      · obtain ⟨e, -, hact⟩ := Option.bind_eq_some_iff.mp hact
        obtain ⟨s, -, rfl⟩ := Option.map_eq_some_iff.mp hact
        rfl
      · obtain ⟨s, -, rfl⟩ := Option.map_eq_some_iff.mp hact
        rfl
    rw [S'.ref, S.ref, hio, hpds]
    split
    next hmem => exact load_erase hmem
    next hmem => rw [List.erase_of_not_mem hmem, Int.add_zero]

/-- Thread 1 goes on behind its switch after its timeout. -/
def overdue : List Move := polling ++ [.idle [] 60]

theorem poll_returns_ready_timeout :
    ((after overdue).vp.current = 1 ∧ (after overdue).vp.ioq = [1, 2] ∧
      Vp.obs (after overdue).vp .resume = [.leave 1 (.poll true 50) (.polled false)]) ∧
    ∃ p', (after overdue).step .resume = some p' ∧
      (after overdue).vp.current ∉ p'.vp.ioq ∧
      (0 < (after overdue).polled (after overdue).vp.current ↔
        (after overdue).vp.current ∉ (after overdue).vp.ioq) ∧
      Vp.obs (after overdue).vp .resume =
        [.leave (after overdue).vp.current (.poll true 50)
          (if ((after overdue).vp.thread (after overdue).vp.current).interrupt then .EINTR
            else .polled (decide (0 < (after overdue).polled (after overdue).vp.current)))] ∧
      ∀ fd b, p'.ep.ref fd b = (after overdue).ep.ref fd b +
        if (after overdue).vp.current ∈ (after overdue).vp.ioq then
          - want ((after overdue).pds (after overdue).vp.current) fd b
        else 0 :=
  ⟨by decide, poll_returns_ready (exec_after (by decide)) (by decide)⟩

end Proc

end StCoroutine.Sched
