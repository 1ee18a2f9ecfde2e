import Mathlib.Data.Finset.Prod
import StCoroutine.Sched.Polling

/-!
# Select — the scheduler with the select event system

The functions of `event.c` for select, the event system that `srs_st_init` asks for.  For each
descriptor the library counts the requests of the threads in `st_poll` by event (`ref`), and has a
bit in the `fd_set` of the event (`isset`); `select` looks at the descriptors up to `maxfd`.  `none`
is an access outside the sets.

`SelectProc` is the scheduler with this event system, as `Proc` is with epoll.  What `select` finds
is part of the step, and nothing is asked of it.
-/

set_option autoImplicit false

namespace StCoroutine.Sched
open Lts

/-- `FD_SETSIZE`. -/
def fdSetsize : Nat := 1024

/-- `_st_select_data`. -/
structure Select where
  ref : Nat → Bit → Int
  isset : Nat → Bit → Bool
  maxfd : Int

namespace Select

/-- The index of a descriptor in the sets. -/
def index? (fd : Int) : Option Nat :=
  if 0 ≤ fd ∧ fd < fdSetsize then some fd.toNat else none

/-- What `_st_select_pollset_add` checks up front. -/
structure Valid (pd : Pollfd) : Prop where
  fd : 0 ≤ pd.fd ∧ pd.fd < fdSetsize
  some : pd.events ≠ ∅
  io : pd.events ⊆ Mask.io

instance (pd : Pollfd) : Decidable (Valid pd) :=
  decidable_of_iff ((0 ≤ pd.fd ∧ pd.fd < fdSetsize) ∧ pd.events ≠ ∅ ∧ pd.events ⊆ Mask.io)
    ⟨fun ⟨h₁, h₂, h₃⟩ => ⟨h₁, h₂, h₃⟩, fun ⟨h₁, h₂, h₃⟩ => ⟨h₁, h₂, h₃⟩⟩

/-- A round of the second loop of `_st_select_pollset_add`. -/
def addOne (e : Select) (pd : Pollfd) : Option Select :=
  (index? pd.fd).map fun fd =>
    { ref := Function.update e.ref fd fun b =>
        if b ∈ Mask.io ∧ b ∈ pd.events then e.ref fd b + 1 else e.ref fd b
      isset := Function.update e.isset fd fun b =>
        if b ∈ Mask.io ∧ b ∈ pd.events then true else e.isset fd b
      maxfd := if e.maxfd < pd.fd then pd.fd else e.maxfd }

def addLoop : List Pollfd → Select → Option Select
  | [], e => some e
  | pd :: pds, e => (e.addOne pd).bind (addLoop pds)

/-- `_st_select_pollset_add`, and its error. -/
def pollsetAdd (e : Select) (pds : List Pollfd) : Option (Select × Option Errno) :=
  if ∀ pd ∈ pds, Valid pd then (addLoop pds e).map fun e => (e, none)
  else some (e, some .EINVAL)

/-- A round of `_st_select_pollset_del`: `if (--cnt == 0) FD_CLR(..);` for each event. -/
def delOne (e : Select) (pd : Pollfd) : Option Select :=
  (index? pd.fd).map fun fd =>
    { e with
      ref := Function.update e.ref fd fun b =>
        if b ∈ Mask.io ∧ b ∈ pd.events then e.ref fd b - 1 else e.ref fd b
      isset := Function.update e.isset fd fun b =>
        if (b ∈ Mask.io ∧ b ∈ pd.events) ∧ e.ref fd b - 1 = 0 then false else e.isset fd b }

/-- `_st_select_pollset_del`. -/
def pollsetDel : List Pollfd → Select → Option Select
  | [], e => some e
  | pd :: pds, e => (e.delOne pd).bind (pollsetDel pds)

/-- `pq_max_osfd` after the descriptors of a poll queue. -/
def pqMaxOsfd : List Pollfd → Int → Int
  | [], top => top
  | pd :: pds, top => pqMaxOsfd pds (if pd.fd > top then pd.fd else top)

/-- `_st_select_fd_new` returns `0`. -/
def fdNew (osfd : Nat) : Bool := decide (osfd < fdSetsize)

/-- `_st_select_fd_close` returns `0`. -/
def fdClose (e : Select) (osfd : Nat) : Option Bool :=
  (index? osfd).map fun fd => decide (e.ref fd .POLLIN = 0 ∧ e.ref fd .POLLOUT = 0 ∧
    e.ref fd .POLLPRI = 0)

/-- `_st_select_init`. -/
def init : Select := ⟨fun _ _ => 0, fun _ _ => false, -1⟩

/-! ### What is counted -/

open Epoll (asks want asks_nonneg want_cons want_nonneg asks_le_want)

variable {e : Select} {pd : Pollfd} {pds : List Pollfd} {g : Nat → Bit → Int} {fd : Nat} {b : Bit}
  {top : Int}

/-- The counts are `g`, and a bit is set where its count is not zero. -/
structure Counts (e : Select) (g : Nat → Bit → Int) : Prop where
  ref : ∀ fd b, e.ref fd b = g fd b
  isset : ∀ fd b, e.isset fd b = true ↔ g fd b ≠ 0

theorem index?_of_lt (h : 0 ≤ pd.fd ∧ pd.fd < fdSetsize) : index? pd.fd = some pd.fd.toNat :=
  if_pos h

theorem asks_toNat (h : 0 ≤ pd.fd) :
    asks pd pd.fd.toNat b = if b ∈ Mask.io ∧ b ∈ pd.events then 1 else 0 := by
  rw [asks, Int.toNat_of_nonneg h]
  simp

theorem asks_of_ne (h : 0 ≤ pd.fd) (hfd : fd ≠ pd.fd.toNat) : asks pd fd b = 0 :=
  if_neg fun ⟨h', _⟩ => hfd (by omega)

/-- A descriptor is counted. -/
theorem addOne_spec (C : Counts e g) (hpos : ∀ fd b, 0 ≤ g fd b)
    (h : 0 ≤ pd.fd ∧ pd.fd < fdSetsize) :
    ∃ e', e.addOne pd = some e' ∧ Counts e' (fun fd b => g fd b + asks pd fd b) ∧
      e.maxfd ≤ e'.maxfd ∧ pd.fd ≤ e'.maxfd := by
  rw [addOne, index?_of_lt h, Option.map_some]
  refine ⟨_, rfl, ⟨fun fd b => ?_, fun fd b => ?_⟩, ?_, ?_⟩
  · by_cases hfd : fd = pd.fd.toNat
    · subst hfd
      rw [asks_toNat h.1, ← C.ref]
      dsimp only
      rw [Function.update_self]
      split <;> simp
    · dsimp only
      rw [asks_of_ne h.1 hfd, Function.update_of_ne hfd, C.ref, Int.add_zero]
  · by_cases hfd : fd = pd.fd.toNat
    · subst hfd
      rw [asks_toNat h.1]
      dsimp only
      rw [Function.update_self]
      have := hpos pd.fd.toNat b
      split
      · exact iff_of_true rfl (by omega)
      · rw [C.isset, Int.add_zero]
    · dsimp only
      rw [asks_of_ne h.1 hfd, Function.update_of_ne hfd, C.isset, Int.add_zero]
  · dsimp only
    split <;> omega
  · dsimp only
    split <;> omega

/-- **`_st_select_pollset_add`** counts all descriptors or none, and `maxfd` covers them. -/
theorem addLoop_spec (C : Counts e g) (hpos : ∀ fd b, 0 ≤ g fd b)
    (h : ∀ pd ∈ pds, 0 ≤ pd.fd ∧ pd.fd < fdSetsize) :
    ∃ e', addLoop pds e = some e' ∧ Counts e' (fun fd b => g fd b + want pds fd b) ∧
      e.maxfd ≤ e'.maxfd ∧ ∀ pd ∈ pds, pd.fd ≤ e'.maxfd := by
  induction pds generalizing e g with
  | nil =>
      refine ⟨e, rfl, ⟨fun fd b => ?_, fun fd b => ?_⟩, Int.le_refl _, fun _ h => by cases h⟩
      · exact (C.ref fd b).trans (Int.add_zero _).symm
      · exact (C.isset fd b).trans (by simp [want])
  | cons pd pds ih =>
      obtain ⟨e₁, h₁, C₁, hle₁, hfd₁⟩ := addOne_spec C hpos (h pd List.mem_cons_self)
      obtain ⟨e₂, h₂, C₂, hle₂, hfd₂⟩ := ih C₁
        (fun fd b => Int.add_nonneg (hpos fd b) (asks_nonneg pd fd b))
        (fun q hq => h q (List.mem_cons_of_mem _ hq))
      refine ⟨e₂, by rw [addLoop, h₁, Option.bind_some, h₂], ?_, Int.le_trans hle₁ hle₂,
        fun q hq => ?_⟩
      · refine ⟨fun fd b => ?_, fun fd b => ?_⟩
        · rw [C₂.ref, want_cons, Int.add_assoc]
        · rw [C₂.isset, want_cons, Int.add_assoc]
      · rcases List.mem_cons.mp hq with rfl | hq
        · exact Int.le_trans hfd₁ hle₂
        · exact hfd₂ q hq

/-- A descriptor is taken back. -/
theorem delOne_spec (C : Counts e g) (hle : ∀ fd b, asks pd fd b ≤ g fd b)
    (h : 0 ≤ pd.fd ∧ pd.fd < fdSetsize) :
    ∃ e', e.delOne pd = some e' ∧ Counts e' (fun fd b => g fd b + - asks pd fd b) ∧
      e'.maxfd = e.maxfd := by
  rw [delOne, index?_of_lt h, Option.map_some]
  refine ⟨_, rfl, ⟨fun fd b => ?_, fun fd b => ?_⟩, rfl⟩
  · by_cases hfd : fd = pd.fd.toNat
    · subst hfd
      rw [asks_toNat h.1, ← C.ref]
      dsimp only
      rw [Function.update_self]
      split <;> omega
    · dsimp only
      rw [asks_of_ne h.1 hfd, Function.update_of_ne hfd, C.ref, Int.neg_zero, Int.add_zero]
  · by_cases hfd : fd = pd.fd.toNat
    · subst hfd
      have hle := hle pd.fd.toNat b
      rw [asks_toNat h.1] at hle ⊢
      dsimp only
      rw [Function.update_self, C.ref]
      by_cases hb : b ∈ Mask.io ∧ b ∈ pd.events
      · rw [if_pos hb] at hle ⊢
        by_cases hz : g pd.fd.toNat b - 1 = 0
        · rw [if_pos ⟨hb, hz⟩]
          exact iff_of_false (by simp) fun hn => hn (by omega)
        · rw [if_neg fun h => hz h.2, C.isset]
          exact iff_of_true (by omega) (by omega)
      · rw [if_neg fun h => hb h.1, if_neg hb, C.isset, Int.neg_zero, Int.add_zero]
    · dsimp only
      rw [asks_of_ne h.1 hfd, Function.update_of_ne hfd, C.isset, Int.neg_zero, Int.add_zero]

/-- **`_st_select_pollset_del`** takes the descriptors back. -/
theorem pollsetDel_spec (C : Counts e g) (hle : ∀ fd b, want pds fd b ≤ g fd b)
    (h : ∀ pd ∈ pds, 0 ≤ pd.fd ∧ pd.fd < fdSetsize) :
    ∃ e', pollsetDel pds e = some e' ∧ Counts e' (fun fd b => g fd b + - want pds fd b) ∧
      e'.maxfd = e.maxfd := by
  induction pds generalizing e g with
  | nil =>
      refine ⟨e, rfl, ⟨fun fd b => ?_, fun fd b => ?_⟩, rfl⟩
      · exact (C.ref fd b).trans (Int.add_zero _).symm
      · exact (C.isset fd b).trans (by simp [want])
  | cons pd pds ih =>
      have hsum : ∀ fd b, asks pd fd b + want pds fd b ≤ g fd b := fun fd b =>
        want_cons ▸ hle fd b
      obtain ⟨e₁, h₁, C₁, hmax₁⟩ := delOne_spec C (fun fd b => by
        have := hsum fd b
        have := want_nonneg pds fd b
        omega) (h pd List.mem_cons_self)
      obtain ⟨e₂, h₂, C₂, hmax₂⟩ := ih C₁ (fun fd b => by
        have := hsum fd b
        omega) (fun q hq => h q (List.mem_cons_of_mem _ hq))
      refine ⟨e₂, by rw [pollsetDel, h₁, Option.bind_some, h₂], ⟨fun fd b => ?_, fun fd b => ?_⟩,
        hmax₂.trans hmax₁⟩
      · rw [C₂.ref, want_cons, Int.neg_add, Int.add_assoc]
      · rw [C₂.isset, want_cons, Int.neg_add, Int.add_assoc]

theorem le_pqMaxOsfd : top ≤ pqMaxOsfd pds top := by
  induction pds generalizing top with
  | nil => exact Int.le_refl top
  | cons pd pds ih =>
      refine Int.le_trans ?_ ih
      split <;> omega

theorem le_pqMaxOsfd_of_mem (h : pd ∈ pds) : pd.fd ≤ pqMaxOsfd pds top := by
  induction pds generalizing top with
  | nil => cases h
  | cons q pds ih =>
      rcases List.mem_cons.mp h with rfl | h
      · rw [pqMaxOsfd]
        refine Int.le_trans ?_ le_pqMaxOsfd
        split <;> omega
      · exact ih h

end Select

/-- What `select` leaves in the sets, without a bit also when it fails; or it fails with `EBADF`,
and `fcntl` fails for the descriptors in `closed`. -/
inductive Answer where
  | sets (out : Finset (Nat × Bit))
  | EBADF (closed : Finset Nat)
  deriving DecidableEq

namespace Answer

/-- The `revents` of a descriptor, in `_st_select_dispatch` or in `_st_select_find_bad_fd`, where
they are `POLLNVAL`. -/
def revents : Answer → Pollfd → Mask
  | sets out, pd => pd.events.filter fun b => b ∈ Mask.io ∧ 0 ≤ pd.fd ∧ (pd.fd.toNat, b) ∈ out
  | EBADF closed, pd =>
      if pd.events ≠ ∅ ∧ 0 ≤ pd.fd ∧ pd.fd.toNat ∈ closed then {.other} else ∅

/-- The descriptor counts for `pq_max_osfd`: `_st_select_find_bad_fd` passes over one without
events. -/
def counts : Answer → Pollfd → Bool
  | sets _, _ => true
  | EBADF _, pd => decide (pd.events ≠ ∅)

/-- The answer hits the descriptor: an event it asks for is left in the sets, or it is closed. -/
def Hits : Answer → Pollfd → Prop
  | sets out, pd => ∃ x ∈ out, pd.fd = x.1 ∧ x.2 ∈ pd.events
  | EBADF closed, pd => ∃ fd ∈ closed, pd.fd = fd

instance : (a : Answer) → (pd : Pollfd) → Decidable (a.Hits pd)
  | sets out, pd => inferInstanceAs (Decidable (∃ x ∈ out, pd.fd = x.1 ∧ x.2 ∈ pd.events))
  | EBADF closed, pd => inferInstanceAs (Decidable (∃ fd ∈ closed, pd.fd = fd))

/-- **There are events to return for a descriptor exactly when it is hit.** -/
theorem revents_ne_iff_hits {a : Answer} {pd : Pollfd} (hv : Select.Valid pd) :
    a.revents pd ≠ ∅ ↔ a.Hits pd := by
  have hfd : ∀ fd : Nat, pd.fd = fd ↔ pd.fd.toNat = fd := fun fd => by
    have := hv.fd.1
    omega
  cases a with
  | sets out =>
      rw [revents, Hits, ← Finset.nonempty_iff_ne_empty]
      constructor
      · rintro ⟨b, hb⟩
        obtain ⟨hb, -, -, hout⟩ := Finset.mem_filter.mp hb
        exact ⟨_, hout, (hfd _).mpr rfl, hb⟩
      · rintro ⟨⟨fd, b⟩, hout, he, hb⟩
        refine ⟨b, Finset.mem_filter.mpr ⟨hb, hv.io hb, hv.fd.1, ?_⟩⟩
        rwa [(hfd fd).mp he]
  | EBADF closed =>
      have hiff : (pd.events ≠ ∅ ∧ 0 ≤ pd.fd ∧ pd.fd.toNat ∈ closed) ↔
          ∃ fd ∈ closed, pd.fd = fd := by
        constructor
        · rintro ⟨-, -, hmem⟩
          exact ⟨_, hmem, (hfd _).mpr rfl⟩
        · rintro ⟨fd, hmem, he⟩
          exact ⟨hv.some, hv.fd.1, (hfd fd).mp he ▸ hmem⟩
      rw [revents, Hits, ← hiff]
      split
      next h => exact iff_of_true (Finset.singleton_ne_empty _) h
      next h => exact iff_of_false (fun hn => hn rfl) h

end Answer

/-- The scheduler, the event system, and the requests of the threads in `st_poll`. -/
structure SelectProc where
  vp : Vp
  ep : Select
  pds : Tid → List Pollfd

/-- The running thread makes a call, goes on behind a switch, or the idle thread makes a round. -/
inductive SelectMove where
  | call (c : Call)
  | poll (pds : List Pollfd) (timeout : Nat)
  | resume
  | idle (answer : Answer) (now : Nat)

namespace SelectProc

/-- A round of the loop over the io queue of `_st_select_dispatch` and of `_st_select_find_bad_fd`,
and the rounds after it. -/
def scan (a : Answer) : List Tid → SelectProc → Option SelectProc
  | [], p => some p
  | t :: q, p =>
      let pds := (p.pds t).map fun pd => { pd with revents := a.revents pd }
      let p := { p with pds := Function.update p.pds t pds }
      if ∃ pd ∈ pds, pd.revents ≠ ∅ then
        (Select.pollsetDel pds p.ep).bind fun e =>
          (({ p.vp with ioq := p.vp.ioq.erase t } : Vp).delIfSleeping t).bind fun s =>
            scan a q { p with vp := s.makeRunnable t, ep := e }
      else
        let top := Select.pqMaxOsfd (pds.filter a.counts) (-1)
        scan a q { p with
          ep := { p.ep with maxfd := if p.ep.maxfd < top then top else p.ep.maxfd } }

/-- `_st_select_dispatch`. -/
def dispatch (p : SelectProc) (a : Answer) : Option SelectProc :=
  if a = .sets ∅ then some p
  else scan a p.vp.ioq { p with ep := { p.ep with maxfd := -1 } }

/-- Which step can be taken; `st_poll` has a label of its own. -/
def Enabled (p : SelectProc) : SelectMove → Prop
  | .call c => p.vp.Enabled (.call c) ∧ ¬ (Pc.inside c).Polls
  | .poll _ _ => (p.vp.thread p.vp.current).pc = .user
  | .resume => p.vp.Enabled .resume
  | .idle _ now => p.vp.Enabled (.idle [] now)

instance (p : SelectProc) : (m : SelectMove) → Decidable (p.Enabled m)
  | .call _ => inferInstanceAs (Decidable (_ ∧ _))
  | .poll _ _ => inferInstanceAs (Decidable (_ = _))
  | .resume => inferInstanceAs (Decidable (p.vp.Enabled .resume))
  | .idle _ now => inferInstanceAs (Decidable (p.vp.Enabled (.idle [] now)))

/-- `st_poll` up to its switch. -/
def poll (p : SelectProc) (pds : List Pollfd) (timeout : Nat) : Option SelectProc :=
  if (p.vp.thread p.vp.current).interrupt then
    (p.vp.step (.call (.poll true timeout))).map fun s => { p with vp := s }
  else
    (p.ep.pollsetAdd pds).bind fun r =>
      (p.vp.step (.call (.poll (decide (r.2 = none)) timeout))).map fun s =>
        ⟨s, r.1, Function.update p.pds p.vp.current pds⟩

/-- A thread from a switch on: in `st_poll` it takes its requests back if it is still on the io
queue. -/
def resume (p : SelectProc) : Option SelectProc :=
  if (p.vp.thread p.vp.current).pc.Polls ∧ p.vp.current ∈ p.vp.ioq then
    (Select.pollsetDel (p.pds p.vp.current) p.ep).bind fun e =>
      (p.vp.step .resume).map fun s => { p with vp := s, ep := e }
  else (p.vp.step .resume).map fun s => { p with vp := s }

/-- A round of `_st_idle_thread_start`. -/
def idle (p : SelectProc) (a : Answer) (now : Nat) : Option SelectProc :=
  (p.dispatch a).bind fun p =>
    (p.vp.checkClock now).map fun s =>
      { p with vp := (s.setState s.current .runnable).switch .idle }

def act (p : SelectProc) : SelectMove → Option SelectProc
  | .call c => (p.vp.step (.call c)).map fun s => { p with vp := s }
  | .poll pds timeout => p.poll pds timeout
  | .resume => p.resume
  | .idle a now => p.idle a now

def step (p : SelectProc) (m : SelectMove) : Option SelectProc :=
  if p.Enabled m then p.act m else none

/-- What `st_poll` returns behind its switch, when it is not interrupted. -/
def polled (p : SelectProc) (t : Tid) : Nat :=
  if t ∈ p.vp.ioq then 0 else (p.pds t).countP fun pd => pd.revents ≠ ∅

/-- After `st_init`. -/
def init (clock : Nat) : SelectProc := ⟨Vp.init clock, Select.init, fun _ => []⟩

/-- The threads of the io queue with a descriptor that has events to return. -/
def ready (p : SelectProc) (a : Answer) : List Tid :=
  p.vp.ioq.filter fun t => ∃ pd ∈ p.pds t, a.revents pd ≠ ∅

/-- The step of the scheduler. -/
def view (p : SelectProc) : SelectMove → Label
  | .call c => .call c
  | .poll pds timeout =>
      .call (.poll (decide ((p.vp.thread p.vp.current).interrupt = true ∨
        ∀ pd ∈ pds, Select.Valid pd)) timeout)
  | .resume => .resume
  | .idle a now => .idle (p.ready a) now

/-! ### What the steps keep -/

open Epoll (want)
open Proc (load load_concat load_nonneg load_erase load_congr want_le_load)
open Select (Counts Valid)

variable {p p' : SelectProc} {t : Tid} {q : List Tid} {pds : Tid → List Pollfd} {fd : Nat} {b : Bit}
  {a : Answer} {m : SelectMove}

/-- **The counts are the requests of the threads on the io queue**, and so are the sets. -/
structure Requested (p : SelectProc) : Prop where
  counts : Counts p.ep (load p.vp.ioq p.pds)
  valid : ∀ t ∈ p.vp.ioq, ∀ pd ∈ p.pds t, Valid pd

/-- The requests of the thread are below `maxfd`. -/
def Covered (p : SelectProc) (t : Tid) : Prop := ∀ pd ∈ p.pds t, pd.fd ≤ p.ep.maxfd

/-- The requests with what is returned for them. -/
def answered (a : Answer) (pds : List Pollfd) : List Pollfd :=
  pds.map fun pd => { pd with revents := a.revents pd }

theorem want_answered (ps : List Pollfd) : want (answered a ps) fd b = want ps fd b := by
  rw [want, answered, List.map_map]
  rfl

theorem valid_answered {ps : List Pollfd} (hv : ∀ pd ∈ ps, Valid pd) :
    ∀ pd ∈ answered a ps, Valid pd := fun pd hpd => by
  obtain ⟨pd, hm, rfl⟩ := List.mem_map.mp hpd
  have := hv pd hm
  exact ⟨this.fd, this.some, this.io⟩

theorem notifies_iff {ps : List Pollfd} :
    (∃ pd ∈ answered a ps, pd.revents ≠ ∅) ↔ ∃ pd ∈ ps, a.revents pd ≠ ∅ := by
  simp [answered]

/-- A descriptor with events counts for `maxfd`. -/
theorem counts_of_valid {pd : Pollfd} (hv : Valid pd) : a.counts pd = true := by
  cases a with
  | sets => rfl
  | EBADF => exact decide_eq_true hv.some

/-- Other requests have the same counts. -/
theorem Requested.congr (R : Requested p) {s : Vp} (hs : s.ioq = p.vp.ioq)
    (hw : ∀ t ∈ p.vp.ioq, ∀ fd b, want (pds t) fd b = want (p.pds t) fd b)
    (hv : ∀ t ∈ p.vp.ioq, ∀ pd ∈ pds t, Valid pd) {e : Select} (href : e.ref = p.ep.ref)
    (hset : e.isset = p.ep.isset) : Requested ⟨s, e, pds⟩ := by
  have hload : ∀ fd b, load s.ioq pds fd b = load p.vp.ioq p.pds fd b := fun fd b => by
    rw [hs]
    exact load_congr fun t ht => hw t ht fd b
  refine ⟨⟨fun fd b => ?_, fun fd b => ?_⟩, fun t ht => hv t (hs ▸ ht)⟩
  · exact (congrFun (congrFun href fd) b).trans ((R.counts.ref fd b).trans (hload fd b).symm)
  · show e.isset fd b = true ↔ load s.ioq pds fd b ≠ 0
    rw [hset, hload, R.counts.isset]

/-- The requests of a thread that leaves the io queue are taken back. -/
theorem Requested.leaves (R : Requested p) (ht : t ∈ p.vp.ioq) (hn : p.vp.ioq.Nodup)
    {ps : List Pollfd} (hv : ∀ pd ∈ ps, Valid pd)
    (hw : ∀ fd b, want ps fd b = want (p.pds t) fd b) {s : Vp} (hs : s.ioq = p.vp.ioq.erase t)
    (hpds : ∀ u, u ≠ t → pds u = p.pds u) :
    ∃ e, Select.pollsetDel ps p.ep = some e ∧ Requested ⟨s, e, pds⟩ ∧ e.maxfd = p.ep.maxfd := by
  obtain ⟨e, he, C, hmax⟩ := Select.pollsetDel_spec R.counts
    (fun fd b => by
      rw [hw]
      exact want_le_load ht) fun pd hpd => (hv pd hpd).fd
  have hne : ∀ u ∈ p.vp.ioq.erase t, u ≠ t := fun u hu e => hn.not_mem_erase (e ▸ hu)
  have hload : ∀ fd b, load p.vp.ioq p.pds fd b + - want ps fd b = load s.ioq pds fd b :=
    fun fd b => by
      rw [hw, ← load_erase ht, hs]
      exact load_congr fun u hu => by rw [hpds u (hne u hu)]
  refine ⟨e, he, ⟨⟨fun fd b => ?_, fun fd b => ?_⟩, fun u hu => ?_⟩, hmax⟩
  · exact (C.ref fd b).trans (hload fd b)
  · show e.isset fd b = true ↔ load s.ioq pds fd b ≠ 0
    rw [C.isset, hload]
  · have hu' : u ∈ p.vp.ioq.erase t := hs ▸ hu
    show ∀ pd ∈ pds u, Valid pd
    rw [hpds u (hne u hu')]
    exact R.valid u (List.mem_of_mem_erase hu')

/-- **The loop over the io queue** is that of the scheduler, where those threads are ready that have
events to return, and `maxfd` covers the others. -/
theorem scan_spec {ready : List Tid} {s : Vp} (R : Requested p) (hq : q.Nodup)
    (hio : ∀ t ∈ q, t ∈ p.vp.ioq) (hn : p.vp.ioq.Nodup)
    (hr : ∀ t ∈ q, t ∈ ready ↔ ∃ pd ∈ p.pds t, a.revents pd ≠ ∅)
    (hs : Vp.dispatchLoop ready q p.vp = some s) :
    ∃ p', scan a q p = some p' ∧ p'.vp = s ∧ Requested p' ∧ p.ep.maxfd ≤ p'.ep.maxfd ∧
      (∀ t, t ∉ q → p'.pds t = p.pds t) ∧
      (∀ t ∈ q, p'.pds t = answered a (p.pds t)) ∧ ∀ t ∈ q, t ∉ ready → Covered p' t := by
  induction q generalizing p with
  | nil =>
      cases hs
      exact ⟨p, rfl, rfl, R, Int.le_refl _, fun _ _ => rfl,
        fun _ h => absurd h List.not_mem_nil, fun _ h => absurd h List.not_mem_nil⟩
  | cons t q ih =>
      obtain ⟨htq, hq⟩ := List.nodup_cons.mp hq
      have ht : t ∈ p.vp.ioq := hio t List.mem_cons_self
      have hne : ∀ u ∈ q, u ≠ t := fun u hu e => htq (e ▸ hu)
      have hpds : ∀ u, u ≠ t →
          Function.update p.pds t (answered a (p.pds t)) u = p.pds u := fun u hu =>
        Function.update_of_ne hu _ _
      have hself : Function.update p.pds t (answered a (p.pds t)) t = answered a (p.pds t) :=
        Function.update_self _ _ _
      have hv := valid_answered (a := a) (R.valid t ht)
      have hnotify : (∃ pd ∈ answered a (p.pds t), pd.revents ≠ ∅) ↔ t ∈ ready :=
        notifies_iff.trans (hr t List.mem_cons_self).symm
      have hr' : ∀ u ∈ q, u ∈ ready ↔
          ∃ pd ∈ Function.update p.pds t (answered a (p.pds t)) u, a.revents pd ≠ ∅ :=
        fun u hu => by
          rw [hpds u (hne u hu)]
          exact hr u (List.mem_cons_of_mem _ hu)
      rw [Vp.dispatchLoop] at hs
      by_cases hmem : t ∈ ready
      · rw [if_pos hmem] at hs
        obtain ⟨s₁, hs₁, hs⟩ := Option.bind_eq_some_iff.mp hs
        have hioq : (s₁.makeRunnable t).ioq = p.vp.ioq.erase t := Vp.delIfSleeping_ioq hs₁
        obtain ⟨e, he, R₁, hmax⟩ := R.leaves ht hn hv (fun _ _ => want_answered _) hioq hpds
        obtain ⟨p', hp, hvp, R', hle, hout, hin, htop⟩ := ih R₁ hq
          (fun u hu => by
            rw [hioq]
            exact (List.mem_erase_of_ne (hne u hu)).mpr (hio u (List.mem_cons_of_mem _ hu)))
          (by rw [hioq]; exact hn.erase t) hr' hs
        refine ⟨p', ?_, hvp, R', hmax ▸ hle, fun u hu => ?_, fun u hu => ?_, fun u hu hnot => ?_⟩
        · refine (if_pos (hnotify.mpr hmem)).trans ?_
          show (Select.pollsetDel (answered a (p.pds t)) p.ep).bind _ = _
          rw [he, Option.bind_some, hs₁, Option.bind_some]
          exact hp
        · obtain ⟨hut, hu⟩ := not_or.mp fun h => hu (List.mem_cons.mpr h)
          exact (hout u hu).trans (hpds u hut)
        · rcases List.mem_cons.mp hu with rfl | hu
          · exact (hout u htq).trans hself
          · exact (hin u hu).trans (congrArg (answered a) (hpds u (hne u hu)))
        · rcases List.mem_cons.mp hu with rfl | hu
          · exact absurd hmem hnot
          · exact htop u hu hnot
      · rw [if_neg hmem] at hs
        obtain ⟨top, htop⟩ :
          ∃ top, Select.pqMaxOsfd ((answered a (p.pds t)).filter a.counts) (-1) = top := ⟨_, rfl⟩
        have R₁ : Requested ⟨p.vp, { p.ep with
            maxfd := if p.ep.maxfd < top then top else p.ep.maxfd },
            Function.update p.pds t (answered a (p.pds t))⟩ := by
          refine R.congr rfl (fun u _ fd b => ?_) (fun u hu => ?_) rfl rfl
          · by_cases hut : u = t
            · rw [hut, hself, want_answered]
            · rw [hpds u hut]
          · by_cases hut : u = t
            · rw [hut, hself]
              exact hv
            · rw [hpds u hut]
              exact R.valid u hu
        obtain ⟨p', hp, hvp, R', hle, hout, hin, hcov⟩ := ih R₁ hq
          (fun u hu => hio u (List.mem_cons_of_mem _ hu)) hn hr' hs
        have hmax : p.ep.maxfd ≤ p'.ep.maxfd ∧ top ≤ p'.ep.maxfd := by
          dsimp only at hle
          split at hle <;> omega
        refine ⟨p', ?_, hvp, R', hmax.1, fun u hu => ?_, fun u hu => ?_, fun u hu hnot => ?_⟩
        · refine (if_neg fun h => hmem (hnotify.mp h)).trans ?_
          rw [← htop] at hp
          exact hp
        · obtain ⟨hut, hu⟩ := not_or.mp fun h => hu (List.mem_cons.mpr h)
          exact (hout u hu).trans (hpds u hut)
        · rcases List.mem_cons.mp hu with rfl | hu
          · exact (hout u htq).trans hself
          · exact (hin u hu).trans (congrArg (answered a) (hpds u (hne u hu)))
        · rcases List.mem_cons.mp hu with rfl | hu
          · intro pd hpd
            rw [(hout u htq).trans hself] at hpd
            refine Int.le_trans ?_ hmax.2
            rw [← htop]
            exact Select.le_pqMaxOsfd_of_mem
              (List.mem_filter.mpr ⟨hpd, counts_of_valid (hv pd hpd)⟩)
          · exact hcov u hu hnot

/-- **What every step keeps**: besides the requests, that `maxfd` covers them, and that a thread
that is taken off the io queue has events to return. -/
structure Synced (p : SelectProc) : Prop extends Requested p where
  covered : ∀ t ∈ p.vp.ioq, Covered p t
  ready : ∀ t, (p.vp.thread t).pc.Polls → t ∉ p.vp.ioq → ∃ pd ∈ p.pds t, pd.revents ≠ ∅

/-- **`_st_select_dispatch`** is the loop of the scheduler for the threads that are ready. -/
theorem dispatch_spec {s : Vp} (R : Requested p) (hcov : ∀ t ∈ p.vp.ioq, Covered p t)
    (hn : p.vp.ioq.Nodup) (hs : Vp.dispatchLoop (p.ready a) p.vp.ioq p.vp = some s) :
    ∃ p', p.dispatch a = some p' ∧ p'.vp = s ∧ Requested p' ∧
      (∀ t, t ∉ p.vp.ioq → p'.pds t = p.pds t) ∧
      (∀ t ∈ p.ready a, p'.pds t = answered a (p.pds t)) ∧
      ∀ t ∈ p.vp.ioq, t ∉ p.ready a → Covered p' t := by
  by_cases ha : a = .sets ∅
  · subst ha
    have hnone : p.ready (.sets ∅) = [] := by simp [ready, Answer.revents]
    rw [hnone] at hs ⊢
    rw [Vp.dispatchLoop_none] at hs
    cases hs
    exact ⟨p, if_pos rfl, rfl, R, fun _ _ => rfl, fun _ h => absurd h List.not_mem_nil,
      fun t ht _ => hcov t ht⟩
  · have R₁ : Requested { p with ep := { p.ep with maxfd := -1 } } :=
      R.congr rfl (fun _ _ _ _ => rfl) R.valid rfl rfl
    obtain ⟨p', hp, hvp, R', -, hout, hin, htop⟩ := scan_spec R₁ hn (fun _ h => h) hn
      (fun t ht => by
        rw [ready, List.mem_filter, decide_eq_true_iff]
        exact and_iff_right ht) hs
    exact ⟨p', (if_neg ha).trans hp, hvp, R', hout, fun t ht => hin t (List.mem_of_mem_filter ht),
      htop⟩

/-- A step of the scheduler that leaves the io queue as it is. -/
theorem Synced.of_vp {s : Vp} {l : Label} (S : Synced p) (V : p.vp.Inv)
    (hs : Vp.step p.vp l = some s) (hio : s.ioq = p.vp.ioq) : Synced { p with vp := s } := by
  obtain ⟨he, T⟩ := V.turn hs
  refine ⟨S.toRequested.congr hio (fun _ _ _ _ => rfl) S.valid rfl rfl, fun t ht => ?_,
    fun t hp ht => ?_⟩
  · exact S.covered t (hio ▸ ht)
  · rcases T.polls V (V.step hs) he hp with ⟨hp', -⟩ | ⟨-, hmem⟩
    · exact S.ready t hp' (hio ▸ ht)
    · exact absurd hmem ht

/-- A step of the scheduler in which `st_poll` is refused, or interrupted. -/
theorem Synced.refused {s : Vp} {l : Label} {ps : List Pollfd} (S : Synced p) (V : p.vp.Inv)
    (hcur : p.vp.current ∉ p.vp.ioq) (hs : Vp.step p.vp l = some s) (hio : s.ioq = p.vp.ioq) :
    Synced ⟨s, p.ep, Function.update p.pds p.vp.current ps⟩ := by
  obtain ⟨he, T⟩ := V.turn hs
  have hpds : ∀ t, t ≠ p.vp.current →
      Function.update p.pds p.vp.current ps t = p.pds t := fun t ht => Function.update_of_ne ht _ _
  have hne : ∀ t ∈ p.vp.ioq, t ≠ p.vp.current := fun t ht e => hcur (e ▸ ht)
  refine ⟨S.toRequested.congr hio (fun t ht fd b => ?_) (fun t ht => ?_) rfl rfl,
    fun t ht pd hpd => ?_, fun t hp ht => ?_⟩
  · rw [hpds t (hne t ht)]
  · rw [hpds t (hne t ht)]
    exact S.valid t ht
  · have ht' : t ∈ p.vp.ioq := hio ▸ ht
    exact S.covered t ht' pd (hpds t (hne t ht') ▸ hpd)
  · rcases T.polls V (V.step hs) he hp with ⟨hp', hne⟩ | ⟨-, hmem⟩
    · show ∃ pd ∈ Function.update p.pds p.vp.current ps t, pd.revents ≠ ∅
      rw [hpds t hne]
      exact S.ready t hp' (hio ▸ ht)
    · exact absurd hmem ht

/-- A step of the scheduler in which `st_poll` has made its requests and waits. -/
theorem Synced.added {s : Vp} {ps : List Pollfd} {timeout : Nat} {e : Select} (S : Synced p)
    (V : p.vp.Inv) (hcur : p.vp.current ∉ p.vp.ioq)
    (hi : (p.vp.thread p.vp.current).interrupt = false)
    (hs : Vp.step p.vp (.call (.poll true timeout)) = some s)
    (C : Counts e fun fd b => load p.vp.ioq p.pds fd b + want ps fd b)
    (hle : p.ep.maxfd ≤ e.maxfd) (hv : ∀ pd ∈ ps, Valid pd) (hfd : ∀ pd ∈ ps, pd.fd ≤ e.maxfd) :
    Synced ⟨s, e, Function.update p.pds p.vp.current ps⟩ := by
  obtain ⟨he, T⟩ := V.turn hs
  have hio : s.ioq = p.vp.ioq ++ [p.vp.current] := by
    rw [T.ioq V.queued, Vp.ioqAfter, if_pos ⟨hi, rfl⟩]
  have hpds : ∀ t, t ≠ p.vp.current →
      Function.update p.pds p.vp.current ps t = p.pds t := fun t ht => Function.update_of_ne ht _ _
  have hself : Function.update p.pds p.vp.current ps p.vp.current = ps :=
    Function.update_self _ _ _
  have hload : ∀ fd b, load p.vp.ioq p.pds fd b + want ps fd b =
      load s.ioq (Function.update p.pds p.vp.current ps) fd b := fun fd b => by
    rw [hio, load_concat, hself]
    congr 1
    exact load_congr fun t ht => by rw [hpds t fun e => hcur (e ▸ ht)]
  -- a thread on the io queue is the caller, or was there before
  have hall : ∀ {P : Pollfd → Prop}, (∀ t ∈ p.vp.ioq, ∀ pd ∈ p.pds t, P pd) →
      (∀ pd ∈ ps, P pd) → ∀ t ∈ s.ioq,
        ∀ pd ∈ Function.update p.pds p.vp.current ps t, P pd := fun hold hnew t ht => by
    rw [hio] at ht
    rcases List.mem_append.mp ht with h | h
    · rw [hpds t fun e => hcur (e ▸ h)]
      exact hold t h
    · rw [List.mem_singleton.mp h, hself]
      exact hnew
  refine ⟨⟨⟨fun fd b => ?_, fun fd b => ?_⟩, hall S.valid hv⟩, ?_, fun t hp ht => ?_⟩
  · exact (C.ref fd b).trans (hload fd b)
  · show e.isset fd b = true ↔ _
    rw [C.isset, hload]
  · exact hall (fun t ht pd hpd => Int.le_trans (S.covered t ht pd hpd) hle) hfd
  · change t ∉ s.ioq at ht
    rcases T.polls V (V.step hs) he hp with ⟨hp', hne⟩ | ⟨-, hmem⟩
    · show ∃ pd ∈ Function.update p.pds p.vp.current ps t, pd.revents ≠ ∅
      rw [hpds t hne]
      exact S.ready t hp' fun h => ht (hio ▸ List.mem_append_left _ h)
    · exact absurd hmem ht

/-- **`st_poll`** makes its requests, or is refused. -/
theorem poll_spec (V : p.vp.Inv) (S : Synced p) (ps : List Pollfd) (timeout : Nat)
    (hme : (p.vp.thread p.vp.current).pc = .user) :
    ∃ p', p.poll ps timeout = some p' ∧
      Vp.step p.vp (p.view (.poll ps timeout)) = some p'.vp ∧ Synced p' := by
  have hcur : p.vp.current ∉ p.vp.ioq := fun h => by
    have hp := V.queued.ioq _ h
    rw [hme] at hp
    exact hp
  by_cases hi : (p.vp.thread p.vp.current).interrupt = true
  · obtain ⟨s, hs⟩ := V.total (l := .call (.poll true timeout)) ⟨hme, trivial⟩
    have hio : s.ioq = p.vp.ioq := by
      rw [(V.turn hs).2.ioq V.queued, Vp.ioqAfter, if_neg (by simp [hi])]
    refine ⟨{ p with vp := s }, by rw [poll, if_pos hi, hs, Option.map_some], ?_, S.of_vp V hs hio⟩
    rw [view, decide_eq_true (.inl hi), hs]
  · by_cases hv : ∀ pd ∈ ps, Valid pd
    · obtain ⟨e, he, C, hle, hfd⟩ := Select.addLoop_spec S.counts (fun fd b => load_nonneg _ _ fd b)
        fun pd hpd => (hv pd hpd).fd
      obtain ⟨s, hs⟩ := V.total (l := .call (.poll true timeout)) ⟨hme, trivial⟩
      refine ⟨⟨s, e, Function.update p.pds p.vp.current ps⟩, ?_, ?_,
        S.added V hcur (Bool.eq_false_of_not_eq_true hi) hs C hle hv hfd⟩
      · rw [poll, if_neg hi, Select.pollsetAdd, if_pos hv, he]
        simp [hs]
      · rw [view, decide_eq_true (.inr hv), hs]
    · obtain ⟨s, hs⟩ := V.total (l := .call (.poll false timeout)) ⟨hme, trivial⟩
      have hio : s.ioq = p.vp.ioq := by
        rw [(V.turn hs).2.ioq V.queued, Vp.ioqAfter, if_neg (by simp)]
      refine ⟨⟨s, p.ep, Function.update p.pds p.vp.current ps⟩, ?_, ?_,
        S.refused V hcur hs hio⟩
      · rw [poll, if_neg hi, Select.pollsetAdd, if_neg hv]
        simp [hs]
      · rw [view, decide_eq_false (by simp [hi, hv]), hs]

/-- **Behind its switch** `st_poll` takes its requests back. -/
theorem resume_spec (V : p.vp.Inv) (S : Synced p) (he : p.vp.Enabled .resume) :
    ∃ p', p.resume = some p' ∧ Vp.step p.vp .resume = some p'.vp ∧ Synced p' := by
  obtain ⟨s, hs⟩ := V.total he
  have hio : s.ioq = p.vp.ioq.erase p.vp.current := (V.turn hs).2.ioq V.queued
  by_cases hpoll : (p.vp.thread p.vp.current).pc.Polls ∧ p.vp.current ∈ p.vp.ioq
  · obtain ⟨e, hdel, R, hmax⟩ := S.toRequested.leaves hpoll.2 V.queued.ioqNodup
      (S.valid _ hpoll.2) (fun _ _ => rfl) hio fun _ _ => rfl
    refine ⟨⟨s, e, p.pds⟩, ?_, hs, R, fun t ht pd hpd => ?_, fun t hp ht => ?_⟩
    · rw [resume, if_pos hpoll, hdel, Option.bind_some, hs, Option.map_some]
    · show pd.fd ≤ e.maxfd
      rw [hmax]
      exact S.covered t (List.mem_of_mem_erase (hio ▸ ht)) pd hpd
    · rcases (V.turn hs).2.polls V (V.step hs) he hp with ⟨hp', hne⟩ | ⟨-, hmem⟩
      · refine S.ready t hp' fun h => ht ?_
        show t ∈ s.ioq
        rw [hio]
        exact (List.mem_erase_of_ne hne).mpr h
      · exact absurd hmem ht
  · have hcur : p.vp.current ∉ p.vp.ioq := fun h => hpoll ⟨V.queued.ioq _ h, h⟩
    rw [List.erase_of_not_mem hcur] at hio
    exact ⟨{ p with vp := s }, by rw [resume, if_neg hpoll, hs, Option.map_some], hs,
      S.of_vp V hs hio⟩

/-- **A round of the idle thread** wakes the threads with events to return. -/
theorem idle_spec (V : p.vp.Inv) (S : Synced p) {now : Nat} (he : p.vp.Enabled (.idle [] now)) :
    ∃ p', p.idle a now = some p' ∧ Vp.step p.vp (.idle (p.ready a) now) = some p'.vp ∧
      Synced p' ∧ ∀ t ∈ p.ready a, p'.pds t = answered a (p.pds t) := by
  have hen : p.vp.Enabled (.idle (p.ready a) now) := he
  obtain ⟨s', hs'⟩ := V.total hen
  have hio : s'.ioq = p.vp.ioq.filter (· ∉ p.ready a) := (V.turn hs').2.ioq V.queued
  have hround : p.vp.idleRound (p.ready a) now = some s' := by
    have h := hs'
    rw [Vp.step, if_pos hen, Vp.act, Option.map_map] at h
    obtain ⟨s₁, hs₁, rfl⟩ := Option.map_eq_some_iff.mp h
    exact hs₁
  obtain ⟨s₁, hs₁, hround⟩ := Option.bind_eq_some_iff.mp hround
  obtain ⟨s₂, hs₂, rfl⟩ := Option.map_eq_some_iff.mp hround
  obtain ⟨p₁, hp₁, rfl, R, hout, hin, hcov⟩ :=
    dispatch_spec S.toRequested S.covered V.queued.ioqNodup hs₁
  have hioq : ((s₂.setState s₂.current .runnable).switch .idle).ioq = p₁.vp.ioq := by
    rw [← Vp.checkClock_ioq hs₂]
    exact Vp.schedule_ioq
  refine ⟨{ p₁ with vp := (s₂.setState s₂.current .runnable).switch .idle }, ?_, hs',
    ⟨R.congr hioq (fun _ _ _ _ => rfl) R.valid rfl rfl, fun t ht => ?_, fun t hp ht => ?_⟩, hin⟩
  · rw [idle, hp₁, Option.bind_some, hs₂, Option.map_some]
  · change t ∈ ((s₂.setState s₂.current .runnable).switch .idle).ioq at ht
    rw [hio] at ht
    obtain ⟨hmem, hnot⟩ := List.mem_filter.mp ht
    exact hcov t hmem (of_decide_eq_true hnot)
  · change t ∉ ((s₂.setState s₂.current .runnable).switch .idle).ioq at ht
    show ∃ pd ∈ p₁.pds t, pd.revents ≠ ∅
    rcases (V.turn hs').2.polls V (V.step hs') hen hp with ⟨hp', -⟩ | ⟨-, hmem⟩
    · by_cases hmem : t ∈ p.vp.ioq
      · have hr : t ∈ p.ready a := not_not.mp fun h => ht (by
          rw [hio]
          exact List.mem_filter.mpr ⟨hmem, decide_eq_true h⟩)
        rw [hin t hr]
        exact notifies_iff.mpr (of_decide_eq_true (List.mem_filter.mp hr).2)
      · rw [hout t hmem]
        exact S.ready t hp' hmem
    · exact absurd hmem ht

/-- **Every enabled step can be taken**, is one of the scheduler, and keeps the invariant. -/
theorem act_spec (V : p.vp.Inv) (S : Synced p) (he : p.Enabled m) :
    ∃ p', p.act m = some p' ∧ Vp.step p.vp (p.view m) = some p'.vp ∧ Synced p' := by
  cases m with
  | call c =>
      obtain ⟨s, hs⟩ := V.total he.1
      have hio : s.ioq = p.vp.ioq :=
        ((V.turn hs).2.ioq V.queued).trans (Vp.ioqAfter_call he.2)
      exact ⟨{ p with vp := s }, by rw [act, hs, Option.map_some], hs, S.of_vp V hs hio⟩
  | poll ps timeout => exact poll_spec V S ps timeout he
  | resume => exact resume_spec V S he
  | idle a now =>
      obtain ⟨p', hact, hvp, S', -⟩ := idle_spec (a := a) V S he
      exact ⟨p', hact, hvp, S'⟩

/-! ### Over runs -/

variable {clock : Nat} {ms : List SelectMove}

theorem synced_init (clock : Nat) : Synced (init clock) := by
  refine ⟨⟨⟨fun _ _ => rfl, fun fd b => ?_⟩, fun t ht => absurd ht List.not_mem_nil⟩,
    fun t ht => absurd ht List.not_mem_nil, fun t hp => ?_⟩
  · exact iff_of_false (by simp [init, Select.init]) fun h => h rfl
  · rcases Vp.init_cases clock t with ⟨-, h⟩ | ⟨-, h⟩ | ⟨-, h⟩
    all_goals
      change ((Vp.init clock).thread t).pc.Polls at hp
      rw [h] at hp
      exact hp.elim

/-- **A step** is enabled, one of the scheduler, and keeps the invariant. -/
theorem step_spec (V : p.vp.Inv) (S : Synced p) (hs : p.step m = some p') :
    p.Enabled m ∧ Vp.step p.vp (p.view m) = some p'.vp ∧ p'.vp.Inv ∧ Synced p' := by
  have he : p.Enabled m := by
    by_contra hn
    rw [step, if_neg hn] at hs
    cases hs
  obtain ⟨p₁, hact, hvp, S'⟩ := act_spec V S he
  have hp : p₁ = p' := by
    rw [step, if_pos he, hact] at hs
    exact Option.some.inj hs
  subst hp
  exact ⟨he, hvp, V.step hvp, S'⟩

theorem synced_of_exec (h : exec step (init clock) ms = some p) :
    (p.vp.Inv ∧ Synced p) ∧ ∃ ls, exec Vp.step (Vp.init clock) ls = some p.vp := by
  refine exec_ind (P := fun _ p => (p.vp.Inv ∧ Synced p) ∧
    ∃ ls, exec Vp.step (Vp.init clock) ls = some p.vp)
    ⟨⟨Vp.Inv.init clock, synced_init clock⟩, [], rfl⟩ ?_ h
  rintro ms p m p' - ⟨⟨V, S⟩, ls, hls⟩ hs
  obtain ⟨-, hvp, V', S'⟩ := step_spec V S hs
  exact ⟨⟨V', S'⟩, ls ++ [p.view m], exec_snoc.mpr ⟨p.vp, hls, hvp⟩⟩

/-- The state after the run `ms` from the clock 0. -/
def after (ms : List SelectMove) : SelectProc := (exec step (init 0) ms).getD (init 0)

theorem exec_after (h : (exec step (init 0) ms).isSome = true) :
    exec step (init 0) ms = some (after ms) := by
  obtain ⟨p, hp⟩ := Option.isSome_iff_exists.mp h
  rw [after, hp]
  rfl

theorem step_after (h : (exec step (init 0) (ms ++ [m])).isSome = true) :
    step (after ms) m = some (after (ms ++ [m])) := by
  obtain ⟨p, hp, hs⟩ := exec_snoc.mp (exec_after h)
  rw [after, hp]
  exact hs

/-- **The scheduler with select is the scheduler**, whatever `select` answers: every state it
reaches is one that the scheduler reaches, and every enabled step can be taken and is one of the
scheduler. -/
theorem select_refines_scheduler (h : exec step (init clock) ms = some p) :
    (∃ ls, exec Vp.step (Vp.init clock) ls = some p.vp) ∧
      ∀ m, p.Enabled m → ∃ p', p.step m = some p' ∧ Vp.step p.vp (p.view m) = some p'.vp := by
  obtain ⟨⟨V, S⟩, hls⟩ := synced_of_exec h
  refine ⟨hls, fun m he => ?_⟩
  obtain ⟨p', hact, hvp, -⟩ := act_spec V S he
  exact ⟨p', by rw [step, if_pos he, hact], hvp⟩

/-- Thread 1 waits for input on 7 and output on 900, and thread 2 for output on 7. -/
def selecting : List SelectMove :=
  [.call (.create false), .poll [⟨7, {.POLLIN}, ∅⟩, ⟨900, {.POLLOUT}, ∅⟩] 50, .resume,
    .poll [⟨7, {.POLLOUT}, ∅⟩] noTimeout]

theorem select_refines_scheduler_two :
    ((after selecting).vp.ioq = [1, 2] ∧ (after selecting).ep.maxfd = 900) ∧
    (∃ ls, exec Vp.step (Vp.init 0) ls = some (after selecting).vp) ∧
      ∀ m, (after selecting).Enabled m → ∃ p', (after selecting).step m = some p' ∧
        Vp.step (after selecting).vp ((after selecting).view m) = some p'.vp :=
  ⟨by decide, select_refines_scheduler (exec_after (by decide))⟩

/-- A request is counted. -/
theorem Requested.load_ne (R : Requested p) (ht : t ∈ p.vp.ioq) {pd : Pollfd}
    (hpd : pd ∈ p.pds t) (hb : b ∈ pd.events) : load p.vp.ioq p.pds pd.fd.toNat b ≠ 0 := by
  have hv := R.valid t ht pd hpd
  have hask : Epoll.asks pd pd.fd.toNat b = 1 := by
    rw [Select.asks_toNat hv.fd.1, if_pos ⟨hv.io hb, hb⟩]
  have hle : Epoll.asks pd pd.fd.toNat b ≤ load p.vp.ioq p.pds pd.fd.toNat b :=
    Int.le_trans (Epoll.asks_le_want hpd) (want_le_load ht)
  omega

/-- **`select` looks at what the threads wait for**, and at nothing else: a bit is set exactly when
a thread on the io queue asks for it, every descriptor it asks for is in the sets and not above
`maxfd`, and a descriptor can be closed exactly when none of them waits for it. -/
theorem sets_are_requests (h : exec step (init clock) ms = some p) :
    (∀ fd b, p.ep.isset fd b = true ↔
        ∃ t ∈ p.vp.ioq, ∃ pd ∈ p.pds t, pd.fd = fd ∧ b ∈ pd.events) ∧
      (∀ t ∈ p.vp.ioq, ∀ pd ∈ p.pds t, 0 ≤ pd.fd ∧ pd.fd < fdSetsize ∧ pd.fd ≤ p.ep.maxfd) ∧
      ∀ fd < fdSetsize, (p.ep.fdClose fd = some true ↔
        ∀ t ∈ p.vp.ioq, ∀ pd ∈ p.pds t, pd.fd ≠ fd) := by
  obtain ⟨⟨-, S⟩, -⟩ := synced_of_exec h
  have hset : ∀ fd b, p.ep.isset fd b = true ↔
      ∃ t ∈ p.vp.ioq, ∃ pd ∈ p.pds t, pd.fd = fd ∧ b ∈ pd.events := fun fd b => by
    rw [S.counts.isset]
    refine ⟨Proc.exists_of_load_ne, ?_⟩
    rintro ⟨t, ht, pd, hpd, hfd, hb⟩
    have hne := S.toRequested.load_ne ht hpd hb
    rwa [hfd, Int.toNat_natCast] at hne
  refine ⟨hset, fun t ht pd hpd => ?_, fun fd hfd => ?_⟩
  · have hv := S.valid t ht pd hpd
    exact ⟨hv.fd.1, hv.fd.2, S.covered t ht pd hpd⟩
  · have hindex : Select.index? (fd : Int) = some fd := by
      rw [Select.index?, if_pos ⟨Int.natCast_nonneg fd, Int.ofNat_lt.mpr hfd⟩, Int.toNat_natCast]
    have hclose : p.ep.fdClose fd = some true ↔ ∀ b ∈ Mask.io, p.ep.isset fd b ≠ true := by
      have hbit : ∀ b, p.ep.isset fd b ≠ true ↔ p.ep.ref fd b = 0 := fun b => by
        rw [Ne, S.counts.isset, not_not, S.counts.ref]
      rw [Select.fdClose, hindex, Option.map_some, Option.some_inj, decide_eq_true_iff]
      simp only [hbit]
      simp [Mask.io]
    rw [hclose]
    constructor
    · intro hz t ht pd hpd he
      have hv := S.valid t ht pd hpd
      obtain ⟨b, hb⟩ := Finset.nonempty_iff_ne_empty.mpr hv.some
      exact hz b (hv.io hb) ((hset fd b).mpr ⟨t, ht, pd, hpd, he, hb⟩)
    · intro hn b _ hb
      obtain ⟨t, ht, pd, hpd, he, -⟩ := (hset fd b).mp hb
      exact hn t ht pd hpd he

theorem sets_are_requests_two :
    ((after selecting).ep.isset 7 .POLLOUT = true ∧ (after selecting).ep.isset 900 .POLLIN = false ∧
      (after selecting).ep.fdClose 900 = some false ∧
      (after selecting).ep.fdClose 901 = some true) ∧
    (∀ fd b, (after selecting).ep.isset fd b = true ↔
        ∃ t ∈ (after selecting).vp.ioq, ∃ pd ∈ (after selecting).pds t,
          pd.fd = fd ∧ b ∈ pd.events) ∧
      (∀ t ∈ (after selecting).vp.ioq, ∀ pd ∈ (after selecting).pds t,
        0 ≤ pd.fd ∧ pd.fd < fdSetsize ∧ pd.fd ≤ (after selecting).ep.maxfd) ∧
      ∀ fd < fdSetsize, ((after selecting).ep.fdClose fd = some true ↔
        ∀ t ∈ (after selecting).vp.ioq, ∀ pd ∈ (after selecting).pds t, pd.fd ≠ fd) :=
  ⟨by decide, sets_are_requests (exec_after (by decide))⟩

/-- **`_st_select_dispatch` wakes exactly the threads with a descriptor that is hit**: an event it
asks for is in the sets, or it is closed.  Such a thread will return the number of these. -/
theorem select_wakes {now : Nat} (h : exec step (init clock) ms = some p)
    (hs : p.step (.idle a now) = some p') (ht : t ∈ p.vp.ioq) :
    (t ∉ p'.vp.ioq ↔ ∃ pd ∈ p.pds t, a.Hits pd) ∧
      (t ∉ p'.vp.ioq →
        ((p'.vp.thread t).state = .runnable ∨ (p'.vp.thread t).state = .running) ∧
          p'.polled t = (p.pds t).countP fun pd => a.Hits pd) := by
  obtain ⟨⟨V, S⟩, -⟩ := synced_of_exec h
  obtain ⟨he, hvp, -, -⟩ := step_spec V S hs
  obtain ⟨p₁, hact, -, -, hin⟩ := idle_spec (a := a) V S he
  have hp : p₁ = p' := by
    rw [step, if_pos he, act, hact] at hs
    exact Option.some.inj hs
  subst hp
  have hio : p₁.vp.ioq = p.vp.ioq.filter (· ∉ p.ready a) := (V.turn hvp).2.ioq V.queued
  have hready : t ∉ p₁.vp.ioq ↔ t ∈ p.ready a := by
    rw [hio, List.mem_filter]
    simp [ht]
  have hhits : ∀ pd ∈ p.pds t, (a.revents pd ≠ ∅ ↔ a.Hits pd) := fun pd hpd =>
    Answer.revents_ne_iff_hits (S.valid t ht pd hpd)
  refine ⟨?_, fun hout => ⟨Proc.state_of_dispatched V hvp ht hout, ?_⟩⟩
  · rw [hready, ready, List.mem_filter, decide_eq_true_iff, and_iff_right ht]
    exact exists_congr fun pd => and_congr_right (hhits pd)
  · rw [polled, if_neg hout, hin t (hready.mp hout), answered, List.countP_map]
    refine List.countP_congr fun pd hpd => ?_
    simpa using hhits pd hpd

/-- `select` finds 7 ready for output. -/
def selected : List SelectMove := selecting ++ [.idle (.sets {(7, .POLLOUT)}) 3]

/-- Thread 2 is woken, and thread 1 waits on. -/
theorem select_wakes_two :
    ((after selected).vp.ioq = [1] ∧ (after selected).vp.current = 2 ∧
      (after selected).polled 2 = 1) ∧
      (2 ∉ (after selected).vp.ioq ↔
        ∃ pd ∈ (after selecting).pds 2, (Answer.sets {(7, .POLLOUT)}).Hits pd) ∧
      (2 ∉ (after selected).vp.ioq →
        (((after selected).vp.thread 2).state = .runnable ∨
          ((after selected).vp.thread 2).state = .running) ∧
          (after selected).polled 2 =
            ((after selecting).pds 2).countP fun pd => (Answer.sets {(7, .POLLOUT)}).Hits pd) :=
  ⟨by decide, select_wakes (exec_after (by decide)) (step_after (by decide)) (by decide)⟩

end SelectProc

end StCoroutine.Sched
