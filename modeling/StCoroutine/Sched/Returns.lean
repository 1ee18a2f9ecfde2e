import StCoroutine.Sched.Ownership

/-!
# Returns — why a call returns

The events of a run are the calls of the threads and their returns, with the readings of the clock
and what the event system finds ready between them.  Here a return is traced back: it is that of the
last call of its thread (`Since`), and what it returns has its reason in the events since then
(`Reason`).  A sleep returns `0` when the clock has passed its end, which is the last reading of the
clock before the call (`_st_last_clock`, not the time of the call) plus the timeout, in 64 bits; a
wait on a condition variable is ended by a signal on that variable, by the clock, or by an
interrupt.
-/

set_option autoImplicit false

namespace StCoroutine.Sched.Vp
open Lts

variable {s s' : Vp} {t u : Tid} {c : Call} {r : Ret} {l : Label} {e : Ev} {evs h h' h₂ : List Ev}
  {k n timeout : Nat} {m : Mid} {why : Why}

/-! ### The events of a step -/

/-- The thread that runs is the one that calls and returns. -/
theorem Turn.by_current (T : Turn s l s' evs) (he : e ∈ evs) (hb : e.By t) : t = s.current := by
  have hall : ∀ e ∈ evs, e.By t → s.current = t := by
    cases T <;> simp [Ev.By]
  exact (hall e he hb).symm

/-- **A call of `t` returns** in a step. -/
inductive Left (s : Vp) (evs : List Ev) (t : Tid) : Call → Ret → Prop where
  | calls {c : Call} {r : Ret} (hpc : (s.thread t).pc = .user) (hr : s.Instant c r)
      (hev : evs = .enter t c s.lastClock :: clock? c ++ [.leave t c r]) : Left s evs t c r
  | returns {c : Call} (hpc : (s.thread t).pc = .inside c)
      (hj : ∀ u, c = .join u → s.result c ≠ .ok)
      (hev : evs = [.leave t c (s.result c)]) : Left s evs t c (s.result c)
  | joined {u : Tid} (hpc : (s.thread t).pc = .inside (.join u)) (hr : s.result (.join u) = .ok)
      (hz : (s.thread u).state = .zombie)
      (hev : evs = [.leave t (.join u) (.value (s.thread u).retval)]) :
      Left s evs t (.join u) (.value (s.thread u).retval)
  | ends (hpc : (s.thread t).pc = .exit)
      (hev : evs = [.leave t (.exit (s.thread t).retval)
        (if s.waitq (.term t) ≠ [] then .EBUSY else .ok)]) :
      Left s evs t (.exit (s.thread t).retval) (if s.waitq (.term t) ≠ [] then .EBUSY else .ok)

theorem Turn.left (T : Turn s l s' evs) (I : Core s (some s.current)) (Q : s.Queued)
    (he : s.Enabled l) (h : .leave t c r ∈ evs) : t = s.current ∧ Left s evs t c r := by
  have hcur : t = s.current := T.by_current h rfl
  refine ⟨hcur, ?_⟩
  cases T.fate I Q he t with
  | rests hne | wakes hne | collected hne | created _ _ hne => exact absurd hcur hne
  | flagged hme hst h' hio hdue hev =>
      rw [hev] at h
      simp only [List.mem_cons, reduceCtorEq, Ev.leave.injEq, List.not_mem_nil, or_false,
        false_or] at h
      obtain ⟨-, rfl, rfl⟩ := h
      exact .calls (hcur ▸ hme) (.done (.inl id) (.inl rfl)) (by rw [hev, ← hcur]; rfl)
  | @calls c' r' hcur hpc hr h' hev =>
      have hclock : .leave t c r ∉ clock? c' := by cases c' <;> simp [clock?]
      rw [hev] at h
      simp only [List.cons_append, List.mem_cons, reduceCtorEq, List.mem_append, hclock,
        Ev.leave.injEq, List.not_mem_nil, or_false, false_or] at h
      obtain ⟨-, rfl, rfl⟩ := h
      exact .calls hpc hr hev
  | returns hcur hpc hj h' hev =>
      rw [hev] at h
      cases List.mem_singleton.mp h
      exact .returns hpc hj hev
  | joined hcur hpc hr hz h' hev =>
      rw [hev] at h
      cases List.mem_singleton.mp h
      exact .joined hpc hr hz hev
  | ends hcur hpc h' hev =>
      rw [hev] at h
      cases List.mem_singleton.mp h
      exact .ends hpc hev
  | waits _ _ _ _ _ _ _ hev | yields _ _ _ hev | exits _ _ _ _ hev | dies _ _ _ _ _ hev
  | starts _ _ _ hev | rejoins _ _ _ _ _ hev | idles _ _ _ hev =>
      rw [hev] at h
      simp at h

/-- **A return is the last event of a step.** -/
theorem Turn.before_leave (T : Turn s l s' evs) {a b : List Ev}
    (hsplit : evs = a ++ .leave t c r :: b) : ∀ e ∈ a, ¬ e.Leaves := by
  have hshort : ∀ {x y z : Ev}, ¬ x.Leaves → ¬ y.Leaves →
      evs = [] ∨ evs = [z] ∨ evs = [x, z] ∨ evs = [x, y, z] → ∀ e ∈ a, ¬ e.Leaves := by
    intro x y z hx hy hz
    rw [hsplit] at hz
    rcases a with _ | ⟨a₁, _ | ⟨a₂, _ | ⟨a₃, a⟩⟩⟩ <;> simp_all
    rcases hz with ⟨rfl, -⟩ | ⟨rfl, -⟩ <;> exact hx
  have hd : ¬ (Ev.dispatch []).Leaves := id
  cases T with
  | create | refused | interrupted | signals | locks | unlocks | handsOver | flags | interrupts
  | joins | yields | idles => exact hshort id hd (.inr (.inr (.inl rfl)))
  | stays => exact hshort id id (.inr (.inr (.inr rfl)))
  | waits | exits | dies | returns | joined | ends => exact hshort hd hd (.inr (.inl rfl))
  | starts | rejoins => exact hshort (z := .dispatch []) hd hd (.inl rfl)

/-! ### Since a call -/

/-- **The last event of `t` in `h` is its call `c`**, made at the clock `k`; `h₂` is what came
after it. -/
def Since (h : List Ev) (t : Tid) (c : Call) (k : Nat) (h₂ : List Ev) : Prop :=
  ∃ h₁, h = h₁ ++ .enter t c k :: h₂ ∧ ∀ e ∈ h₂, ¬ e.By t

/-- The clock has passed the end of the timeout: the sum, in 64 bits, of the timeout and the last
reading `k` of the clock before the call.  Where that clock is behind, or the sum wraps, the end is
early. -/
def Passed (h₂ : List Ev) (k timeout : Nat) : Prop :=
  timeout ≠ noTimeout ∧ ∃ now, .clock now ∈ h₂ ∧ (k + timeout) % 2 ^ 64 ≤ now

/-- The condition variable was signalled. -/
def Signalled (h₂ : List Ev) (n : Nat) : Prop :=
  ∃ u k', .enter u (.condSignal n) k' ∈ h₂ ∨ .enter u (.condBroadcast n) k' ∈ h₂

/-- The mutex was unlocked. -/
def Unlocked (h₂ : List Ev) (m : Mid) : Prop := ∃ u k', .enter u (.mutexUnlock m) k' ∈ h₂

/-- Descriptors of the thread were found ready. -/
def Ready (h₂ : List Ev) (t : Tid) : Prop := ∃ ready, .dispatch ready ∈ h₂ ∧ t ∈ ready

theorem Since.append (H : Since h t c k h₂) (hn : ∀ e ∈ evs, ¬ e.By t) :
    Since (h ++ evs) t c k (h₂ ++ evs) := by
  obtain ⟨h₁, rfl, hby⟩ := H
  refine ⟨h₁, by simp, fun e he => ?_⟩
  rcases List.mem_append.mp he with he | he
  · exact hby e he
  · exact hn e he

theorem Passed.append (H : Passed h₂ k timeout) : Passed (h₂ ++ evs) k timeout := by
  obtain ⟨ht, now, hm, hle⟩ := H
  exact ⟨ht, now, List.mem_append_left _ hm, hle⟩

theorem Signalled.append (H : Signalled h₂ n) : Signalled (h₂ ++ evs) n := by
  obtain ⟨u, k', hm⟩ := H
  exact ⟨u, k', hm.imp (List.mem_append_left _) (List.mem_append_left _)⟩

theorem Unlocked.append (H : Unlocked h₂ m) : Unlocked (h₂ ++ evs) m := by
  obtain ⟨u, k', hm⟩ := H
  exact ⟨u, k', List.mem_append_left _ hm⟩

theorem Ready.append (H : Ready h₂ t) : Ready (h₂ ++ evs) t := by
  obtain ⟨ready, hm, ht⟩ := H
  exact ⟨ready, List.mem_append_left _ hm, ht⟩

/-- What ends the wait of a call, but for an interrupt, and for the timeout of
`st_cond_timedwait`. -/
def Over (h₂ : List Ev) (t : Tid) (k : Nat) (polling : Prop) : Call → Prop
  | .usleep usecs => Passed h₂ k usecs
  | .condWait n _ => Signalled h₂ n
  | .poll _ timeout => (polling ∧ Passed h₂ k timeout) ∨ (¬ polling ∧ Ready h₂ t)
  | _ => True

theorem Over.congr {polling polling' : Prop} (hp : polling' ↔ polling)
    (H : Over h₂ t k polling c) : Over h₂ t k polling' c := by
  rwa [propext hp]

theorem Over.append {polling : Prop} (H : Over h₂ t k polling c) :
    Over (h₂ ++ evs) t k polling c := by
  cases c with
  | usleep usecs => exact Passed.append H
  | condWait n timeout => exact Signalled.append H
  | poll added timeout =>
      exact H.imp (fun ⟨hp, h⟩ => ⟨hp, h.append⟩) (fun ⟨hp, h⟩ => ⟨hp, h.append⟩)
  | _ => trivial

/-- **What is known of a thread in a call**, from the events `h₂` since it was made. -/
structure Pending (s : Vp) (h₂ : List Ev) (t : Tid) (c : Call) (k : Nat) : Prop where
  due : (s.thread t).onSleepq = true → s.heap.due t = (k + c.timeout) % 2 ^ 64
  timedout : (s.thread t).timedout = true → Passed h₂ k c.timeout
  released : (s.thread t).state ≠ c.waitState → (s.thread t).interrupt = false →
    (s.thread t).timedout = false → Over h₂ t k (t ∈ s.ioq) c
  given : ∀ m, c = .mutexLock m → s.owner m = some t → Unlocked h₂ m

/-- **Every thread in a call is in the one it made last**, and that one is pending. -/
structure Tracked (h : List Ev) (s : Vp) : Prop where
  inside : ∀ t c, (s.thread t).pc = .inside c →
    ∃ k h₂, Since h t c k h₂ ∧ Pending s h₂ t c k
  exit : ∀ t, (s.thread t).pc = .exit → ∃ k h₂, Since h t (.exit (s.thread t).retval) k h₂

theorem Core.waits_blocked (I : Core s (some u)) (hpc : (s.thread t).pc = .inside c)
    (hy : ∀ now, c ≠ .yield now) : c.waitState.Blocked := by
  have hok := (I.ok t).state
  rw [hpc] at hok
  cases c with
  | yield now => exact absurd rfl (hy now)
  | usleep usecs =>
      rw [Call.waitState]
      split <;> trivial
  | join | condWait | mutexLock | poll => trivial
  | _ => exact hok.1.elim

/-- A thread that has the mutex it waits for was handed it. -/
theorem Turn.given (T : Turn s l s' evs) (I : Core s (some s.current)) (he : s.Enabled l)
    (hne : t ≠ s.current)
    (hold : s.owner m = some t → Unlocked h₂ m) (ho : s'.owner m = some t) :
    Unlocked (h₂ ++ evs) m := by
  cases T.owns I he m with
  | keeps h | returns h => exact (hold (h.symm.trans ho)).append
  | locks hc h h' _ hev =>
      rw [h'] at ho
      exact absurd (Option.some.inj ho).symm hne
  | unlocks h h' hn hev =>
      rw [h'] at ho
      cases ho
  | handsOver h h' hq hpre ht ht' hev =>
      exact ⟨_, _, List.mem_append_right _ (by rw [hev]; exact List.mem_cons_self)⟩

/-- **The cause of a wake-up ends the wait.** -/
theorem Pending.wakes (P : Pending s h₂ t c k) (C : Cause s s' evs t why)
    (Q : s.Queued) (K : s.Clocked) (hpc : (s.thread t).pc = .inside c)
    (hst : (s.thread t).state = c.waitState)
    (hi : why ≠ .interrupt) (hto : (why.thread (s.thread t)).timedout = false) :
    Over (h₂ ++ evs) t k (t ∈ s.ioq ∧ why ≠ .ready) c := by
  have hio : (s.thread t).state = .ioWait → t ∈ s.ioq := Q.ioWait t (by rw [Live, hpc]; simp)
  cases C with
  | @signal n c' hc hev hw hst' =>
      rw [hpc] at hw
      cases c <;> cases hw
      · refine ⟨s.current, s.lastClock, hc.imp (fun e => ?_) fun e => ?_⟩ <;>
        · rw [← e]
          exact List.mem_append_right _ hev
  | dies hev hw hst' hz =>
      rw [hpc] at hw
      cases c <;> cases hw
      trivial
  | @timeout now hev hon hdue =>
      have hp : Passed (h₂ ++ evs) k c.timeout :=
        ⟨K.asleep t c hpc hon, now, List.mem_append_right _ hev, P.due hon ▸ hdue⟩
      cases c with
      | usleep usecs => exact hp
      | condWait n timeout =>
          have : (s.thread t).state = .condWait := hst
          simp [Why.thread, this] at hto
      | poll added timeout => exact .inl ⟨⟨hio hst, by simp⟩, hp⟩
      | _ => trivial
  | interrupt hev => exact absurd rfl hi
  | @ready ready hev ht hmem =>
      have hp := Q.ioq t hmem
      rw [hpc] at hp
      cases c with
      | poll added timeout =>
          exact .inr ⟨fun h => h.2 rfl, ready, List.mem_append_right _ hev, ht⟩
      | _ => exact hp.elim
  | handover hev ho ho' hw hst' =>
      rw [hpc] at hw
      cases c <;> cases hw
      trivial

/-- A thread that has ended was in `st_thread_exit` before, or ends now. -/
theorem Fate.exit (F : Fate s s' evs t) (I : Core s (some s.current))
    (hpc' : (s'.thread t).pc = .exit) :
    (t ≠ s.current ∧ (s.thread t).pc = .exit ∧ (s'.thread t).retval = (s.thread t).retval) ∨
      (t = s.current ∧ evs = [.enter t (.exit (s'.thread t).retval) s.lastClock]) := by
  cases F with
  | rests hne h => exact .inl ⟨hne, h.pc ▸ hpc', h.retval⟩
  | wakes hne hl hb hc h hio =>
      obtain ⟨c, hpc, -⟩ := I.inside_of_blocked hl hb
      rw [h.pc, Why.thread_pc] at hpc'
      rw [show (s.thread t).pc = .exit from hpc'] at hpc
      cases hpc
  | flagged hme hst h =>
      rw [h] at hpc' ⊢
      refine .inl ⟨fun e => ?_, hpc', rfl⟩
      rw [← e, show (s.thread t).pc = .exit from hpc'] at hme
      cases hme
  | collected hne hz h =>
      rw [h] at hpc' ⊢
      exact .inl ⟨hne, hpc', rfl⟩
  | dies hcur hpc hj h hw hev =>
      refine .inr ⟨hcur, ?_⟩
      rw [hev, h]
  | created hn hdead hne h =>
      obtain ⟨j, h⟩ := h
      rw [h] at hpc'
      cases hpc'
  | calls hcur hpc hr h hev =>
      rw [h] at hpc'
      rw [show (s.thread t).pc = .exit from hpc'] at hpc
      cases hpc
  | yields _ _ h _ | idles _ _ h _ =>
      rw [h.pc] at hpc'
      cases hpc'
  | returns _ _ _ h | joined _ _ _ _ h | waits _ _ _ _ h | exits _ _ _ h | starts _ _ h
  | rejoins _ _ _ _ h | ends _ _ h =>
      rw [h] at hpc'
      cases hpc'

/-- **Every step keeps track of the calls.** -/
theorem Turn.tracked (T : Turn s l s' evs) (V : s.Inv) (H : Tracked h s) (he : s.Enabled l) :
    Tracked (h ++ evs) s' := by
  obtain ⟨I, -, Q, L, K, J⟩ := V
  refine ⟨fun t c hpc' => ?_, fun t hpc' => ?_⟩
  case refine_2 =>
    rcases (T.fate I Q he t).exit I hpc' with ⟨hne, hpc, hr⟩ | ⟨hcur, hev⟩
    · obtain ⟨k, h₂, hs⟩ := H.exit t hpc
      rw [hr]
      exact ⟨k, h₂ ++ evs, hs.append fun e he hb => hne (T.by_current he hb)⟩
    · exact ⟨s.lastClock, [], h, by rw [hev], by simp⟩
  have hby : t ≠ s.current → ∀ e ∈ evs, ¬ e.By t := fun hne e he hb =>
    hne (T.by_current he hb)
  cases (T.fate I Q he t).inside I hpc' with
  | stays hne hpc hr hio hdue =>
      obtain ⟨k, h₂, hs, P⟩ := H.inside t c hpc
      refine ⟨k, h₂ ++ evs, hs.append (hby hne), fun hon => ?_, fun hto => ?_,
        fun hst hi hto => ?_, fun m hm => ?_⟩
      · rw [hdue]
        exact P.due (hr.onSleepq ▸ hon)
      · exact (P.timedout (hr.timedout ▸ hto)).append
      · by_cases hy : ∃ now, c = .yield now
        · obtain ⟨now, rfl⟩ := hy
          trivial
        · have hb := I.waits_blocked hpc fun now e => hy ⟨now, e⟩
          refine ((P.released (fun e => hst ?_) (hr.interrupt ▸ hi)
            (hr.timedout ▸ hto)).append).congr hio
          refine (hr.state_iff ?_ ?_).mpr e <;>
          · intro e'
            rw [e'] at hb
            exact hb
      · exact T.given I he hne (P.given m hm)
  | @wakes why hne hpc hst hc hr hio =>
      obtain ⟨k, h₂, hs, P⟩ := H.inside t c hpc
      refine ⟨k, h₂ ++ evs, hs.append (hby hne), fun hon => ?_, fun hto => ?_,
        fun hst' hi hto => ?_, fun m hm => T.given I he hne (P.given m hm)⟩
      · rw [hr.onSleepq, Why.thread_onSleepq] at hon
        cases hon
      · by_cases hold : (s.thread t).timedout = true
        · exact (P.timedout hold).append
        · rw [hr.timedout] at hto
          cases hc with
          | @timeout now hev hon hdue =>
              exact ⟨K.asleep t c hpc hon, now, List.mem_append_right _ hev, P.due hon ▸ hdue⟩
          | _ => exact absurd hto hold
      · have hwhy : why ≠ .interrupt := fun e => by
          rw [hr.interrupt, Why.thread_interrupt, e] at hi
          simp at hi
        have hto' : (why.thread (s.thread t)).timedout = false := by
          rw [hr.timedout, Why.thread_flag hwhy] at hto
          exact hto
        exact (P.wakes hc Q K hpc hst hwhy hto').congr hio
  | flagged hne hpc hst hr hio hdue hev =>
      obtain ⟨k, h₂, hs, P⟩ := H.inside t c hpc
      refine ⟨k, h₂ ++ evs, hs.append (hby hne), fun hon => ?_, fun hto => ?_,
        fun _ hi _ => ?_, fun m hm => T.given I he hne (P.given m hm)⟩
      · rw [hdue]
        exact P.due (by rwa [hr] at hon)
      · exact (P.timedout (by rwa [hr] at hto)).append
      · rw [hr] at hi
        cases hi
  | waits hcur hpc hi hw hr hb hdue hev =>
      refine ⟨s.lastClock, [], ⟨h, by rw [hev], by simp⟩, fun hon => ?_, fun hto => ?_,
        fun hst => ?_, fun m hm ho => ?_⟩
      · rw [hr] at hon
        exact hdue hon
      · rw [hr] at hto
        obtain ⟨n, timeout, e⟩ := K.flag t hto
        rw [hpc] at e
        cases e
      · exact absurd (by rw [hr]) hst
      · subst hm
        have hlen : ∀ c', evs ≠ s.done c' := fun c' e => by
          rw [hev] at e
          cases e
        cases T.owns I he m with
        | keeps h' | returns h' => exact absurd (hcur ▸ h'.symm.trans ho) hw.2
        | locks _ _ _ _ hev' | unlocks _ _ _ hev' | handsOver _ _ _ _ _ _ hev' =>
            exact absurd hev' (hlen _)
  | again hc hcur hpc hr hz hth hev =>
      subst hc
      obtain ⟨k, h₂, hs, P⟩ := H.inside t _ hpc
      rw [hev, List.append_nil]
      refine ⟨k, h₂, hs, fun hon => ?_, fun hto => ?_, fun hst => ?_, fun m hm => by cases hm⟩
      · rw [hth] at hon
        cases hon
      · rw [hth] at hto
        exact P.timedout hto
      · exact absurd (by rw [hth]; rfl) hst
  | yields hc hcur hpc hr hev =>
      subst hc
      refine ⟨s.lastClock, [.clock _], ⟨h, by rw [hev], by simp [Ev.By]⟩, fun hon => ?_,
        fun hto => ?_, fun _ _ _ => trivial, fun m hm => by cases hm⟩
      · rw [hr.onSleepq] at hon
        cases hon
      · rw [hr.timedout] at hto
        obtain ⟨n, timeout, e⟩ := K.flag t hto
        rw [hpc] at e
        cases e

/-! ### Why a call returns -/

/-- **The reason for what a call returns**, in the events `h₂` since it was made. -/
def Reason (h₂ : List Ev) (t : Tid) (k : Nat) : Call → Ret → Prop
  | .usleep usecs, r => r = .EINTR ∨ (r = .ok ∧ Passed h₂ k usecs)
  | .condWait n timeout, r =>
      r = .EINTR ∨ (r = .ok ∧ Signalled h₂ n) ∨ (r = .ETIME ∧ Passed h₂ k timeout)
  | .poll added timeout, r =>
      r = .EINTR ∨ (r = .EINVAL ∧ added = false) ∨ (r = .polled true ∧ Ready h₂ t) ∨
        (r = .polled false ∧ Passed h₂ k timeout)
  | .mutexLock m, r =>
      r = .EINTR ∨ r = .EDEADLK ∨ (r = .ok ∧ (h₂ = [] ∨ Unlocked h₂ m))
  | _, _ => True

theorem Instant.reason (hr : s.Instant c r) (t : Tid) (k : Nat) : Reason (clock? c) t k c r := by
  cases hr with
  | refused h =>
      cases c with
      | usleep | condWait => exact h.elim
      | poll added timeout => exact .inr (.inl h)
      | mutexLock m => exact .inr (.inl h.1)
      | _ => trivial
  | interrupted hb hy h =>
      cases c with
      | usleep | condWait | poll | mutexLock => exact .inl rfl
      | _ => trivial
  | locks hi h => exact .inr (.inr ⟨rfl, .inl rfl⟩)
  | joins => trivial
  | done hc hr =>
      rcases hc with hc | ⟨now, rfl⟩
      · cases c with
        | usleep | condWait | poll | mutexLock => exact absurd trivial hc
        | _ => trivial
      · trivial

/-- **What a call returns behind its switch has its reason.** -/
theorem Pending.reason (P : Pending s h₂ s.current c k) (V : s.Inv)
    (hpc : (s.thread s.current).pc = .inside c) : Reason h₂ s.current k c (s.result c) := by
  obtain ⟨I, -, Q, L, K, J⟩ := V
  have hrun : ∀ {st : State}, st ≠ .running → (s.thread s.current).state ≠ st := by
    intro st hst e
    rw [I.current_state] at e
    exact hst e.symm
  have hflag : (∀ n timeout, c ≠ .condWait n timeout) →
      (s.thread s.current).timedout = false := fun hc => by
    cases h : (s.thread s.current).timedout with
    | false => rfl
    | true =>
        obtain ⟨n, timeout, e⟩ := K.flag _ h
        rw [hpc] at e
        cases e
        exact absurd rfl (hc n timeout)
  cases c with
  | usleep usecs =>
      cases hi : (s.thread s.current).interrupt with
      | true => exact .inl (by simp [result, hi])
      | false =>
          refine .inr ⟨by simp [result, hi], P.released (hrun ?_) hi (hflag (by simp))⟩
          rw [Call.waitState]
          split <;> simp
  | condWait n timeout =>
      cases hi : (s.thread s.current).interrupt with
      | true => exact .inl (by simp [result, hi])
      | false =>
          cases hto : (s.thread s.current).timedout with
          | true => exact .inr (.inr ⟨by simp [result, hi, hto], P.timedout hto⟩)
          | false =>
              refine .inr (.inl ⟨by simp [result, hi, hto], ?_⟩)
              exact P.released (hrun (by simp [Call.waitState])) hi hto
  | poll added timeout =>
      cases hi : (s.thread s.current).interrupt with
      | true => exact .inl (by simp [result, hi])
      | false =>
          refine .inr (.inr ?_)
          rcases P.released (hrun (by simp [Call.waitState])) hi (hflag (by simp)) with
            ⟨hio, hp⟩ | ⟨hio, hr⟩
          · exact .inr ⟨by simp [result, hi, hio], hp⟩
          · exact .inl ⟨by simp [result, hi, hio], hr⟩
  | mutexLock m =>
      by_cases ho : s.owner m = some s.current
      · exact .inr (.inr ⟨by simp [result, ho], .inr (P.given m rfl ho)⟩)
      · refine .inl ?_
        have hl : (s.thread s.current).pc.lock = some m := by rw [hpc]; rfl
        have hi := (L.given m s.current hl (hrun (by simp))).resolve_left ho
        simp [result, hi, ho]
  | _ => trivial

/-- A return in `e` is that of the last call of its thread, and has its reason. -/
def Excused (pre : List Ev) : Ev → Prop
  | .leave t c r => ∃ k h₂, Since pre t c k h₂ ∧ Reason h₂ t k c r
  | _ => True

/-- **What a step shows after `h` is excused.** -/
theorem Left.excused {pre post : List Ev} (M : Left s evs s.current c r) (V : s.Inv)
    (H : Tracked h s) (hsplit : evs = pre ++ .leave s.current c r :: post) :
    ∃ k h₂, Since (h ++ pre) s.current c k h₂ ∧ Reason h₂ s.current k c r := by
  have honly : ∀ {r'}, evs = [.leave s.current c r'] → pre = [] := by
    intro r' hev
    rw [hsplit] at hev
    cases pre with
    | nil => rfl
    | cons e pre => simp at hev
  cases M with
  | calls hpc hr hev =>
      have hpre : pre = .enter s.current c s.lastClock :: clock? c := by
        rw [hev] at hsplit
        rcases List.append_eq_append_iff.mp hsplit with ⟨a, ha, hb⟩ | ⟨a, ha, hb⟩
        · cases a with
          | nil => simpa using ha
          | cons e a => simp at hb
        · cases a with
          | nil => simpa using ha.symm
          | cons e a =>
              -- no event before the last one is a return
              cases hb
              have hm : Ev.leave s.current c r ∈ .enter s.current c s.lastClock :: clock? c := by
                rw [ha]
                simp
              cases c <;> simp [clock?] at hm
      refine ⟨s.lastClock, clock? c, ⟨h, by rw [hpre], ?_⟩, hr.reason _ _⟩
      cases c <;> simp [clock?, Ev.By]
  | returns hpc hj hev =>
      obtain ⟨k, h₂, hs, P⟩ := H.inside _ _ hpc
      rw [honly hev, List.append_nil]
      exact ⟨k, h₂, hs, P.reason V hpc⟩
  | joined hpc hr hz hev =>
      obtain ⟨k, h₂, hs, P⟩ := H.inside _ _ hpc
      rw [honly hev, List.append_nil]
      exact ⟨k, h₂, hs, trivial⟩
  | ends hpc hev =>
      obtain ⟨k, h₂, hs⟩ := H.exit _ hpc
      rw [honly hev, List.append_nil]
      exact ⟨k, h₂, hs, trivial⟩

theorem tracked_init (clock : Nat) : Tracked [] (init clock) := by
  refine ⟨fun t c h => ?_, fun t h => ?_⟩ <;>
    rcases init_cases clock t with ⟨-, e⟩ | ⟨-, e⟩ | ⟨-, e⟩ <;> rw [e] at h <;> cases h

theorem tracked_of_exec {clock : Nat} {ls : List Label}
    (h : exec Vp.step (Vp.init clock) ls = some s) : Tracked (events clock ls) s :=
  events_ind (tracked_init clock) (fun _ _ _ _ V H he T => T.tracked V H he) h

/-- **Every return is that of the last call of its thread, and has its reason**: a sleep returns
`0` only after the clock has passed its end, the last clock plus the timeout in 64 bits (`Passed`);
a wait on a condition variable returns `0` only after the variable was signalled, and `ETIME` after
the clock has passed its end; `st_poll` finds descriptors ready, or the clock has passed its end; a
mutex that was not free was unlocked. -/
theorem returns_have_reason {clock : Nat} {ls : List Label} {s : Vp}
    (h : exec Vp.step (Vp.init clock) ls = some s) {pre post : List Ev} {t : Tid} {c : Call}
    {r : Ret} (hev : events clock ls = pre ++ .leave t c r :: post) :
    ∃ k h₂, Since pre t c k h₂ ∧ Reason h₂ t k c r := by
  have hall := events_ind (P := fun h s => Tracked h s ∧ ¬ Occurs (fun pre e => ¬ Excused pre e) h)
    ⟨tracked_init clock, by simp⟩ ?_ h
  · by_contra hn
    exact hall.2 ⟨pre, _, post, hev, hn⟩
  · rintro h s l s' V ⟨H, hgood⟩ he T
    refine ⟨T.tracked V H he, fun hbad => ?_⟩
    rcases occurs_append.mp hbad with hbad | ⟨a, e, b, hsplit, hbad⟩
    · exact hgood hbad
    · cases e with
      | leave t c r =>
          have hm : Ev.leave t c r ∈ obs s l := by rw [hsplit]; simp
          obtain ⟨rfl, M⟩ := T.left V.core V.queued he hm
          exact hbad (M.excused V H hsplit)
      | _ => exact hbad trivial

/-- A sleep of 5 that the clock ends. -/
theorem returns_have_reason_sleep :
    ∃ k h₂, Since [.enter 1 (.usleep 5) 0, .dispatch [], .clock 3, .dispatch [], .clock 5] 1
      (.usleep 5) k h₂ ∧ Reason h₂ 1 k (.usleep 5) .ok := by
  have h : exec Vp.step (Vp.init 0) [.call (.usleep 5), .idle [] 3, .idle [] 5, .resume] =
      some (after _) := exec_after (by decide)
  refine returns_have_reason h (show _ = _ ++ Ev.leave 1 (.usleep 5) .ok :: [] from ?_)
  decide

end StCoroutine.Sched.Vp
