import StCoroutine.Sched.Exclusion

/-!
# Joining — interrupts and joined threads over runs

`st_thread_join` returns the value a thread gave to `st_thread_exit`, and it does so once for a
thread.  A thread that waits in it is woken by the end of the other, and returns then: its loop does
not go round again.  `st_cond_destroy` fails in `st_thread_exit` only for a thread that was joined
again after it had been joined.  And every `EINTR` that a thread gets is one call of
`st_thread_interrupt` on it.
-/

set_option autoImplicit false

namespace StCoroutine.Sched
open Lts

/-- The event returns `EINTR` to `t`. -/
def Ev.interrupted (t : Tid) : Ev → Bool
  | .leave u _ .EINTR => u = t
  | _ => false

/-- The event is a call of `st_thread_interrupt` on `t`. -/
def Ev.interrupts (t : Tid) : Ev → Bool
  | .enter _ (.interrupt u) _ => u = t
  | _ => false

/-- The event is that a join of `t` returns a value. -/
def Ev.Joined (t : Tid) : Ev → Prop
  | .leave _ (.join u) (.value _) => u = t
  | _ => False

/-- The event is that a join of `t` begins. -/
def Ev.Joins (t : Tid) : Ev → Prop
  | .enter _ (.join u) _ => u = t
  | _ => False

namespace Vp

variable {s s' : Vp} {t u : Tid} {c : Call} {r : Ret} {l : Label} {e : Ev} {evs h : List Ev}

/-! ### Interrupts -/

/-- An interrupt that a thread has not seen. -/
def owed (th : Thread) : Nat := if th.interrupt then 1 else 0

/-- **Every `EINTR` is an interrupt**, and one that is pending has not been returned. -/
def Paid (h : List Ev) (s : Vp) : Prop :=
  ∀ t, h.countP (Ev.interrupted t) + owed (s.thread t) ≤ h.countP (Ev.interrupts t)

theorem countP_interrupted_of_ne (h : ∀ e ∈ evs, ¬ e.By t) :
    evs.countP (Ev.interrupted t) = 0 := by
  rw [List.countP_eq_zero]
  intro e he hi
  cases e with
  | leave u c r =>
      cases r <;> try cases hi
      have hu : u = t := of_decide_eq_true hi
      exact h _ he hu
  | _ => cases hi

/-- A call that returns `EINTR` was interrupted. -/
theorem Instant.interrupt (hr : s.Instant c .EINTR) : (s.thread s.current).interrupt = true := by
  generalize he : Ret.EINTR = r at hr
  cases hr with
  | refused h => exact absurd he.symm (Refused.ne h).1
  | interrupted hb hy h => exact h
  | done hc hr => rcases hr with rfl | ⟨u, rfl⟩ <;> cases he
  | locks | joins => cases he

theorem interrupt_of_result (h : s.result c = .EINTR) :
    (s.thread s.current).interrupt = true := by
  by_contra hi
  cases c <;> simp [result, hi] at h
  all_goals split at h <;> cases h

theorem owed_of_interrupt {th th' : Thread} (h : th'.interrupt = th.interrupt) :
    owed th' = owed th := by
  rw [owed, owed, h]

theorem Turn.paid (T : Turn s l s' evs) (V : s.Inv) (H : Paid h s) (he : s.Enabled l) :
    Paid (h ++ evs) s' := by
  intro t
  -- what a step returns and leaves pending was pending before, or is called in it
  suffices hstep : evs.countP (Ev.interrupted t) + owed (s'.thread t) ≤
      owed (s.thread t) + evs.countP (Ev.interrupts t) by
    have hold := H t
    rw [List.countP_append, List.countP_append]
    omega
  have hsame : (s'.thread t).interrupt = (s.thread t).interrupt →
      evs.countP (Ev.interrupted t) = 0 → evs.countP (Ev.interrupted t) + owed (s'.thread t) ≤
      owed (s.thread t) + evs.countP (Ev.interrupts t) := fun hi h0 => by
    rw [h0, owed_of_interrupt hi]
    omega
  have hquiet : t ≠ s.current → evs.countP (Ev.interrupted t) = 0 := fun hne =>
    countP_interrupted_of_ne fun e he hb => hne (T.by_current he hb)
  have hcall : Ev.enter s.current (.interrupt t) s.lastClock ∈ evs →
      1 ≤ evs.countP (Ev.interrupts t) := fun hm =>
    List.countP_pos_iff.mpr ⟨_, hm, by simp [Ev.interrupts]⟩
  have hone : ∀ th, owed th ≤ 1 := fun th => by
    rw [owed]
    split <;> omega
  -- a call returns `EINTR` where the flag was set, and clears it
  have hreturn : ∀ {c r}, (s'.thread t).interrupt =
      (if r = .EINTR then false else (s.thread t).interrupt) →
      (r = .EINTR → (s.thread t).interrupt = true) →
      evs.countP (Ev.interrupted t) = [Ev.leave t c r].countP (Ev.interrupted t) →
      evs.countP (Ev.interrupted t) + owed (s'.thread t) ≤
        owed (s.thread t) + evs.countP (Ev.interrupts t) := fun {c r} hi hr hc => by
    by_cases h : r = .EINTR
    · subst h
      rw [hc, owed, owed, hi, hr rfl]
      simp [Ev.interrupted]
    · rw [if_neg h] at hi
      refine hsame hi (hc.trans ?_)
      cases r <;> first | rfl | exact absurd rfl h
  cases T.fate V.core V.queued he t with
  | rests hne hr hio hdue => exact hsame hr.interrupt (hquiet hne)
  | @wakes why hne hl hb hc hr hio =>
      cases hc with
      | interrupt hev =>
          have := hcall hev
          have := hone (s'.thread t)
          rw [hquiet hne]
          omega
      | _ =>
          refine hsame ?_ (hquiet hne)
          rw [hr.interrupt, Why.thread_interrupt]
          simp
  | flagged hme hst hr hio hdue hev =>
      have := hcall (by rw [hev]; exact List.mem_cons_self)
      have := hone (s'.thread t)
      have h0 : evs.countP (Ev.interrupted t) = 0 := by simp [hev, Ev.interrupted]
      rw [h0]
      omega
  | collected hne hz hr hj hev => exact hsame (by rw [hr]) (hquiet hne)
  | created hn hdead hne hr =>
      obtain ⟨j, hr⟩ := hr
      have h0 : owed (s'.thread t) = 0 := by rw [hr]; rfl
      rw [hquiet hne, h0]
      omega
  | @calls c r hcur hpc hr hth hev =>
      refine hreturn (c := c) (r := r) (by rw [hth]) (fun e => ?_) ?_
      · subst e
        rw [hcur]
        exact hr.interrupt
      · rw [hev]
        cases c <;> simp [clock?, Ev.interrupted]
  | @returns c hcur hpc hj hth hev =>
      subst hcur
      exact hreturn (c := c) (r := s.result c) (by rw [hth]; rfl) interrupt_of_result (by rw [hev])
  | @joined u hcur hpc hr hz hth hev =>
      subst hcur
      refine hsame ?_ (by rw [hev]; rfl)
      rw [hth]
      simp [backThread, hr]
  | ends hcur hpc hth hev =>
      refine hsame (by rw [hth]) ?_
      rw [hev]
      split <;> rfl
  | yields _ _ hr hev | idles _ _ hr hev => exact hsame hr.interrupt (by rw [hev]; rfl)
  | waits _ _ _ _ hth _ _ hev | exits _ _ _ hth hev | dies _ _ _ hth _ hev | starts _ _ hth hev
  | rejoins _ _ _ _ hth hev => exact hsame (by rw [hth]) (by rw [hev]; rfl)

/-- **Every `EINTR` that a thread gets is paid for** by a call of `st_thread_interrupt` on it. -/
theorem interrupts_conserved {clock : Nat} {ls : List Label}
    (h : exec Vp.step (Vp.init clock) ls = some s) (t : Tid) :
    (events clock ls).countP (Ev.interrupted t) ≤ (events clock ls).countP (Ev.interrupts t) := by
  have hall := events_ind (P := Paid) (fun t => ?_) (fun _ _ _ _ V H he T => T.paid V H he) h
  · exact Nat.le_trans (Nat.le_add_right _ _) (hall t)
  · rcases init_cases clock t with ⟨-, e⟩ | ⟨-, e⟩ | ⟨-, e⟩ <;> simp [e, owed]

theorem interrupts_conserved_sleep :
    (events 0 [.call (.create false), .call (.usleep 5), .resume, .call (.interrupt 1),
      .call (.yield 0), .resume]).countP (Ev.interrupted 1) ≤
    (events 0 [.call (.create false), .call (.usleep 5), .resume, .call (.interrupt 1),
      .call (.yield 0), .resume]).countP (Ev.interrupts 1) :=
  interrupts_conserved (exec_after (by decide)) 1

/-! ### Joins -/

/-- A join of `t` began after one had returned a value. -/
def Late (h : List Ev) (t : Tid) : Prop :=
  ∃ h₁ e h₂ e', h = h₁ ++ e :: h₂ ∧ e.Joined t ∧ e' ∈ h₂ ∧ e'.Joins t

/-- The thread was joined, and has not been freed yet. -/
def Collected (s : Vp) (t : Tid) : Prop :=
  (s.thread t).pc = .exit ∧ (s.thread t).state ≠ .zombie

/-- **What the events say of a thread that was joined.** -/
structure Harvest (h : List Ev) (s : Vp) : Prop where
  once : ∀ t, ∀ e ∈ h, e.Joined t → t < s.next ∧ (s.Collected t ∨ (s.thread t).pc = .gone)
  joined : ∀ t, s.Collected t → ∃ e ∈ h, e.Joined t
  late : ∀ w t, (s.thread w).pc = .inside (.join t) → (¬ s.Live t ∨ s.Collected t) → Late h t

theorem Late.append {t : Tid} (H : Late h t) : Late (h ++ evs) t := by
  obtain ⟨h₁, e, h₂, e', rfl, he, hm, he'⟩ := H
  exact ⟨h₁, e, h₂ ++ evs, e', by simp, he, List.mem_append_left _ hm, he'⟩

/-- A join that returns a value collects the thread. -/
theorem Turn.collects (T : Turn s l s' evs) (he : e ∈ evs) (hj : e.Joined t) :
    (s.thread t).state = .zombie ∧ (s'.thread t).state = .runnable ∧
      e = .leave s.current (.join t) (.value (s.thread t).retval) := by
  have hleave : ∀ {c r}, e = .leave s.current c r → c = .join t ∧ ∃ v, r = .value v := by
    rintro c r rfl
    cases c <;> try exact hj.elim
    cases r <;> try exact hj.elim
    exact ⟨congrArg Call.join hj, _, rfl⟩
  have hnot : ∀ {c r}, e = .leave s.current c r → (∀ v, r ≠ .value v) → False := fun h hr => by
    obtain ⟨-, v, hv⟩ := hleave h
    exact hr v hv
  have henter : ∀ {c k}, e ≠ .enter s.current c k := by
    rintro c k rfl
    exact hj
  have hclock : ∀ {now}, e ≠ .clock now := by
    rintro now rfl
    exact hj
  have hdispatch : ∀ {ready}, e ≠ .dispatch ready := by
    rintro ready rfl
    exact hj
  have hresult : ∀ c v, s.result c ≠ .value v := by
    intro c v h
    cases c <;> simp [result] at h
    all_goals repeat' split at h
    all_goals cases h
  cases T with
  | @joins u hl hne hj' hq hz =>
      rcases List.mem_cons.mp he with h | h
      · exact absurd h henter
      · have h := List.mem_singleton.mp h
        obtain ⟨hc, -⟩ := hleave h
        cases hc
        exact ⟨hz, by simp [makeRunnable, setState, Vp.modify], h⟩
  | @joined u hpc hr hz =>
      have h := List.mem_singleton.mp he
      obtain ⟨hc, -⟩ := hleave h
      cases hc
      exact ⟨hz, by simp [makeRunnable, setState, Vp.modify], h⟩
  | returns hpc hj' => exact (hnot (List.mem_singleton.mp he) (hresult _)).elim
  | ends hpc =>
      refine (hnot (List.mem_singleton.mp he) fun v => ?_).elim
      split <;> simp
  | @refused c r h =>
      rcases List.mem_cons.mp he with h' | h'
      · exact absurd h' henter
      · obtain ⟨rfl, v, rfl⟩ := hleave (List.mem_singleton.mp h')
        rcases h with ⟨h, -⟩ | ⟨h, -⟩ <;> cases h
  | create | interrupted | signals | locks | unlocks | handsOver | flags | interrupts =>
      rcases List.mem_cons.mp he with h | h
      · exact absurd h henter
      · exact (hnot (List.mem_singleton.mp h) (by simp)).elim
  | waits | exits | dies => exact absurd (List.mem_singleton.mp he) henter
  | yields =>
      rcases List.mem_cons.mp he with h | h
      · exact absurd h henter
      · exact absurd (List.mem_singleton.mp h) hclock
  | stays =>
      rcases List.mem_cons.mp he with h | h
      · exact absurd h henter
      · rcases List.mem_cons.mp h with h | h
        · exact absurd h hclock
        · exact (hnot (List.mem_singleton.mp h) (by simp)).elim
  | idles =>
      rcases List.mem_cons.mp he with h | h
      · exact absurd h hdispatch
      · exact absurd (List.mem_singleton.mp h) hclock
  | starts | rejoins => cases he

theorem not_collected_of_zombie (hz : (s.thread t).state = .zombie) : ¬ s.Collected t :=
  fun h => h.2 hz

/-- A thread that was joined, or freed, stays so. -/
theorem Fate.collected_of (F : Fate s s' evs t) (I : Core s (some s.current)) (hlt : t < s.next)
    (hc : s.Collected t ∨ (s.thread t).pc = .gone) :
    s'.Collected t ∨ (s'.thread t).pc = .gone := by
  have hsame : (s'.thread t).pc = (s.thread t).pc →
      ((s'.thread t).state = .zombie → (s.thread t).state = .zombie) →
      s'.Collected t ∨ (s'.thread t).pc = .gone := fun hp hst =>
    hc.imp (fun h => ⟨hp.trans h.1, fun e => h.2 (hst e)⟩) hp.trans
  have hpcs : (s.thread t).pc = .exit ∨ (s.thread t).pc = .gone := hc.imp_left And.left
  cases F with
  | rests hne hr hio hdue => exact hsame hr.pc (hr.state_iff (by simp) (by simp)).mp
  | flagged hme hst hr => exact hsame (by rw [hr]) (by rw [hr]; exact id)
  | wakes hne hl hb =>
      obtain ⟨c, hpc, -⟩ := I.inside_of_blocked hl hb
      rw [hpc] at hpcs
      rcases hpcs with e | e <;> cases e
  | collected hne hz =>
      rcases hc with h | h
      · exact absurd h (not_collected_of_zombie hz)
      · exact absurd h (I.live_of_zombie hz)
  | created hn => exact absurd hn (Nat.ne_of_lt hlt)
  | ends hcur hpc hr => exact .inr (by rw [hr])
  | calls _ hpc | waits _ hpc | yields _ hpc | exits _ hpc | dies _ hpc | starts _ hpc
  | returns _ hpc | rejoins _ hpc | joined _ hpc | idles _ hpc =>
      rw [hpc] at hpcs
      rcases hpcs with e | e <;> cases e

/-- A thread is joined in a step, or was. -/
theorem Fate.collected_before (F : Fate s s' evs t) (I : Core s (some s.current))
    (hc : s'.Collected t) :
    s.Collected t ∨ (.leave s.current (.join t) (.value (s.thread t).retval) ∈ evs ∧
      (s.waitq (.term t) = [] ∨ (s.thread s.current).pc = .inside (.join t))) := by
  obtain ⟨hpc', hst'⟩ := hc
  cases F with
  | rests hne hr hio hdue =>
      exact .inl ⟨hr.pc ▸ hpc', fun e => hst' ((hr.state_iff (by simp) (by simp)).mpr e)⟩
  | flagged hme hst hr =>
      rw [hr] at hpc' hst'
      exact .inl ⟨hpc', hst'⟩
  | collected hne hz hr hj hev => exact .inr ⟨hev, hj⟩
  | wakes hne hl hb hw hr =>
      obtain ⟨c, hpc, -⟩ := I.inside_of_blocked hl hb
      rw [hr.pc, Why.thread_pc] at hpc'
      rw [show (s.thread t).pc = .exit from hpc'] at hpc
      cases hpc
  | calls hcur hpc hr hth =>
      rw [hth] at hpc'
      rw [show (s.thread t).pc = .exit from hpc'] at hpc
      cases hpc
  | created hn hdead hne hth =>
      obtain ⟨j, hth⟩ := hth
      rw [hth] at hpc'
      cases hpc'
  | dies _ _ _ hth =>
      rw [hth] at hst'
      exact absurd rfl hst'
  | yields _ _ hr | idles _ _ hr =>
      rw [hr.pc] at hpc'
      cases hpc'
  | waits _ _ _ _ hth | exits _ _ _ hth | starts _ _ hth | returns _ _ _ hth
  | rejoins _ _ _ _ hth | joined _ _ _ _ hth | ends _ _ hth =>
      rw [hth] at hpc'
      cases hpc'

/-- A thread that another one waits to join was not joined by a third. -/
theorem Fate.late_of (F : Fate s s' evs t) (V : s.Inv) {w : Tid} (hw : w ≠ s.current)
    (hpc : (s.thread w).pc = .inside (.join t)) (hl : s.Live t)
    (hc : ¬ s'.Live t ∨ s'.Collected t) : s.Collected t := by
  by_contra hn
  have hwq : w ∈ s.waitq (.term t) := (V.queued.waitq _ w).mpr (by rw [hpc]; rfl)
  rcases hc with hc | hc
  · have hgone : (s'.thread t).pc = .gone := not_not.mp hc
    cases F with
    | exits hcur hp hj =>
        rw [V.joins.joinable w t hpc hl] at hj
        cases hj
    | ends hcur hp =>
        refine hn ⟨hp, ?_⟩
        rw [hcur, V.core.current_state]
        simp
    | rests hne hr => exact hl (hr.pc ▸ hgone)
    | wakes hne _ _ _ hr => exact hl ((hr.pc.trans Why.thread_pc) ▸ hgone)
    | flagged _ _ hr | collected _ _ hr | calls _ _ _ hr =>
        rw [hr] at hgone
        exact hl hgone
    | created _ hdead => exact hdead hl
    | yields _ _ hr | idles _ _ hr =>
        rw [hr.pc] at hgone
        cases hgone
    | waits _ _ _ _ hth | dies _ _ _ hth | starts _ _ hth | returns _ _ _ hth
    | rejoins _ _ _ _ hth | joined _ _ _ _ hth =>
        rw [hth] at hgone
        cases hgone
  · rcases F.collected_before V.core hc with h | ⟨-, h | h⟩
    · exact hn h
    · rw [h] at hwq
      cases hwq
    · exact hw (V.joins.one w s.current t hpc h)

/-- A join that was woken, and not interrupted, finds a zombie. -/
theorem Inv.zombie_of_join (V : s.Inv) {u : Tid} (hpc : (s.thread s.current).pc = .inside (.join u))
    (hr : s.result (.join u) = .ok) : (s.thread u).state = .zombie := by
  refine V.joins.woken s.current u hpc ?_ ?_
  · rw [V.core.current_state]
    simp
  · cases hi : (s.thread s.current).interrupt with
    | false => rfl
    | true => simp [result, hi] at hr

/-- **Every step keeps what the events say of the joins.** -/
theorem Turn.harvest (T : Turn s l s' evs) (V : s.Inv) (H : Harvest h s) (he : s.Enabled l) :
    Harvest (h ++ evs) s' := by
  have F := T.fate V.core V.queued he
  refine ⟨fun t e hm hj => ?_, fun t hc => ?_, fun w t hpc' hc => ?_⟩
  · rcases List.mem_append.mp hm with hm | hm
    · obtain ⟨hlt, hc⟩ := H.once t e hm hj
      exact ⟨Nat.lt_of_lt_of_le hlt T.next_le, (F t).collected_of V.core hlt hc⟩
    · obtain ⟨hz, hr, -⟩ := T.collects hm hj
      have hl := V.core.live_of_zombie hz
      have hne : t ≠ s.current := fun e => by
        rw [e, V.core.current_state] at hz
        cases hz
      refine ⟨Nat.lt_of_lt_of_le (V.core.lt_next hl) T.next_le, .inl ⟨?_, ?_⟩⟩
      · rw [(F t).pc_of_ne hl hne, V.core.exit_of_zombie hz]
      · rw [hr]
        simp
  · rcases (F t).collected_before V.core hc with hc | ⟨hm, -⟩
    · obtain ⟨e, hm, hj⟩ := H.joined t hc
      exact ⟨e, List.mem_append_left _ hm, hj⟩
    · exact ⟨_, List.mem_append_right _ hm, rfl⟩
  · have hold : w ≠ s.current → (s.thread w).pc = .inside (.join t) → Late (h ++ evs) t := by
      intro hw hpc
      by_cases hl : s.Live t
      · exact (H.late w t hpc (.inr ((F t).late_of V hw hpc hl hc))).append
      · exact (H.late w t hpc (.inl hl)).append
    cases (F w).inside V.core hpc' with
    | stays hw hpc | wakes hw hpc | flagged hw hpc => exact hold hw hpc
    | waits hcur hpc hi hw hth hb hdue hev =>
        have hl : s.Live t := hw.2.2.2.2
        have hne : t ≠ s.current := Ne.symm hw.2.2.1
        have hc := hc.resolve_left fun hn => hn (by rw [Live, (F t).pc_of_ne hl hne]; exact hl)
        rcases (F t).collected_before V.core hc with hc | ⟨hm, -⟩
        · obtain ⟨e, hm, hj⟩ := H.joined t hc
          obtain ⟨h₁, h₂, rfl⟩ := List.append_of_mem hm
          exact ⟨h₁, e, h₂ ++ evs, .enter w (.join t) s.lastClock, by simp, hj,
            List.mem_append_right _ (by rw [hev]; exact List.mem_cons_self), rfl⟩
        · rw [hev] at hm
          cases List.mem_singleton.mp hm
    | again e hcur hpc hr hz =>
        cases e
        subst hcur
        exact absurd (V.zombie_of_join hpc hr) hz
    | yields e => cases e

theorem harvest_init (clock : Nat) : Harvest [] (init clock) := by
  refine ⟨fun t e he => by simp at he, fun t hc => ?_, fun w t hpc => ?_⟩
  · rcases init_cases clock t with ⟨-, e⟩ | ⟨-, e⟩ | ⟨-, e⟩ <;>
    · rw [Collected, e] at hc
      cases hc.1
  · rcases init_cases clock w with ⟨-, e⟩ | ⟨-, e⟩ | ⟨-, e⟩ <;> rw [e] at hpc <;> cases hpc

/-- What a join and an exit return. -/
def Reaps (h : List Ev) : Ev → Prop
  | .leave _ (.join t) (.value v) =>
      (∃ k, .enter t (.exit v) k ∈ h) ∧ ∀ e ∈ h, ¬ e.Joined t
  | .leave t (.exit _) r => r = .EBUSY → Late h t
  | _ => True

theorem leaves_of_joined (h : e.Joined t) : e.Leaves := by
  cases e <;> trivial

theorem Turn.reaps (T : Turn s l s' evs) (V : s.Inv) (K : Tracked h s) (H : Harvest h s)
    (he : s.Enabled l) {a b : List Ev} (hsplit : evs = a ++ .leave t c r :: b) :
    Reaps (h ++ a) (.leave t c r) := by
  have hm : .leave t c r ∈ evs := by
    rw [hsplit]
    simp
  obtain ⟨rfl, M⟩ := T.left V.core V.queued he hm
  cases c with
  | join u =>
      cases r with
      | value v =>
          obtain ⟨hz, -, e⟩ := T.collects (t := u) hm rfl
          cases e
          obtain ⟨k, h₂, h₁, rfl, -⟩ := K.exit u (V.core.exit_of_zombie hz)
          refine ⟨⟨k, by simp⟩, fun e hm hj => ?_⟩
          rcases List.mem_append.mp hm with hm | hm
          · rcases (H.once u e hm hj).2 with h | h
            · exact not_collected_of_zombie hz h
            · exact V.core.live_of_zombie hz h
          · exact T.before_leave hsplit e hm (leaves_of_joined hj)
      | _ => trivial
  | exit v =>
      intro hr
      cases M with
      | calls hpc hi =>
          cases hi with
          | refused h => exact h.elim
          | interrupted hb => exact hb.elim
          | done _ hr' => rcases hr' with e | ⟨u, e⟩ <;> rw [e] at hr <;> cases hr
      | returns => cases hr
      | ends hpc =>
          split at hr
          next hq =>
            obtain ⟨w, hw⟩ := List.exists_mem_of_ne_nil _ hq
            have hpw := pc_of_term ((V.queued.waitq _ w).mp hw)
            refine (H.late w s.current hpw (.inr ⟨hpc, ?_⟩)).append
            rw [V.core.current_state]
            simp
          next => cases hr
  | _ => trivial

/-- **A join returns what the thread gave to `st_thread_exit`, once for a thread**, and
`st_cond_destroy` fails in `st_thread_exit` only for a thread that was joined again after it had
been joined. -/
theorem joins_return_exits {clock : Nat} {ls : List Label}
    (h : exec Vp.step (Vp.init clock) ls = some s) {pre post : List Ev} {e : Ev}
    (hev : events clock ls = pre ++ e :: post) : Reaps pre e := by
  have hall := events_ind (P := fun h s => (Tracked h s ∧ Harvest h s) ∧
    ¬ Occurs (fun pre e => ¬ Reaps pre e) h)
    ⟨⟨tracked_init clock, harvest_init clock⟩, by simp⟩ ?_ h
  · by_contra hn
    exact hall.2 ⟨pre, e, post, hev, hn⟩
  · rintro h s l s' V ⟨⟨K, H⟩, hgood⟩ he T
    refine ⟨⟨T.tracked V K he, T.harvest V H he⟩, fun hbad => ?_⟩
    rcases occurs_append.mp hbad with hbad | ⟨a, e, b, hsplit, hbad⟩
    · exact hgood hbad
    · cases e with
      | leave t c r => exact hbad (T.reaps V K H he hsplit)
      | _ => exact hbad trivial

/-- Thread 1 joins thread 2, which ends with 7. -/
theorem joins_return_exits_seven :
    Reaps [.enter 1 (.create true) 0, .leave 1 (.create true) (.thread 2), .enter 1 (.join 2) 0,
      .enter 2 (.exit 7) 0] (.leave 1 (.join 2) (.value 7)) := by
  have h : exec Vp.step (Vp.init 0) [.call (.create true), .call (.join 2), .resume,
      .call (.exit 7), .resume] = some (after _) := exec_after (by decide)
  refine joins_return_exits h (show _ = _ ++ Ev.leave 1 (.join 2) (.value 7) :: [] from ?_)
  decide

/-- **The wait of a join is not missed, and its loop does not go round**: no thread sleeps in
`st_thread_join` on a zombie, and the one that goes on behind its switch returns. -/
theorem join_wakes_once {clock : Nat} {ls : List Label}
    (h : exec Vp.step (Vp.init clock) ls = some s) {u : Tid} :
    (∀ t, (s.thread t).pc = .inside (.join u) → (s.thread u).state = .zombie →
      (s.thread t).state ≠ .condWait) ∧
    ((s.thread s.current).pc = .inside (.join u) →
      ∃ s' r, Vp.step s .resume = some s' ∧ obs s .resume = [.leave s.current (.join u) r]) := by
  have V := inv_of_exec h
  refine ⟨fun t => V.joins.notified t u, fun hpc => ?_⟩
  have he : s.Enabled .resume := by
    rw [Enabled, hpc]
    exact ⟨by simp, by simp⟩
  obtain ⟨s', evs, hact, T⟩ := act_turn V.core V.queued V.idleLast he
  have hobs : obs s .resume = evs := by simp [obs, hact]
  refine ⟨s', ?_⟩
  rw [hobs]
  have hstep : Vp.step s .resume = some s' := by simp [step, he, hact]
  cases T.fate V.core V.queued he s.current with
  | returns _ hp _ _ hev =>
      rw [hpc] at hp
      cases hp
      exact ⟨_, hstep, hev⟩
  | joined _ hp _ _ _ hev =>
      rw [hpc] at hp
      cases hp
      exact ⟨_, hstep, hev⟩
  | rejoins _ hp hr hz =>
      rw [hpc] at hp
      cases hp
      exact absurd (V.zombie_of_join hpc hr) hz
  | rests hne | wakes hne | collected hne | created _ _ hne => exact absurd rfl hne
  | flagged hp | calls _ hp | waits _ hp | yields _ hp | exits _ hp | dies _ hp | starts _ hp
  | ends _ hp | idles _ hp =>
      rw [hpc] at hp
      cases hp

/-- Thread 2 has ended, and thread 1 goes on in its join. -/
def joining : List Label :=
  [.call (.create true), .call (.join 2), .resume, .call (.exit 7)]

theorem join_wakes_once_joining :
    ((after joining).current = 1 ∧ ((after joining).thread 1).pc = .inside (.join 2) ∧
      ((after joining).thread 2).state = .zombie ∧ ((after joining).thread 1).state = .running ∧
      obs (after joining) .resume = [.leave 1 (.join 2) (.value 7)]) ∧
    (∀ t, ((after joining).thread t).pc = .inside (.join 2) →
      ((after joining).thread 2).state = .zombie → ((after joining).thread t).state ≠ .condWait) ∧
    (((after joining).thread (after joining).current).pc = .inside (.join 2) →
      ∃ s' r, Vp.step (after joining) .resume = some s' ∧
        obs (after joining) .resume = [.leave (after joining).current (.join 2) r]) :=
  ⟨by decide, join_wakes_once (exec_after (by decide))⟩

end Vp

end StCoroutine.Sched
