import StCoroutine.Sched.Invariant

/-!
# Fate — what a step does to one thread

A step changes the record of the running thread, and those of the threads it makes runnable.
`Turn.fate` reads a turn from the side of one thread `t`: either it runs, and then the step is a
part of one of its calls, or it is left alone, woken, interrupted or collected by the one that runs.
That the scheduler chooses a thread in the end is kept apart (`Thread.Runs`).
-/

set_option autoImplicit false

namespace StCoroutine.Sched

/-- The record of a thread, and the one after the scheduler has or has not chosen it. -/
def Thread.Runs (th th' : Thread) : Prop :=
  th' = th ∨ (th.state = .runnable ∧ th' = { th with state := .running })

namespace Thread.Runs

variable {th th' : Thread}

theorem refl (th : Thread) : th.Runs th := .inl rfl

theorem eq_of_ne (h : th.Runs th') (hst : th.state ≠ .runnable) : th' = th :=
  h.resolve_right fun h => hst h.1

theorem pc (h : th.Runs th') : th'.pc = th.pc := by
  rcases h with rfl | ⟨-, rfl⟩ <;> rfl

theorem onSleepq (h : th.Runs th') : th'.onSleepq = th.onSleepq := by
  rcases h with rfl | ⟨-, rfl⟩ <;> rfl

theorem interrupt (h : th.Runs th') : th'.interrupt = th.interrupt := by
  rcases h with rfl | ⟨-, rfl⟩ <;> rfl

theorem timedout (h : th.Runs th') : th'.timedout = th.timedout := by
  rcases h with rfl | ⟨-, rfl⟩ <;> rfl

theorem joinable (h : th.Runs th') : th'.joinable = th.joinable := by
  rcases h with rfl | ⟨-, rfl⟩ <;> rfl

theorem retval (h : th.Runs th') : th'.retval = th.retval := by
  rcases h with rfl | ⟨-, rfl⟩ <;> rfl

/-- A state other than `_ST_ST_RUNNABLE` and `_ST_ST_RUNNING` is kept. -/
theorem state_iff (h : th.Runs th') {x : State} (h₁ : x ≠ .runnable) (h₂ : x ≠ .running) :
    th'.state = x ↔ th.state = x := by
  rcases h with rfl | ⟨hst, rfl⟩
  · rfl
  · rw [hst]
    exact iff_of_false (Ne.symm h₂) (Ne.symm h₁)

end Thread.Runs

/-- The event is of a call of the thread. -/
def Ev.By (t : Tid) : Ev → Prop
  | .enter u _ _ | .leave u _ _ => u = t
  | .dispatch _ | .clock _ => False

/-- The event is a return. -/
def Ev.Leaves : Ev → Prop
  | .leave _ _ _ => True
  | .enter _ _ _ | .dispatch _ | .clock _ => False

namespace Vp

variable {s s' s₁ : Vp} {run : Option Tid} {t u me : Tid} {th : Thread} {b : Bool} {q : SleepQ}
  {c : Call} {l : Label} {evs : List Ev} {why : Why} {ws : List (Why × Tid)} {st : State} {pc : Pc}

/-- **The cause for which a step makes the waiting thread `t` runnable.** -/
inductive Cause (s s' : Vp) (evs : List Ev) (t : Tid) : Why → Prop where
  | signal {n : Nat} {c : Call} (hc : c = .condSignal n ∨ c = .condBroadcast n)
      (hev : .enter s.current c s.lastClock ∈ evs)
      (hw : (s.thread t).pc.cond = some (.user n)) (hst : (s.thread t).state = .condWait) :
      Cause s s' evs t .signal
  | dies {retval : Nat} (hev : .enter s.current (.exit retval) s.lastClock ∈ evs)
      (hw : (s.thread t).pc.cond = some (.term s.current))
      (hst : (s.thread t).state = .condWait) (hz : (s'.thread s.current).state = .zombie) :
      Cause s s' evs t .signal
  | timeout {now : Nat} (hev : .clock now ∈ evs) (hon : (s.thread t).onSleepq = true)
      (hdue : s.heap.due t ≤ now) : Cause s s' evs t (.timeout now)
  | interrupt (hev : .enter s.current (.interrupt t) s.lastClock ∈ evs) :
      Cause s s' evs t .interrupt
  | ready {ready : List Tid} (hev : .dispatch ready ∈ evs) (ht : t ∈ ready) (hio : t ∈ s.ioq) :
      Cause s s' evs t .ready
  | handover {m : Mid} (hev : .enter s.current (.mutexUnlock m) s.lastClock ∈ evs)
      (ho : s.owner m = some s.current) (ho' : s'.owner m = some t)
      (hw : (s.thread t).pc.lock = some m) (hst : (s.thread t).state = .lockWait) :
      Cause s s' evs t (.handover m)

/-- A call returns at once. -/
inductive Instant (s : Vp) : Call → Ret → Prop where
  | refused {c : Call} {r : Ret} (h : s.Refused c r) : Instant s c r
  | interrupted {c : Call} (hb : c.Blocks) (hy : ∀ now, c ≠ .yield now)
      (h : (s.thread s.current).interrupt = true) : Instant s c .EINTR
  | locks {m : Mid} (hi : (s.thread s.current).interrupt = false) (h : s.owner m = none) :
      Instant s (.mutexLock m) .ok
  | joins {t : Tid} (hl : s.Live t) (hj : (s.thread t).joinable = true)
      (hq : s.waitq (.term t) = []) (hz : (s.thread t).state = .zombie) :
      Instant s (.join t) (.value (s.thread t).retval)
  | done {c : Call} {r : Ret} (hc : ¬ c.Blocks ∨ ∃ now, c = .yield now)
      (hr : r = .ok ∨ ∃ t, r = .thread t) : Instant s c r

/-- **What a step does to the thread `t`.** -/
inductive Fate (s s' : Vp) (evs : List Ev) (t : Tid) : Prop where
  | rests (hne : t ≠ s.current) (h : (s.thread t).Runs (s'.thread t))
      (hio : t ∈ s'.ioq ↔ t ∈ s.ioq) (hdue : s'.heap.due t = s.heap.due t)
  | wakes {why : Why} (hne : t ≠ s.current) (hl : s.Live t) (hb : (s.thread t).state.Blocked)
      (hc : Cause s s' evs t why)
      (h : (why.thread { s.thread t with
        interrupt := (s.thread t).interrupt || why = .interrupt }).Runs (s'.thread t))
      (hio : t ∈ s'.ioq ↔ t ∈ s.ioq ∧ why ≠ .ready)
  | flagged (hme : (s.thread s.current).pc = .user)
      (hst : (s.thread t).state = .running ∨ (s.thread t).state = .runnable)
      (h : s'.thread t = { s.thread t with interrupt := true })
      (hio : t ∈ s'.ioq ↔ t ∈ s.ioq) (hdue : s'.heap.due t = s.heap.due t)
      (hev : evs = [.enter s.current (.interrupt t) s.lastClock,
        .leave s.current (.interrupt t) .ok])
  | collected (hne : t ≠ s.current) (hz : (s.thread t).state = .zombie)
      (h : s'.thread t = { s.thread t with state := .runnable })
      (hj : s.waitq (.term t) = [] ∨ (s.thread s.current).pc = .inside (.join t))
      (hev : .leave s.current (.join t) (.value (s.thread t).retval) ∈ evs)
  | created (hn : t = s.next) (hdead : ¬ s.Live t) (hne : t ≠ s.current)
      (h : ∃ joinable, s'.thread t = ⟨.runnable, false, false, false, joinable, 0, .start⟩)
  | calls {c : Call} {r : Ret} (hcur : t = s.current) (hpc : (s.thread t).pc = .user)
      (hr : s.Instant c r)
      (h : s'.thread t = { s.thread t with
        interrupt := if r = .EINTR then false else (s.thread t).interrupt })
      (hev : evs = .enter t c s.lastClock :: clock? c ++ [.leave t c r])
  | waits {c : Call} {b : Bool} (hcur : t = s.current) (hpc : (s.thread t).pc = .user)
      (hi : (s.thread t).interrupt = false) (hw : s.Waits c)
      (h : s'.thread t = { s.thread t with state := c.waitState, onSleepq := b, pc := .inside c })
      (hb : b = true ↔ c.timeout ≠ noTimeout)
      (hdue : b = true → s'.heap.due t = (s.lastClock + c.timeout) % 2 ^ 64)
      (hev : evs = [.enter t c s.lastClock])
  | yields {now : Nat} (hcur : t = s.current) (hpc : (s.thread t).pc = .user)
      (h : Thread.Runs { s.thread t with
        state := .runnable, onSleepq := false, pc := .inside (.yield now) } (s'.thread t))
      (hev : evs = [.enter t (.yield now) s.lastClock, .clock now])
  | exits {retval : Nat} (hcur : t = s.current) (hpc : (s.thread t).pc = .user)
      (hj : (s.thread t).joinable = false)
      (h : s'.thread t = { s.thread t with
        retval := retval, state := .running, onSleepq := false, pc := .gone })
      (hev : evs = [.enter t (.exit retval) s.lastClock])
  | dies {retval : Nat} (hcur : t = s.current) (hpc : (s.thread t).pc = .user)
      (hj : (s.thread t).joinable = true)
      (h : s'.thread t = { s.thread t with
        retval := retval, state := .zombie, onSleepq := false, pc := .exit })
      (hw : ∀ u ∈ (s.waiters (s.waitq (.term t))).take 1, (s'.thread u).state ≠ .condWait)
      (hev : evs = [.enter t (.exit retval) s.lastClock])
  | starts (hcur : t = s.current) (hpc : (s.thread t).pc = .start)
      (h : s'.thread t = { s.thread t with pc := .user }) (hev : evs = [])
  | returns {c : Call} (hcur : t = s.current) (hpc : (s.thread t).pc = .inside c)
      (hj : ∀ u, c = .join u → s.result c ≠ .ok) (h : s'.thread t = s.backThread c)
      (hev : evs = [.leave t c (s.result c)])
  | rejoins {u : Tid} (hcur : t = s.current) (hpc : (s.thread t).pc = .inside (.join u))
      (hr : s.result (.join u) = .ok) (hz : (s.thread u).state ≠ .zombie)
      (h : s'.thread t = { s.thread t with
        state := .condWait, onSleepq := false, pc := .inside (.join u) }) (hev : evs = [])
  | joined {u : Tid} (hcur : t = s.current) (hpc : (s.thread t).pc = .inside (.join u))
      (hr : s.result (.join u) = .ok) (hz : (s.thread u).state = .zombie)
      (h : s'.thread t = s.backThread (.join u))
      (hev : evs = [.leave t (.join u) (.value (s.thread u).retval)])
  | ends (hcur : t = s.current) (hpc : (s.thread t).pc = .exit)
      (h : s'.thread t = { s.thread t with
        joinable := false, state := .running, onSleepq := false, pc := .gone })
      (hev : evs = [.leave t (.exit (s.thread t).retval)
        (if s.waitq (.term t) ≠ [] then .EBUSY else .ok)])
  | idles {ready : List Tid} {now : Nat} (hcur : t = s.current)
      (hpc : (s.thread t).pc = .idle)
      (h : Thread.Runs { s.thread t with state := .runnable, onSleepq := false, pc := .idle }
        (s'.thread t)) (hev : evs = [.dispatch ready, .clock now])

/-! ### The parts of a turn -/

/-- The scheduler changes the record of the thread it chooses. -/
theorem Core.schedule_runs (I : Core s none) (t : Tid) :
    (s.thread t).Runs (s.schedule.thread t) := by
  have hrun : ∀ v, (s.thread v).state = .runnable →
      (s.thread t).Runs ((s.setState v .running).thread t) := by
    intro v hv
    by_cases htv : t = v
    · subst htv
      exact .inr ⟨hv, Function.update_self _ _ _⟩
    · exact .inl (Function.update_of_ne htv _ _)
  rw [Vp.schedule]
  split
  next v rest hq => exact hrun v ((I.runq v).mp (by rw [hq]; exact List.mem_cons_self)).2.2
  next hq =>
    have hpc : (s.thread s.idleThread).pc = .idle := (I.idle _).mpr rfl
    have hl : s.Live s.idleThread := by
      rw [Live, hpc]
      simp
    have hok := (I.ok s.idleThread).state
    rw [hpc] at hok
    refine hrun _ (hok.resolve_right fun e => ?_)
    have := (I.running _ hl).mp e
    cases this

theorem schedule_ioq : s.schedule.ioq = s.ioq := by
  rw [Vp.schedule]
  split <;> rfl

theorem schedule_heap : s.schedule.heap = s.heap := by
  rw [Vp.schedule]
  split <;> rfl

theorem schedule_owner : s.schedule.owner = s.owner := by
  rw [Vp.schedule]
  split <;> rfl

theorem schedule_waitq : s.schedule.waitq = s.waitq := by
  rw [Vp.schedule]
  split <;> rfl

theorem schedule_lockq : s.schedule.lockq = s.lockq := by
  rw [Vp.schedule]
  split <;> rfl

theorem Wake.mem_ioq (W : Wake s why t s') (hn : s.ioq.Nodup) :
    t ∈ s'.ioq ↔ t ∈ s.ioq ∧ why ≠ .ready := by
  obtain ⟨p, rfl, -⟩ := W.eq
  cases why <;> simp [Vp.wake, hn.mem_erase_iff]

theorem Wake.mem_ioq_of_ne (W : Wake s why t s') (hu : u ≠ t) : u ∈ s'.ioq ↔ u ∈ s.ioq := by
  obtain ⟨p, rfl, -⟩ := W.eq
  cases why <;> simp [Vp.wake, List.mem_erase_of_ne hu]

/-- A thread that was not woken is on the io queue as before. -/
theorem Woken.mem_ioq_of_notMem (W : Woken s ws s') (hu : ∀ why, (why, u) ∉ ws) :
    u ∈ s'.ioq ↔ u ∈ s.ioq := by
  induction W with
  | nil => rfl
  | cons h _ ih =>
      rw [ih fun why hm => hu why (List.mem_cons_of_mem _ hm),
        h.mem_ioq_of_ne fun e => hu _ (by rw [e]; exact List.mem_cons_self)]

/-- One that was woken has left it if its descriptors are ready. -/
theorem Woken.mem_ioq_of_mem (W : Woken s ws s') (Q : s.Queued) (hu : (why, u) ∈ ws) :
    u ∈ s'.ioq ↔ u ∈ s.ioq ∧ why ≠ .ready := by
  induction W with
  | nil => cases hu
  | @cons s s₁ s₂ why' t ws h hs ih =>
      obtain ⟨ht, -⟩ := List.nodup_cons.mp (Woken.nodup (.cons h hs))
      rcases List.mem_cons.mp hu with e | hm
      · cases e
        have hnot : ∀ w, (w, u) ∉ ws := fun w hw => ht (List.mem_map.mpr ⟨_, hw, rfl⟩)
        rw [hs.mem_ioq_of_notMem hnot, h.mem_ioq Q.ioqNodup]
      · have hut : u ≠ t := fun e => ht (e ▸ List.mem_map.mpr ⟨_, hm, rfl⟩)
        rw [ih (Q.wake h) hm, h.mem_ioq_of_ne hut]

/-- A thread that does not wait is not woken. -/
theorem Woken.notMem_of_not_blocked (W : Woken s ws s') (hu : ¬ (s.thread u).state.Blocked) :
    ∀ why, (why, u) ∉ ws := fun _ hm => hu (W.thread_of_mem hm).2.1

theorem Core.current_not_blocked (I : Core s (some s.current)) :
    ¬ (s.thread s.current).state.Blocked := by
  rw [I.current_state]
  exact id

theorem Why.thread_flag (h : why ≠ .interrupt) :
    { th with interrupt := th.interrupt || decide (why = .interrupt) } = th := by
  rw [decide_eq_false h, Bool.or_false]

theorem mem_signalled {broadcast : Bool} {cv : Cid} (h : (why, t) ∈ s.signalled broadcast cv) :
    why = .signal ∧ t ∈ s.waitq cv ∧ (s.thread t).state = .condWait := by
  obtain ⟨v, hv, e⟩ := List.mem_map.mp h
  cases e
  have hw : t ∈ s.waiters (s.waitq cv) := by
    cases broadcast with
    | true => exact hv
    | false => exact List.mem_of_mem_take hv
  obtain ⟨hq, hst⟩ := List.mem_filter.mp hw
  exact ⟨rfl, hq, by simpa using hst⟩

theorem mem_map_timeout {now : Nat} {ts : List Tid} :
    (why, t) ∈ ts.map (fun t => (Why.timeout now, t)) ↔ why = .timeout now ∧ t ∈ ts := by
  rw [List.mem_map]
  constructor
  · rintro ⟨v, hv, e⟩
    cases e
    exact ⟨rfl, hv⟩
  · rintro ⟨rfl, ht⟩
    exact ⟨t, ht, rfl⟩

theorem Refused.ne {r : Ret} (h : s.Refused c r) : r ≠ .EINTR ∧ clock? c = [] := by
  cases c with
  | join t => rcases h with ⟨rfl, -⟩ | ⟨rfl, -⟩ <;> exact ⟨by simp, rfl⟩
  | mutexLock | mutexUnlock | mutexTrylock | poll | interrupt =>
      obtain ⟨rfl, -⟩ := h
      exact ⟨by simp, rfl⟩
  | _ => exact h.elim

theorem clock?_of_ne (hy : ∀ now, c ≠ .yield now) : clock? c = [] := by
  cases c with
  | yield now => exact absurd rfl (hy now)
  | _ => rfl

/-- A thread that is not interrupted is left as it is by a call that returns at once. -/
theorem Fate.unflagged {r : Ret} (hr : r ≠ .EINTR) :
    { th with interrupt := if r = .EINTR then false else th.interrupt } = th := by
  rw [if_neg hr]

/-- The thread `t` is woken or not, and another one goes on. -/
theorem Woken.fate {s₀ : Vp} (W : Woken s₀ ws s₁) (Q : s₀.Queued) (hne : t ≠ s.current)
    (hth : s₀.thread t = s.thread t) (hio₀ : t ∈ s₀.ioq ↔ t ∈ s.ioq)
    (hdue₀ : s₀.heap.due t = s.heap.due t) (hrun : (s₁.thread t).Runs (s'.thread t))
    (hio : t ∈ s'.ioq ↔ t ∈ s₁.ioq) (hdue : s'.heap.due t = s₁.heap.due t)
    (hcause : ∀ why, (why, t) ∈ ws → why ≠ .interrupt ∧ Cause s s' evs t why) :
    Fate s s' evs t := by
  by_cases hmem : ∃ why, (why, t) ∈ ws
  · obtain ⟨why, hm⟩ := hmem
    obtain ⟨heq, hb, hl⟩ := W.thread_of_mem hm
    obtain ⟨hni, hc⟩ := hcause why hm
    rw [Live, hth] at hl
    rw [hth] at heq hb
    refine .wakes hne hl hb hc ?_ ?_
    · rw [Why.thread_flag hni, ← heq]
      exact hrun
    · rw [hio, W.mem_ioq_of_mem Q hm, hio₀]
  · have hnot : ∀ why, (why, t) ∉ ws := fun why hm => hmem ⟨why, hm⟩
    refine .rests hne ?_ ?_ ?_
    · rw [W.thread_of_notMem hnot, hth] at hrun
      exact hrun
    · rw [hio, W.mem_ioq_of_notMem hnot, hio₀]
    · rw [hdue, W.same.due, hdue₀]

/-- **Every step does one of these to a thread.** -/
theorem Turn.fate (T : Turn s l s' evs) (I : Core s (some s.current)) (Q : s.Queued)
    (he : s.Enabled l) (t : Tid) : Fate s s' evs t := by
  have hcall : ∀ {c}, l = .call c → (s.thread s.current).pc = .user := by
    rintro c rfl
    exact he.1
  have huser : ∀ {c}, l = .call c → s.current ≠ s.idleThread := by
    rintro c rfl
    exact I.not_idle_of_user he.1
  have hresume : l = .resume → s.current ≠ s.idleThread := by
    rintro rfl
    exact I.not_idle_of_ne he.2
  have hclock : ∀ now, Queued { s with lastClock := now } := fun now =>
    Q.congr (fun _ => rfl) rfl rfl rfl fun _ => id
  have hrest : ∀ {s₁ : Vp}, t ≠ s.current → s₁.thread t = s.thread t → s₁.ioq = s.ioq →
      s₁.heap.due = s.heap.due → Fate s s₁ evs t := fun hne hth hio hdue =>
    .rests hne (.inl hth) (by rw [hio]) (by rw [hdue])
  cases T with
  | create joinable =>
      by_cases htn : t = s.next
      · subst htn
        have hdead : ¬ s.Live s.next := I.fresh _ (Nat.le_refl _)
        exact .created rfl hdead (fun e => hdead (e ▸ I.current_live))
          ⟨joinable, Function.update_self _ _ _⟩
      · have hth : (s.threadCreate joinable).thread t = s.thread t :=
          Function.update_of_ne htn _ _
        by_cases htc : t = s.current
        · subst htc
          exact .calls rfl (hcall rfl) (.done (.inl id) (.inr ⟨_, rfl⟩))
            (hth.trans (Fate.unflagged (by simp)).symm) rfl
        · exact hrest htc hth rfl rfl
  | refused h =>
      obtain ⟨hr, hc⟩ := Refused.ne h
      by_cases htc : t = s.current
      · subst htc
        exact .calls rfl (hcall rfl) (.refused h) (Fate.unflagged hr).symm (by rw [hc]; rfl)
      · exact hrest htc rfl rfl rfl
  | interrupted h hc hy =>
      by_cases htc : t = s.current
      · subst htc
        exact .calls rfl (hcall rfl) (.interrupted hc hy h) (Function.update_self _ _ _)
          (by rw [clock?_of_ne hy]; rfl)
      · exact hrest htc (Function.update_of_ne htc _ _) rfl rfl
  | @waits c b q h hw hq =>
      have hrun := (I.waits (huser rfl) hq.beds (blocked_waitState hw)
        (fun hb => timed_waitState hw (hq.timed.mp hb)) (blocks_of_waits hw) rfl).schedule_runs t
      have hth : ((s.enqueue c).park c.waitState b q (.inside c)).thread =
          Function.update s.thread s.current { s.thread s.current with
            state := c.waitState, onSleepq := b, pc := .inside c } := by
        rw [Vp.park, enqueue_thread, enqueue_current]
      by_cases htc : t = s.current
      · subst htc
        rw [hth, Function.update_self] at hrun
        refine .waits rfl (hcall rfl) h hw (hrun.eq_of_ne ?_) hq.timed (fun hb => ?_) rfl
        · intro e
          have := blocked_waitState hw
          rw [show c.waitState = .runnable from e] at this
          exact this
        · rw [schedule_heap]
          show q.due s.current = _
          rw [hq.due, if_pos hb, Function.update_self]
      · rw [hth, Function.update_of_ne htc] at hrun
        refine .rests htc hrun ?_ ?_
        · rw [schedule_ioq]
          show t ∈ (s.enqueue c).ioq ↔ _
          rw [mem_enqueue_ioq]
          simp [htc]
        · rw [schedule_heap]
          show q.due t = _
          rw [hq.due]
          split
          · exact Function.update_of_ne htc _ _
          · rfl
  | @signals n broadcast _ W =>
      by_cases htc : t = s.current
      · subst htc
        have hth := W.thread_of_notMem (W.notMem_of_not_blocked I.current_not_blocked)
        cases broadcast <;> exact .calls rfl (hcall rfl) (.done (.inl id) (.inl rfl))
          (hth.trans (Fate.unflagged (by simp)).symm) rfl
      · refine W.fate Q htc rfl Iff.rfl rfl (.refl _) Iff.rfl rfl fun why hm => ?_
        obtain ⟨rfl, hq, hst⟩ := mem_signalled hm
        refine ⟨by simp, .signal (n := n) ?_ List.mem_cons_self ((Q.waitq _ t).mp hq) hst⟩
        cases broadcast <;> simp
  | @locks m c h hi ho =>
      by_cases htc : t = s.current
      · subst htc
        rcases h with rfl | rfl
        · exact .calls rfl (hcall rfl) (.locks (hi rfl) ho) (Fate.unflagged (by simp)).symm rfl
        · exact .calls rfl (hcall rfl) (.done (.inl id) (.inl rfl))
            (Fate.unflagged (by simp)).symm rfl
      · exact hrest htc rfl rfl rfl
  | unlocks ho hn =>
      by_cases htc : t = s.current
      · subst htc
        exact .calls rfl (hcall rfl) (.done (.inl id) (.inl rfl))
          (Fate.unflagged (by simp)).symm rfl
      · exact hrest htc rfl rfl rfl
  | @handsOver m v s₁ _ _ ho hq hpre hst W =>
      have W' : Woken _ [(.handover m, v)] s' := .cons W (.nil s')
      by_cases htc : t = s.current
      · subst htc
        have hth := W'.thread_of_notMem (W'.notMem_of_not_blocked I.current_not_blocked)
        exact .calls rfl (hcall rfl) (.done (.inl id) (.inl rfl))
          (hth.trans (Fate.unflagged (by simp)).symm) rfl
      · have Q' : Queued { s with owner := Function.update s.owner m (some v) } :=
          Q.congr (fun _ => rfl) rfl rfl rfl fun _ => id
        refine W'.fate Q' htc rfl Iff.rfl rfl (.refl _) Iff.rfl rfl fun why hm => ?_
        cases List.mem_singleton.mp hm
        refine ⟨by simp, .handover List.mem_cons_self ho ?_ ((Q.lockq m t).mp ?_) hst⟩
        · rw [W.same.owner]
          exact Function.update_self _ _ _
        · rw [hq]
          simp
  | @flags v hl hni hst =>
      by_cases htv : t = v
      · subst htv
        exact .flagged (hcall rfl) hst (Function.update_self _ _ _) Iff.rfl rfl rfl
      · have hth : (s.modify v fun th => { th with interrupt := true }).thread t = s.thread t :=
          Function.update_of_ne htv _ _
        by_cases htc : t = s.current
        · subst htc
          exact .calls rfl (hcall rfl) (.done (.inl id) (.inl rfl))
            (hth.trans (Fate.unflagged (by simp)).symm) rfl
        · exact hrest htc hth rfl rfl
  | @interrupts v _ hl W =>
      by_cases htv : t = v
      · subst htv
        have hflag : (s.modify t fun th => { th with interrupt := true }).thread t =
            { s.thread t with interrupt := true } := Function.update_self _ _ _
        have hb := W.blocked
        rw [hflag] at hb
        have htc : t ≠ s.current := fun e => I.current_not_blocked (e ▸ hb)
        have Q' : (s.modify t fun th => { th with interrupt := true }).ioq.Nodup := Q.ioqNodup
        refine .wakes htc hl hb (.interrupt List.mem_cons_self) (.inl ?_) (W.mem_ioq Q')
        rw [W.thread_self, hflag]
        simp
      · have hth : s'.thread t = s.thread t :=
          (W.thread_of_ne htv).trans (Function.update_of_ne htv _ _)
        by_cases htc : t = s.current
        · subst htc
          exact .calls rfl (hcall rfl) (.done (.inl id) (.inl rfl))
            (hth.trans (Fate.unflagged (by simp)).symm) rfl
        · exact .rests htc (.inl hth) (W.mem_ioq_of_ne htv) (by rw [W.same.due]; rfl)
  | @yields now ts s₁ hts W hr =>
      have hrun := (I.yields (huser rfl) W).schedule_runs t
      have hcur : s₁.current = s.current := W.same.current
      by_cases htc : t = s.current
      · subst htc
        have hth := W.thread_of_notMem (W.notMem_of_not_blocked I.current_not_blocked)
        refine .yields rfl (hcall rfl) ?_ rfl
        simpa [Vp.park, hcur, hth] using hrun
      · refine W.fate (hclock now) htc rfl Iff.rfl rfl ?_ ?_ ?_ fun why hm => ?_
        · simpa [Vp.park, hcur, htc] using hrun
        · rw [schedule_ioq]
          rfl
        · rw [schedule_heap]
          rfl
        · obtain ⟨rfl, ht⟩ := mem_map_timeout.mp hm
          obtain ⟨hon, hdue⟩ := (hts.mem t).mp ht
          exact ⟨by simp, .timeout (by simp) hon hdue⟩
  | @stays now ts _ hts W hr =>
      by_cases htc : t = s.current
      · subst htc
        have hth := W.thread_of_notMem (W.notMem_of_not_blocked I.current_not_blocked)
        exact .calls rfl (hcall rfl) (.done (.inr ⟨now, rfl⟩) (.inl rfl))
          (hth.trans (Fate.unflagged (by simp)).symm) rfl
      · refine W.fate (hclock now) htc rfl Iff.rfl rfl (.refl _) Iff.rfl rfl fun why hm => ?_
        obtain ⟨rfl, ht⟩ := mem_map_timeout.mp hm
        obtain ⟨hon, hdue⟩ := (hts.mem t).mp ht
        exact ⟨by simp, .timeout (by simp) hon hdue⟩
  | @exits retval h =>
      have hrun := (I.exits (huser rfl) retval).schedule_runs t
      by_cases htc : t = s.current
      · subst htc
        have hth : ((s.ended retval).park .running false s.heap .gone).thread s.current =
            { s.thread s.current with
              retval := retval, state := .running, onSleepq := false, pc := .gone } := by
          simp [ended, setCurrent, Vp.park]
        rw [hth] at hrun
        exact .exits rfl (hcall rfl) h (hrun.eq_of_ne (by simp)) rfl
      · refine .rests htc ?_ ?_ ?_
        · simpa [ended, setCurrent, Vp.park, htc] using hrun
        · rw [schedule_ioq]
          rfl
        · rw [schedule_heap]
          rfl
  | @dies retval s₁ h W =>
      have hb := I.buried (huser rfl) retval
      have hrun := (hb.woken W).schedule_runs
      have hcur : s₁.schedule.thread s.current = { s.thread s.current with
          retval := retval, state := .zombie, onSleepq := false, pc := .exit } := by
        have hz : ¬ ((s.buried retval).thread s.current).state.Blocked := by
          rw [thread_buried]
          exact id
        have h := hrun s.current
        rw [W.thread_of_notMem (W.notMem_of_not_blocked hz), thread_buried] at h
        exact h.eq_of_ne (by simp)
      by_cases htc : t = s.current
      · subst htc
        refine .dies rfl (hcall rfl) h hcur (fun u hu => ?_) rfl
        have hm : (Why.signal, u) ∈ s.signalled false (.term s.current) :=
          List.mem_map.mpr ⟨u, hu, rfl⟩
        rw [Ne, (hrun u).state_iff (by simp) (by simp), (W.thread_of_mem hm).1]
        simp
      · have hf : Free (s.thread s.current).pc := by
          rw [hcall rfl]
          exact free_user
        refine W.fate (Q.buried hf retval) htc (thread_buried_of_ne htc) Iff.rfl rfl (hrun t) ?_ ?_
          fun why hm => ?_
        · rw [schedule_ioq]
        · rw [schedule_heap]
        · obtain ⟨rfl, hq, hst⟩ := mem_signalled hm
          exact ⟨by simp, .dies List.mem_cons_self ((Q.waitq _ t).mp hq) hst (by rw [hcur])⟩
  | @joins v hl hne hj hq hz =>
      by_cases htv : t = v
      · subst htv
        refine .collected (Ne.symm hne) hz ?_ (.inl hq) (by simp)
        simp [makeRunnable, setState, Vp.modify]
      · have hth : (({ s with zombieq := s.zombieq.erase v } : Vp).makeRunnable v).thread t =
            s.thread t := Function.update_of_ne htv _ _
        by_cases htc : t = s.current
        · subst htc
          exact .calls rfl (hcall rfl) (.joins hl hj hq hz)
            (hth.trans (Fate.unflagged (by simp)).symm) rfl
        · exact hrest htc hth rfl rfl
  | starts h =>
      by_cases htc : t = s.current
      · subst htc
        exact .starts rfl h (Function.update_self _ _ _) rfl
      · exact hrest htc (Function.update_of_ne htc _ _) rfl rfl
  | @returns c h hj =>
      have hth : ((s.dequeue c).setCurrent (s.backThread c)).thread =
          Function.update s.thread s.current (s.backThread c) := by
        rw [setCurrent, dequeue_thread, dequeue_current]
      by_cases htc : t = s.current
      · subst htc
        exact .returns rfl h hj (by rw [hth, Function.update_self]) rfl
      · refine .rests htc (.inl ?_) (mem_dequeue_ioq htc) ?_
        · rw [hth, Function.update_of_ne htc]
        · cases c <;> rfl
  | @rejoins v b q h hr hz hq =>
      have hb : b = false := by
        cases hb : b with
        | false => rfl
        | true => exact absurd rfl (hq.timed.mp hb)
      subst hb
      have hrun := (I.rejoins (hresume rfl) hq).schedule_runs t
      have hth : (((s.dequeue (.join v)).enqueue (.join v)).park .condWait false q
          (.inside (.join v))).thread = Function.update s.thread s.current
            { s.thread s.current with
              state := .condWait, onSleepq := false, pc := .inside (.join v) } := rfl
      by_cases htc : t = s.current
      · subst htc
        rw [hth, Function.update_self] at hrun
        exact .rejoins rfl h hr hz (hrun.eq_of_ne (by simp)) rfl
      · rw [hth, Function.update_of_ne htc] at hrun
        refine .rests htc hrun ?_ ?_
        · rw [schedule_ioq]
          rfl
        · rw [schedule_heap]
          exact congrFun hq.due t
  | @joined v h hr hz =>
      have hvc : v ≠ s.current := fun e => by
        rw [e, I.current_state] at hz
        cases hz
      by_cases htv : t = v
      · subst htv
        refine .collected hvc hz ?_ (.inr h) List.mem_cons_self
        simp [makeRunnable, setState, Vp.modify, setCurrent, dequeue, hvc]
      · by_cases htc : t = s.current
        · subst htc
          refine .joined rfl h hr hz ?_ rfl
          simp [makeRunnable, setState, Vp.modify, setCurrent, dequeue, htv]
        · refine hrest htc ?_ rfl rfl
          simp [makeRunnable, setState, Vp.modify, setCurrent, dequeue, htv, htc]
  | ends h =>
      have hrun := (I.ends (hresume rfl)).schedule_runs t
      by_cases htc : t = s.current
      · subst htc
        have hth : ((s.setCurrent { s.thread s.current with joinable := false }).park .running false
            s.heap .gone).thread s.current = { s.thread s.current with
              joinable := false, state := .running, onSleepq := false, pc := .gone } := by
          simp [setCurrent, Vp.park]
        rw [hth] at hrun
        exact .ends rfl h (hrun.eq_of_ne (by simp)) rfl
      · refine .rests htc ?_ ?_ ?_
        · simpa [setCurrent, Vp.park, htc] using hrun
        · rw [schedule_ioq]
          rfl
        · rw [schedule_heap]
          rfl
  | @idles ready ts now s₁ s₂ D hts W =>
      have hcur : s₂.current = s.current := W.same.current.trans D.same.current
      have hrun := (I.idles ((I.idle _).mp he.1) D W).schedule_runs t
      have Q₁ : Queued { s₁ with lastClock := now } :=
        (Q.woken D).congr (fun _ => rfl) rfl rfl rfl fun _ => id
      by_cases htc : t = s.current
      · subst htc
        have h₁ := D.thread_of_notMem (D.notMem_of_not_blocked I.current_not_blocked)
        have hb : ¬ (s₁.thread s.current).state.Blocked := by
          rw [h₁]
          exact I.current_not_blocked
        have h₂ := W.thread_of_notMem (W.notMem_of_not_blocked hb)
        refine .idles rfl he.1 ?_ rfl
        simpa [Vp.park, hcur, h₂, h₁] using hrun
      · have hpark : (s₂.park .runnable false s₂.heap .idle).thread t = s₂.thread t := by
          simp [Vp.park, hcur, htc]
        rw [hpark] at hrun
        by_cases hmem : ∃ why, (why, t) ∈ (s.ioq.filter (· ∈ ready)).map fun t => (Why.ready, t)
        · -- it is runnable now, so the clock does not wake it
          obtain ⟨why, hm⟩ := hmem
          obtain ⟨hth, -, -⟩ := D.thread_of_mem hm
          have hb : ¬ (s₁.thread t).state.Blocked := by
            rw [hth, Why.thread_state]
            exact id
          have hnot := W.notMem_of_not_blocked hb
          refine D.fate Q htc rfl Iff.rfl rfl ?_ ?_ ?_ fun why hm => ?_
          · rwa [W.thread_of_notMem hnot] at hrun
          · rw [schedule_ioq]
            exact W.mem_ioq_of_notMem hnot
          · rw [schedule_heap]
            exact congrFun W.same.due t
          · obtain ⟨v, hv, e⟩ := List.mem_map.mp hm
            cases e
            obtain ⟨hio, hr⟩ := List.mem_filter.mp hv
            exact ⟨by simp, .ready List.mem_cons_self (by simpa using hr) hio⟩
        · have hnot : ∀ why, (why, t) ∉ _ := fun why hm => hmem ⟨why, hm⟩
          have hth := D.thread_of_notMem hnot
          refine W.fate Q₁ htc hth (D.mem_ioq_of_notMem hnot) (congrFun D.same.due t) hrun ?_ ?_
            fun why hm => ?_
          · rw [schedule_ioq]
            rfl
          · rw [schedule_heap]
            rfl
          · obtain ⟨rfl, ht⟩ := mem_map_timeout.mp hm
            obtain ⟨hon, hdue⟩ := (hts.mem t).mp ht
            rw [hth] at hon
            rw [D.same.due] at hdue
            exact ⟨by simp, .timeout (by simp) hon hdue⟩

/-- A thread that does not run stays where it is in the code. -/
theorem Fate.pc_of_ne (F : Fate s s' evs t) (hl : s.Live t) (hne : t ≠ s.current) :
    (s'.thread t).pc = (s.thread t).pc := by
  cases F with
  | rests _ h => exact h.pc
  | wakes _ _ _ _ h => exact h.pc.trans Why.thread_pc
  | flagged _ _ h => rw [h]
  | collected _ _ h => rw [h]
  | created _ hdead => exact absurd hl hdead
  | calls hcur | waits hcur | yields hcur | exits hcur | dies hcur | starts hcur | returns hcur
  | rejoins hcur | joined hcur | ends hcur | idles hcur => exact absurd hcur hne

/-- **What a step does to a thread that is in a call then.** -/
inductive Inside (s s' : Vp) (evs : List Ev) (t : Tid) (c : Call) : Prop where
  | stays (hne : t ≠ s.current) (hpc : (s.thread t).pc = .inside c)
      (h : (s.thread t).Runs (s'.thread t)) (hio : t ∈ s'.ioq ↔ t ∈ s.ioq)
      (hdue : s'.heap.due t = s.heap.due t)
  | wakes {why : Why} (hne : t ≠ s.current) (hpc : (s.thread t).pc = .inside c)
      (hst : (s.thread t).state = c.waitState) (hc : Cause s s' evs t why)
      (h : (why.thread { s.thread t with
        interrupt := (s.thread t).interrupt || why = .interrupt }).Runs (s'.thread t))
      (hio : t ∈ s'.ioq ↔ t ∈ s.ioq ∧ why ≠ .ready)
  | flagged (hne : t ≠ s.current) (hpc : (s.thread t).pc = .inside c)
      (hst : (s.thread t).state = .runnable)
      (h : s'.thread t = { s.thread t with interrupt := true })
      (hio : t ∈ s'.ioq ↔ t ∈ s.ioq) (hdue : s'.heap.due t = s.heap.due t)
      (hev : evs = [.enter s.current (.interrupt t) s.lastClock,
        .leave s.current (.interrupt t) .ok])
  | waits {b : Bool} (hcur : t = s.current) (hpc : (s.thread t).pc = .user)
      (hi : (s.thread t).interrupt = false) (hw : s.Waits c)
      (h : s'.thread t = { s.thread t with state := c.waitState, onSleepq := b, pc := .inside c })
      (hb : b = true ↔ c.timeout ≠ noTimeout)
      (hdue : b = true → s'.heap.due t = (s.lastClock + c.timeout) % 2 ^ 64)
      (hev : evs = [.enter t c s.lastClock])
  | again {u : Tid} (hc : c = .join u) (hcur : t = s.current)
      (hpc : (s.thread t).pc = .inside (.join u)) (hr : s.result (.join u) = .ok)
      (hz : (s.thread u).state ≠ .zombie)
      (h : s'.thread t = { s.thread t with
        state := .condWait, onSleepq := false, pc := .inside (.join u) }) (hev : evs = [])
  | yields {now : Nat} (hc : c = .yield now) (hcur : t = s.current)
      (hpc : (s.thread t).pc = .user)
      (h : Thread.Runs { s.thread t with
        state := .runnable, onSleepq := false, pc := .inside (.yield now) } (s'.thread t))
      (hev : evs = [.enter t (.yield now) s.lastClock, .clock now])

theorem Fate.inside (F : Fate s s' evs t) (I : Core s (some s.current))
    (hpc' : (s'.thread t).pc = .inside c) : Inside s s' evs t c := by
  cases F with
  | rests hne h hio hdue => exact .stays hne (h.pc ▸ hpc') h hio hdue
  | wakes hne hl hb hc h hio =>
      have hpc : (s.thread t).pc = .inside c := by
        rw [h.pc, Why.thread_pc] at hpc'
        exact hpc'
      obtain ⟨c', hc', -, hst⟩ := I.inside_of_blocked hl hb
      rw [hpc] at hc'
      cases hc'
      exact .wakes hne hpc hst hc h hio
  | flagged hme hst h hio hdue hev =>
      have hpc : (s.thread t).pc = .inside c := by
        rw [h] at hpc'
        exact hpc'
      have hne : t ≠ s.current := fun e => by
        rw [← e, hpc] at hme
        cases hme
      have hl : s.Live t := by
        rw [Live, hpc]
        simp
      refine .flagged hne hpc (hst.resolve_left fun e => ?_) h hio hdue hev
      exact hne (Option.some.inj ((I.running t hl).mp e)).symm
  | waits hcur hpc hi hw h hb hdue hev =>
      rw [h] at hpc'
      cases hpc'
      exact .waits hcur hpc hi hw h hb hdue hev
  | rejoins hcur hpc hr hz h hev =>
      rw [h] at hpc'
      cases hpc'
      exact .again rfl hcur hpc hr hz h hev
  | collected hne hz h hj hev =>
      rw [h, show (s.thread t).pc = .exit from I.exit_of_zombie hz] at hpc'
      cases hpc'
  | created hn hdead hne h =>
      obtain ⟨j, h⟩ := h
      rw [h] at hpc'
      cases hpc'
  | calls hcur hpc hr h hev =>
      rw [h] at hpc'
      rw [show (s.thread t).pc = _ from hpc'] at hpc
      cases hpc
  | yields hcur hpc h hev =>
      have e := h.pc
      rw [hpc'] at e
      cases e
      exact .yields rfl hcur hpc h hev
  | idles hcur hpc h hev =>
      rw [h.pc] at hpc'
      cases hpc'
  | returns _ _ _ h _ | joined _ _ _ _ h _ | exits _ _ _ h _ | dies _ _ _ h _ _ | starts _ _ h _
  | ends _ _ h _ =>
      rw [h] at hpc'
      cases hpc'

end Vp

end StCoroutine.Sched
