import StCoroutine.Sched.Turn

/-!
# Invariant — what holds in every state of the scheduler

Each thread is in one place (`Core`), the idle thread runs when no other can (`IdleLast`), and the
queues hold the threads that wait on them (`Queued`). A step keeps all three (`Turn.settled`,
`Turn.queued`).
-/

set_option autoImplicit false

namespace StCoroutine.Sched.Vp
open Lts

variable {s s' : Vp} {run : Option Tid} {t u me : Tid} {th : Thread} {b : Bool} {q : SleepQ}
  {c : Call} {l : Label} {evs : List Ev} {why : Why} {ws : List (Why × Tid)} {st : State} {pc : Pc}

/-! ### Each thread is in one place -/

theorem blocked_waitState (hw : s.Waits c) : c.waitState.Blocked := by
  cases c <;> try exact hw.elim
  case usleep usecs =>
    rw [Call.waitState]
    split <;> trivial
  all_goals trivial

theorem blocks_of_waits (hw : s.Waits c) : c.Blocks := by
  cases c <;> trivial

theorem timed_waitState (hw : s.Waits c) (ht : c.timeout ≠ noTimeout) : c.waitState.Timed := by
  cases c <;> try exact hw.elim
  case usleep usecs =>
    have hst : (Call.usleep usecs).waitState = .sleeping := if_pos ht
    rw [hst]
    trivial
  case join | mutexLock => exact absurd rfl ht
  all_goals trivial

theorem enqueue_thread : (s.enqueue c).thread = s.thread := by cases c <;> rfl

theorem enqueue_current : (s.enqueue c).current = s.current := by cases c <;> rfl

theorem enqueue_idleThread : (s.enqueue c).idleThread = s.idleThread := by cases c <;> rfl

theorem dequeue_idleThread : (s.dequeue c).idleThread = s.idleThread := by cases c <;> rfl

theorem dequeue_thread : (s.dequeue c).thread = s.thread := by cases c <;> rfl

theorem dequeue_current : (s.dequeue c).current = s.current := by cases c <;> rfl

theorem Core.enqueue (I : Core s run) (c : Call) : Core (s.enqueue c) run :=
  I.congr enqueue_thread (by cases c <;> rfl) enqueue_idleThread (by cases c <;> rfl)
    (by cases c <;> rfl) (by cases c <;> rfl)

theorem Core.dequeue (I : Core s run) (c : Call) : Core (s.dequeue c) run :=
  I.congr dequeue_thread (by cases c <;> rfl) (by cases c <;> rfl) (by cases c <;> rfl)
    (by cases c <;> rfl) (by cases c <;> rfl)

/-- Each thread is in one place, and the idle thread runs when no other can. -/
structure Settled (s : Vp) : Prop where
  core : Core s (some s.current)
  idleLast : s.IdleLast

/-- The scheduler has chosen a thread. -/
theorem Core.settled (I : Core s none) : s.schedule.Settled := by
  refine ⟨I.scheduled, fun h => ?_⟩
  cases hq : s.runq with
  | nil => rw [Vp.schedule, hq]
           exact hq
  | cons t rest =>
      have ht : t ∈ s.runq := by rw [hq]; exact List.mem_cons_self
      rw [Vp.schedule, hq] at h
      exact absurd h ((I.runq t).mp ht).2.1

/-- The current thread goes on. -/
theorem Core.goesOn (I : Core s run) (hrun : run = some s.current)
    (h : s.current ≠ s.idleThread) : s.Settled :=
  ⟨hrun ▸ I, fun e => absurd e h⟩

theorem Core.woken_settled {s₁ : Vp} (I : Core s₁ (some s₁.current)) (W : Woken s₁ ws s')
    (h : s₁.current ≠ s₁.idleThread) : s'.Settled :=
  (I.woken W).goesOn (by rw [W.same.current]) (by rwa [W.same.current, W.same.idleThread])

theorem Core.wake_settled {s₁ : Vp} (I : Core s₁ (some s₁.current)) (W : Wake s₁ why t s')
    (h : s₁.current ≠ s₁.idleThread) : s'.Settled :=
  I.woken_settled (.cons W (.nil s')) h

/-- A thread that waits in a call. -/
theorem Core.waits (I : Core s (some s.current)) (hni : s.current ≠ s.idleThread)
    (hq : s.Beds b q) (hb : st.Blocked) (ht : b = true → st.Timed) (hc : c.Blocks)
    (hst : st = c.waitState) :
    Core ((s.enqueue c).park st b q (.inside c)) none := by
  have I' : Core (s.enqueue c) (some (s.enqueue c).current) := by
    rw [enqueue_current]
    exact I.enqueue c
  have hpc : Pc.Allows (.inside c) st := ⟨hc, .inl hst⟩
  refine I'.park (hq.congr fun u => ?_) hb ht hpc (by simp) (by simp) ?_
  · rw [enqueue_thread, enqueue_current]
  · rwa [enqueue_current, enqueue_idleThread]

/-- One that goes on waiting in `st_thread_join`. -/
theorem Core.rejoins (I : Core s (some s.current)) (hni : s.current ≠ s.idleThread)
    (hq : (s.dequeue (.join t)).Bedded noTimeout b q) :
    Core (((s.dequeue (.join t)).enqueue (.join t)).park .condWait b q (.inside (.join t)))
      none := by
  have I' : Core (s.dequeue (.join t)) (some (s.dequeue (.join t)).current) := I.dequeue _
  exact I'.waits hni hq.beds trivial (fun hb => absurd rfl (hq.timed.mp hb)) trivial rfl

/-- Threads are woken, and the current thread yields. -/
theorem Core.yields (I : Core s (some s.current)) (hni : s.current ≠ s.idleThread) {now : Nat}
    (W : Woken { s with lastClock := now } ws s') :
    Core { s'.park .runnable false s'.heap (.inside (.yield now)) with
      runq := s'.runq ++ [s'.current] } none := by
  have I₁ : Core { s with lastClock := now } (some s.current) := I.congr rfl rfl rfl rfl rfl rfl
  have I₂ : Core s' (some s'.current) := by
    rw [W.same.current]
    exact I₁.woken W
  refine I₂.park_runnable ⟨trivial, .inl rfl⟩ (by simp) (by simp) ?_
  rwa [W.same.current, W.same.idleThread]

/-- A thread that cannot be joined ends. -/
theorem Core.exits (I : Core s (some s.current)) (hni : s.current ≠ s.idleThread)
    (retval : Nat) : Core ((s.ended retval).park .running false s.heap .gone) none := by
  have I₁ : Core (s.ended retval) (some (s.ended retval).current) :=
    I.current (show _ = Function.update s.thread s.current
      { s.thread s.current with retval := retval } from rfl) rfl rfl rfl rfl rfl
      I.current_state I.current_awake (.inl rfl)
  exact I₁.park_gone hni (by simp)

/-- One that was joined is freed. -/
theorem Core.ends (I : Core s (some s.current)) (hni : s.current ≠ s.idleThread) :
    Core ((s.setCurrent { s.thread s.current with joinable := false }).park .running false s.heap
      .gone) none := by
  have I₁ : Core (s.setCurrent { s.thread s.current with joinable := false })
      (some s.current) :=
    I.current rfl rfl rfl rfl rfl rfl I.current_state I.current_awake (.inl rfl)
  exact Core.park_gone I₁ hni (by simp)

/-- The idle thread has dispatched and checked the clock. -/
theorem Core.idles (I : Core s (some s.current)) (hidle : s.current = s.idleThread)
    {s₁ s₂ : Vp} {ws' : List (Why × Tid)} {now : Nat} (D : Woken s ws s₁)
    (W : Woken { s₁ with lastClock := now } ws' s₂) :
    Core (s₂.park .runnable false s₂.heap .idle) none := by
  have hcur : s₂.current = s.current := W.same.current.trans D.same.current
  have I₁ : Core { s₁ with lastClock := now } (some s.current) :=
    (I.woken D).congr rfl rfl rfl rfl rfl rfl
  have I₂ : Core s₂ (some s₂.current) := by
    rw [hcur]
    exact I₁.woken W
  refine I₂.park_idle ?_
  rw [hcur, W.same.idleThread, show ({ s₁ with lastClock := now } : Vp).idleThread =
    s.idleThread from D.same.idleThread, hidle]

theorem Core.not_idle_of_ne (I : Core s run) (h : (s.thread t).pc ≠ .idle) : t ≠ s.idleThread :=
  fun e => h ((I.idle t).mpr e)

/-- **Every step keeps each thread in one place.** -/
theorem Turn.settled (T : Turn s l s' evs) (I : Core s (some s.current)) (he : s.Enabled l) :
    s'.Settled := by
  have hcall : ∀ {c}, l = .call c → s.current ≠ s.idleThread := by
    rintro c rfl
    exact I.not_idle_of_user he.1
  have hresume : l = .resume → s.current ≠ s.idleThread := by
    rintro rfl
    exact I.not_idle_of_ne he.2
  have hclock : ∀ now, Core { s with lastClock := now } (some s.current) := fun now =>
    I.congr rfl rfl rfl rfl rfl rfl
  cases T with
  | create joinable => exact (I.create joinable).goesOn rfl (hcall rfl)
  | refused h => exact I.goesOn rfl (hcall rfl)
  | interrupted h hc hy =>
      have I' : Core (s.clearInterrupt s.current) (some s.current) :=
        I.current rfl rfl rfl rfl rfl rfl I.current_state I.current_awake (.inl rfl)
      exact I'.goesOn rfl (hcall rfl)
  | waits h hw hq =>
      exact (I.waits (hcall rfl) hq.beds (blocked_waitState hw)
        (fun hb => timed_waitState hw (hq.timed.mp hb)) (blocks_of_waits hw) rfl).settled
  | signals W => exact I.woken_settled W (hcall rfl)
  | @locks m c h hi ho =>
      have I' : Core { s with owner := Function.update s.owner m (some s.current) }
        (some s.current) := I.congr rfl rfl rfl rfl rfl rfl
      exact I'.goesOn rfl (hcall rfl)
  | @unlocks m ho hn =>
      have I' : Core { s with owner := Function.update s.owner m none } (some s.current) :=
        I.congr rfl rfl rfl rfl rfl rfl
      exact I'.goesOn rfl (hcall rfl)
  | @handsOver m t _ _ _ ho hq hpre ht W =>
      have I' : Core { s with owner := Function.update s.owner m (some t) } (some s.current) :=
        I.congr rfl rfl rfl rfl rfl rfl
      exact I'.wake_settled W (hcall rfl)
  | @flags t hl hni h =>
      have I' : Core (s.modify t fun th => { th with interrupt := true }) (some s.current) :=
        I.modify rfl rfl rfl rfl rfl rfl ⟨(I.ok t).state, (I.ok t).timed⟩ rfl rfl Iff.rfl Iff.rfl
      exact I'.goesOn rfl (hcall rfl)
  | @interrupts t _ hl W =>
      have I' : Core (s.modify t fun th => { th with interrupt := true }) (some s.current) :=
        I.modify rfl rfl rfl rfl rfl rfl ⟨(I.ok t).state, (I.ok t).timed⟩ rfl rfl Iff.rfl Iff.rfl
      exact I'.wake_settled W (hcall rfl)
  | yields hts W hr => exact (I.yields (hcall rfl) W).settled
  | @stays now _ _ hts W hr => exact (hclock now).woken_settled W (hcall rfl)
  | @exits retval h => exact (I.exits (hcall rfl) retval).settled
  | dies h W => exact ((I.buried (hcall rfl) _).woken W).settled
  | joins hl hne hj hq hz => exact (I.collect hz).goesOn rfl (hcall rfl)
  | starts h =>
      have I' : Core (s.setCurrent { s.thread s.current with pc := .user }) (some s.current) :=
        I.current rfl rfl rfl rfl rfl rfl I.current_state I.current_awake
          (.inr ⟨rfl, hresume rfl⟩)
      exact I'.goesOn rfl (hresume rfl)
  | @returns c h hj =>
      have I' : Core (s.dequeue c) (some (s.dequeue c).current) := by
        rw [dequeue_current]
        exact I.dequeue c
      have hni : (s.dequeue c).current ≠ (s.dequeue c).idleThread := by
        rw [dequeue_current, dequeue_idleThread]
        exact hresume rfl
      have I₁ : Core ((s.dequeue c).setCurrent (s.backThread c))
          (some (s.dequeue c).current) :=
        I'.current rfl rfl rfl rfl rfl rfl I.current_state I.current_awake (.inr ⟨rfl, hni⟩)
      exact I₁.goesOn rfl hni
  | rejoins h hr hz hq => exact (I.rejoins (hresume rfl) hq).settled
  | @joined t h hr hz =>
      have hne : t ≠ s.current := fun e => by
        rw [e, I.current_state] at hz
        cases hz
      have I' : Core (s.dequeue (.join t)) (some (s.dequeue (.join t)).current) := I.dequeue _
      have I₁ : Core ((s.dequeue (.join t)).setCurrent (s.backThread (.join t)))
          (some s.current) :=
        I'.current rfl rfl rfl rfl rfl rfl I.current_state I.current_awake
          (.inr ⟨rfl, hresume rfl⟩)
      exact (I₁.collect ((congrArg Thread.state (Function.update_of_ne hne _ _)).trans hz)).goesOn
        rfl (hresume rfl)
  | ends h => exact (I.ends (hresume rfl)).settled
  | idles D hts W => exact (I.idles ((I.idle _).mp he.1) D W).settled

/-! ### The queues hold the threads that wait on them -/

/-- **One thread goes to another place in the code**, and from its queues to others. -/
theorem Queued.update (Q : s.Queued) (t : Tid) (th : Thread)
    (hthread : s'.thread = Function.update s.thread t th)
    (hw : ∀ cv u, u ∈ s'.waitq cv ↔ if u = t then th.pc.cond = some cv else u ∈ s.waitq cv)
    (hwn : ∀ cv, (s'.waitq cv).Nodup)
    (hl : ∀ m u, u ∈ s'.lockq m ↔ if u = t then th.pc.lock = some m else u ∈ s.lockq m)
    (hln : ∀ m, (s'.lockq m).Nodup) (hio : ∀ u, u ≠ t → (u ∈ s'.ioq ↔ u ∈ s.ioq))
    (hiot : t ∈ s'.ioq → th.pc.Polls) (hion : s'.ioq.Nodup)
    (hiow : th.pc ≠ .gone → th.state = .ioWait → t ∈ s'.ioq) : s'.Queued := by
  have hself : s'.thread t = th := by rw [hthread, Function.update_self]
  have hother : ∀ u, u ≠ t → s'.thread u = s.thread u := fun u hu => by
    rw [hthread, Function.update_of_ne hu]
  refine ⟨fun cv u => ?_, hwn, fun m u => ?_, hln, fun u hu => ?_, hion, fun u hlu hst => ?_⟩ <;>
    by_cases hut : u = t
  · rw [hw, if_pos hut, hut, hself]
  · rw [hw, if_neg hut, hother u hut, Q.waitq]
  · rw [hl, if_pos hut, hut, hself]
  · rw [hl, if_neg hut, hother u hut, Q.lockq]
  · rw [hut, hself]
    exact hiot (hut ▸ hu)
  · rw [hother u hut]
    exact Q.ioq u ((hio u hut).mp hu)
  · subst hut
    rw [Live, hself] at hlu
    rw [hself] at hst
    exact hiow hlu hst
  · rw [Live, hother u hut] at hlu
    rw [hother u hut] at hst
    exact (hio u hut).mpr (Q.ioWait u hlu hst)

/-- The threads stay where they are in the code. -/
theorem Queued.congr (Q : s.Queued) (hpc : ∀ t, (s'.thread t).pc = (s.thread t).pc)
    (hw : s'.waitq = s.waitq) (hl : s'.lockq = s.lockq) (hio : s'.ioq = s.ioq)
    (hst : ∀ t, (s'.thread t).state = .ioWait → (s.thread t).state = .ioWait) : s'.Queued := by
  refine ⟨fun cv t => ?_, fun cv => ?_, fun m t => ?_, fun m => ?_, fun t ht => ?_, ?_,
    fun t hlt h => ?_⟩
  · rw [hw, hpc, Q.waitq]
  · rw [hw]
    exact Q.waitqNodup cv
  · rw [hl, hpc, Q.lockq]
  · rw [hl]
    exact Q.lockqNodup m
  · rw [hpc]
    exact Q.ioq t (hio ▸ ht)
  · rw [hio]
    exact Q.ioqNodup
  · rw [hio]
    rw [Live, hpc] at hlt
    exact Q.ioWait t hlt (hst t h)

/-- The current thread is at a place where it is on no queue. -/
structure Free (pc : Pc) : Prop where
  cond : pc.cond = none
  lock : pc.lock = none
  polls : ¬ pc.Polls

theorem Queued.notMem_of_free (Q : s.Queued) (hf : Free (s.thread t).pc) :
    (∀ cv, t ∉ s.waitq cv) ∧ (∀ m, t ∉ s.lockq m) ∧ t ∉ s.ioq := by
  refine ⟨fun cv h => ?_, fun m h => ?_, fun h => hf.polls (Q.ioq t h)⟩
  · have := (Q.waitq cv t).mp h
    rw [hf.cond] at this
    cases this
  · have := (Q.lockq m t).mp h
    rw [hf.lock] at this
    cases this

/-- From such a place to another. -/
theorem Queued.free (Q : s.Queued) (t : Tid) (th : Thread) (hf : Free (s.thread t).pc)
    (hf' : Free th.pc)
    (hthread : s'.thread = Function.update s.thread t th) (hw : s'.waitq = s.waitq)
    (hl : s'.lockq = s.lockq) (hio : s'.ioq = s.ioq)
    (hst : th.pc ≠ .gone → th.state ≠ .ioWait) : s'.Queued := by
  obtain ⟨h1, h2, h3⟩ := Q.notMem_of_free hf
  refine Q.update t th hthread (fun cv u => ?_) (fun cv => hw ▸ Q.waitqNodup cv) (fun m u => ?_)
    (fun m => hl ▸ Q.lockqNodup m) (fun u _ => by rw [hio]) (fun h => absurd (hio ▸ h) h3)
    (hio ▸ Q.ioqNodup) (fun hg h => absurd h (hst hg))
  · rw [hw, hf'.cond]
    split
    next hu => exact iff_of_false (hu ▸ h1 cv) (by simp)
    next => exact Iff.rfl
  · rw [hl, hf'.lock]
    split
    next hu => exact iff_of_false (hu ▸ h2 m) (by simp)
    next => exact Iff.rfl

theorem mem_update_append {α : Type} [DecidableEq α] {f : α → List Tid} {a k : α} :
    u ∈ Function.update f a (f a ++ [t]) k ↔ u ∈ f k ∨ (k = a ∧ u = t) := by
  by_cases hk : k = a
  · subst hk
    simp
  · simp [hk]

theorem mem_update_erase {α : Type} [DecidableEq α] {f : α → List Tid} {a k : α}
    (hu : u ≠ t) : u ∈ Function.update f a ((f a).erase t) k ↔ u ∈ f k := by
  by_cases hk : k = a
  · subst hk
    simp [List.mem_erase_of_ne hu]
  · simp [hk]

theorem nodup_update {α : Type} [DecidableEq α] {f : α → List Tid} {a k : α} {l : List Tid}
    (hf : ∀ k, (f k).Nodup) (hl : l.Nodup) : (Function.update f a l k).Nodup := by
  by_cases hk : k = a
  · subst hk
    simpa using hl
  · simpa [hk] using hf k

theorem mem_enqueue_waitq {cv : Cid} : u ∈ (s.enqueue c).waitq cv ↔
    u ∈ s.waitq cv ∨ (u = s.current ∧ (Pc.inside c).cond = some cv) := by
  cases c <;> simp only [Vp.enqueue, Pc.cond, mem_update_append, Option.some.injEq, reduceCtorEq,
    and_false, or_false]
  all_goals rw [and_comm, eq_comm (a := cv)]

theorem mem_enqueue_lockq {m : Mid} : u ∈ (s.enqueue c).lockq m ↔
    u ∈ s.lockq m ∨ (u = s.current ∧ (Pc.inside c).lock = some m) := by
  cases c <;> simp only [Vp.enqueue, Pc.lock, mem_update_append, Option.some.injEq, reduceCtorEq,
    and_false, or_false]
  rw [and_comm, eq_comm (a := m)]

theorem mem_enqueue_ioq : u ∈ (s.enqueue c).ioq ↔
    u ∈ s.ioq ∨ (u = s.current ∧ (Pc.inside c).Polls) := by
  cases c <;> simp [Vp.enqueue, Pc.Polls]

theorem nodup_enqueue_waitq (h : ∀ cv, (s.waitq cv).Nodup ∧ s.current ∉ s.waitq cv) (cv : Cid) :
    ((s.enqueue c).waitq cv).Nodup := by
  cases c with
  | condWait n _ => exact nodup_update (fun k => (h k).1) (nodup_snoc (h _).1 (h _).2)
  | join t => exact nodup_update (fun k => (h k).1) (nodup_snoc (h _).1 (h _).2)
  | _ => exact (h cv).1

theorem nodup_enqueue_lockq (h : ∀ m, (s.lockq m).Nodup ∧ s.current ∉ s.lockq m) (m : Mid) :
    ((s.enqueue c).lockq m).Nodup := by
  cases c with
  | mutexLock n => exact nodup_update (fun k => (h k).1) (nodup_snoc (h _).1 (h _).2)
  | _ => exact (h m).1

theorem nodup_enqueue_ioq (h : s.ioq.Nodup) (hc : s.current ∉ s.ioq) :
    (s.enqueue c).ioq.Nodup := by
  cases c with
  | poll _ _ => exact nodup_snoc h hc
  | _ => exact h

theorem mem_dequeue_waitq {cv : Cid} (hu : u ≠ s.current) :
    u ∈ (s.dequeue c).waitq cv ↔ u ∈ s.waitq cv := by
  cases c with
  | condWait n _ => exact mem_update_erase hu
  | join t => exact mem_update_erase hu
  | _ => exact Iff.rfl

theorem mem_dequeue_lockq {m : Mid} (hu : u ≠ s.current) :
    u ∈ (s.dequeue c).lockq m ↔ u ∈ s.lockq m := by
  cases c with
  | mutexLock n => exact mem_update_erase hu
  | _ => exact Iff.rfl

theorem mem_dequeue_ioq (hu : u ≠ s.current) : u ∈ (s.dequeue c).ioq ↔ u ∈ s.ioq := by
  cases c with
  | poll _ _ => exact List.mem_erase_of_ne hu
  | _ => exact Iff.rfl

/-- A thread behind the switch of a call is on no queue once it is taken off that of the call. -/
theorem Queued.dequeue (Q : s.Queued) (hpc : (s.thread s.current).pc = .inside c) :
    (∀ cv, ((s.dequeue c).waitq cv).Nodup ∧ s.current ∉ (s.dequeue c).waitq cv) ∧
      (∀ m, ((s.dequeue c).lockq m).Nodup ∧ s.current ∉ (s.dequeue c).lockq m) ∧
      (s.dequeue c).ioq.Nodup ∧ s.current ∉ (s.dequeue c).ioq := by
  have hcond : ∀ cv, s.current ∈ s.waitq cv → (Pc.inside c).cond = some cv := fun cv h =>
    hpc ▸ (Q.waitq cv _).mp h
  have hlock : ∀ m, s.current ∈ s.lockq m → (Pc.inside c).lock = some m := fun m h =>
    hpc ▸ (Q.lockq m _).mp h
  have hpoll : s.current ∈ s.ioq → (Pc.inside c).Polls := fun h => hpc ▸ Q.ioq _ h
  have herase : ∀ l : List Tid, l.Nodup → (l.erase s.current).Nodup ∧
      s.current ∉ l.erase s.current := fun l hl => ⟨hl.erase _, hl.not_mem_erase⟩
  refine ⟨fun cv => ?_, fun m => ?_, ?_⟩
  · have hout : ∀ k, (Pc.inside c).cond ≠ some k → (s.waitq k).Nodup ∧ s.current ∉ s.waitq k :=
      fun k hk => ⟨Q.waitqNodup k, fun h => hk (hcond k h)⟩
    cases c with
    | condWait n _ =>
        by_cases hk : cv = .user n
        · subst hk
          simpa [Vp.dequeue] using herase _ (Q.waitqNodup _)
        · simpa [Vp.dequeue, hk] using hout cv (by simpa [Pc.cond] using Ne.symm hk)
    | join t =>
        by_cases hk : cv = .term t
        · subst hk
          simpa [Vp.dequeue] using herase _ (Q.waitqNodup _)
        · simpa [Vp.dequeue, hk] using hout cv (by simpa [Pc.cond] using Ne.symm hk)
    | _ => exact hout cv (by simp [Pc.cond])
  · have hout : ∀ k, (Pc.inside c).lock ≠ some k → (s.lockq k).Nodup ∧ s.current ∉ s.lockq k :=
      fun k hk => ⟨Q.lockqNodup k, fun h => hk (hlock k h)⟩
    cases c with
    | mutexLock n =>
        by_cases hk : m = n
        · subst hk
          simpa [Vp.dequeue] using herase _ (Q.lockqNodup _)
        · simpa [Vp.dequeue, hk] using hout m (by simpa [Pc.lock] using Ne.symm hk)
    | _ => exact hout m (by simp [Pc.lock])
  · cases c with
    | poll _ _ => exact herase _ Q.ioqNodup
    | _ => exact ⟨Q.ioqNodup, fun h => by simpa [Pc.Polls] using hpoll h⟩

theorem polls_of_waitState (h : c.waitState = .ioWait) : (Pc.inside c).Polls := by
  cases c with
  | poll _ _ => trivial
  | usleep usecs =>
      rw [Call.waitState] at h
      split at h <;> cases h
  | _ => cases h

/-- The current thread waits on the queue of its call, where `s₀` has it on no queue. -/
theorem Queued.park_enqueue {s₀ : Vp} (Q : s.Queued) (hthread : s₀.thread = s.thread)
    (hcur : s₀.current = s.current)
    (hw : ∀ cv, (s₀.waitq cv).Nodup ∧ s.current ∉ s₀.waitq cv)
    (hw' : ∀ cv u, u ≠ s.current → (u ∈ s₀.waitq cv ↔ u ∈ s.waitq cv))
    (hl : ∀ m, (s₀.lockq m).Nodup ∧ s.current ∉ s₀.lockq m)
    (hl' : ∀ m u, u ≠ s.current → (u ∈ s₀.lockq m ↔ u ∈ s.lockq m))
    (hio : s₀.ioq.Nodup) (hioc : s.current ∉ s₀.ioq)
    (hio' : ∀ u, u ≠ s.current → (u ∈ s₀.ioq ↔ u ∈ s.ioq)) (hst : st = c.waitState) :
    ((s₀.enqueue c).park st b q (.inside c)).Queued := by
  refine Q.update s.current
    { s.thread s.current with state := st, onSleepq := b, pc := .inside c } ?_ (fun cv u => ?_)
    (nodup_enqueue_waitq (hcur ▸ hw)) (fun m u => ?_) (nodup_enqueue_lockq (hcur ▸ hl))
    (fun u hu => ?_) (fun h => ?_) (nodup_enqueue_ioq hio (hcur ▸ hioc)) (fun _ h => ?_)
  · show Function.update (s₀.enqueue c).thread (s₀.enqueue c).current _ = _
    rw [enqueue_thread, enqueue_current, hthread, hcur]
  · show u ∈ (s₀.enqueue c).waitq cv ↔ _
    rw [mem_enqueue_waitq, hcur]
    split
    next hu => simp [hu, (hw cv).2]
    next hu => simp [hu, hw' cv u hu]
  · show u ∈ (s₀.enqueue c).lockq m ↔ _
    rw [mem_enqueue_lockq, hcur]
    split
    next hu => simp [hu, (hl m).2]
    next hu => simp [hu, hl' m u hu]
  · show u ∈ (s₀.enqueue c).ioq ↔ _
    rw [mem_enqueue_ioq, hcur]
    simp [hu, hio' u hu]
  · have h : s.current ∈ (s₀.enqueue c).ioq := h
    rw [mem_enqueue_ioq, hcur] at h
    exact (h.resolve_left hioc).2
  · show s.current ∈ (s₀.enqueue c).ioq
    rw [mem_enqueue_ioq, hcur]
    exact .inr ⟨rfl, polls_of_waitState (hst.symm.trans h)⟩

/-- The current thread is taken off the queue of its call, and goes to a place with no queue. -/
theorem Queued.back (Q : s.Queued) (hpc : (s.thread s.current).pc = .inside c) (hf : Free th.pc)
    (hst : th.state ≠ .ioWait) : ((s.dequeue c).setCurrent th).Queued := by
  obtain ⟨hw, hl, hio, hioc⟩ := Q.dequeue hpc
  refine Q.update s.current th ?_ (fun cv u => ?_) (fun cv => (hw cv).1)
    (fun m u => ?_) (fun m => (hl m).1) (fun u hu => mem_dequeue_ioq hu) (fun h => ?_) hio
    (fun _ h => absurd h hst)
  · show Function.update (s.dequeue c).thread (s.dequeue c).current th = _
    rw [dequeue_thread, dequeue_current]
  · show u ∈ (s.dequeue c).waitq cv ↔ _
    split
    next hu => simp [hu, (hw cv).2, hf.cond]
    next hu => exact mem_dequeue_waitq hu
  · show u ∈ (s.dequeue c).lockq m ↔ _
    split
    next hu => simp [hu, (hl m).2, hf.lock]
    next hu => exact mem_dequeue_lockq hu
  · exact absurd h hioc

theorem Queued.scheduled (Q : s.Queued) : s.schedule.Queued := by
  have hpc : ∀ t, (s.schedule.thread t).pc = (s.thread t).pc ∧
      ((s.schedule.thread t).state = .ioWait → (s.thread t).state = .ioWait) := by
    intro t
    rw [Vp.schedule]
    split
    next v _ _ => by_cases hv : t = v <;> simp [setState, Vp.modify, hv]
    next => by_cases hv : t = s.idleThread <;> simp [setState, Vp.modify, hv]
  refine Q.congr (fun t => (hpc t).1) ?_ ?_ ?_ (fun t => (hpc t).2) <;>
  · rw [Vp.schedule]
    split <;> rfl

theorem Queued.wake (Q : s.Queued) (W : Wake s why t s') : s'.Queued := by
  have hsame := W.same
  obtain ⟨p, rfl, -⟩ := W.eq
  have hio : ∀ u, u ≠ t → (u ∈ (s.wake why t p).ioq ↔ u ∈ s.ioq) := fun u hu => by
    cases why <;> simp [Vp.wake, List.mem_erase_of_ne hu]
  refine ⟨fun cv u => ?_, Q.waitqNodup, fun m u => ?_, Q.lockqNodup, fun u hu => ?_, ?_,
    fun u hl hst => ?_⟩
  · rw [hsame.pc]
    exact Q.waitq cv u
  · rw [hsame.pc]
    exact Q.lockq m u
  · rw [hsame.pc]
    refine Q.ioq u ?_
    cases why with
    | ready => exact List.mem_of_mem_erase hu
    | _ => exact hu
  · cases why with
    | ready => exact Q.ioqNodup.erase t
    | _ => exact Q.ioqNodup
  · by_cases hut : u = t
    · rw [hut, W.thread_self, Why.thread_state] at hst
      cases hst
    · rw [Live, hsame.pc] at hl
      rw [W.thread_of_ne hut] at hst
      exact (hio u hut).mpr (Q.ioWait u hl hst)

theorem Queued.woken (Q : s.Queued) (W : Woken s ws s') : s'.Queued := by
  induction W with
  | nil => exact Q
  | cons h _ ih => exact ih (Q.wake h)

theorem free_user : Free .user := ⟨rfl, rfl, id⟩

/-- A thread that can be joined ends. -/
theorem Queued.buried (Q : s.Queued) (hf : Free (s.thread s.current).pc) (retval : Nat) :
    (s.buried retval).Queued := by
  refine Q.free s.current ((s.buried retval).thread s.current) hf ?_ ?_ rfl rfl rfl ?_
  · rw [thread_buried]
    exact ⟨rfl, rfl, id⟩
  · funext u
    by_cases hu : u = s.current
    · simp [hu]
    · rw [thread_buried_of_ne hu, Function.update_of_ne hu]
  · rw [thread_buried]
    simp

theorem Queued.makeRunnable (Q : s.Queued) : (s.makeRunnable t).Queued := by
  refine Q.congr (fun u => pc_makeRunnable) rfl rfl rfl fun u h => ?_
  by_cases hu : u = t
  · simp [Vp.makeRunnable, setState, Vp.modify, hu] at h
  · simpa [Vp.makeRunnable, setState, Vp.modify, hu] using h

/-- **Every step keeps the queues.** -/
theorem Turn.queued (T : Turn s l s' evs) (I : Core s (some s.current)) (Q : s.Queued)
    (he : s.Enabled l) : s'.Queued := by
  have hcall : ∀ {c}, l = .call c → Free (s.thread s.current).pc := by
    rintro c rfl
    rw [he.1]
    exact free_user
  have hrun : (s.thread s.current).state ≠ .ioWait := by
    rw [I.current_state]
    simp
  have hclock : ∀ now, Queued { s with lastClock := now } := fun now =>
    Q.congr (fun _ => rfl) rfl rfl rfl fun _ => id
  cases T with
  | create joinable =>
      have hdead : ¬ s.Live s.next := I.fresh _ (Nat.le_refl _)
      refine Q.free s.next ⟨.runnable, false, false, false, joinable, 0, .start⟩ ?_
        ⟨rfl, rfl, id⟩ rfl rfl rfl rfl (by simp)
      rw [not_not.mp hdead]
      exact ⟨rfl, rfl, id⟩
  | refused h => exact Q
  | interrupted h hc hy =>
      refine Q.congr (fun t => pc_clearInterrupt) rfl rfl rfl fun t ht => ?_
      by_cases htc : t = s.current
      · simpa [clearInterrupt, Vp.modify, htc] using ht
      · simpa [clearInterrupt, Vp.modify, htc] using ht
  | waits h hw hq =>
      obtain ⟨h1, h2, h3⟩ := Q.notMem_of_free (hcall rfl)
      exact (Q.park_enqueue rfl rfl (fun cv => ⟨Q.waitqNodup cv, h1 cv⟩) (fun _ _ _ => Iff.rfl)
        (fun m => ⟨Q.lockqNodup m, h2 m⟩) (fun _ _ _ => Iff.rfl) Q.ioqNodup h3
        (fun _ _ => Iff.rfl) rfl).scheduled
  | signals W => exact Q.woken W
  | locks h hi ho => exact Q.congr (fun _ => rfl) rfl rfl rfl fun _ => id
  | unlocks ho hn => exact Q.congr (fun _ => rfl) rfl rfl rfl fun _ => id
  | @handsOver m t _ _ _ ho hq hpre ht W =>
      have Q' : Queued { s with owner := Function.update s.owner m (some t) } :=
        Q.congr (fun _ => rfl) rfl rfl rfl fun _ => id
      exact Q'.wake W
  | @flags t hl hni h =>
      refine Q.congr (fun u => ?_) rfl rfl rfl fun u hu => ?_ <;> by_cases hut : u = t
      · simp [Vp.modify, hut]
      · simp [Vp.modify, hut]
      · simpa [Vp.modify, hut] using hu
      · simpa [Vp.modify, hut] using hu
  | @interrupts t _ hl W =>
      have Q' : Queued (s.modify t fun th => { th with interrupt := true }) := by
        refine Q.congr (fun u => ?_) rfl rfl rfl fun u hu => ?_ <;> by_cases hut : u = t
        · simp [Vp.modify, hut]
        · simp [Vp.modify, hut]
        · simpa [Vp.modify, hut] using hu
        · simpa [Vp.modify, hut] using hu
      exact Q'.wake W
  | @yields now ts s₁ hts W hr =>
      have Q₁ := (hclock now).woken W
      refine Queued.scheduled (Q₁.free s₁.current { s₁.thread s₁.current with
        state := .runnable, onSleepq := false, pc := .inside (.yield now) } ?_ ⟨rfl, rfl, id⟩
        rfl rfl rfl rfl (by simp))
      rw [W.same.pc, W.same.current]
      exact hcall rfl
  | @stays now _ _ hts W hr => exact (hclock now).woken W
  | @exits retval h =>
      have Q₁ : (s.ended retval).Queued :=
        Q.free s.current { s.thread s.current with retval := retval } (hcall rfl) (hcall rfl) rfl
          rfl rfl rfl (fun _ => hrun)
      refine Queued.scheduled (Q₁.free s.current { (s.ended retval).thread s.current with
        state := .running, onSleepq := false, pc := .gone } ?_ ⟨rfl, rfl, id⟩ rfl rfl rfl rfl
        (by simp))
      simpa [ended, setCurrent] using hcall rfl
  | @dies retval _ h W => exact ((Q.buried (hcall rfl) retval).woken W).scheduled
  | @joins t hl hne hj hq hz =>
      have Q' : Queued { s with zombieq := s.zombieq.erase t } :=
        Q.congr (fun _ => rfl) rfl rfl rfl fun _ => id
      exact Q'.makeRunnable
  | starts h =>
      refine Q.free s.current { s.thread s.current with pc := .user } ?_ free_user rfl rfl rfl rfl
        (fun _ => hrun)
      rw [h]
      exact ⟨rfl, rfl, id⟩
  | @returns c h hj => exact Q.back h free_user hrun
  | @rejoins t b q h hr hz hq =>
      obtain ⟨hw, hl, hio, hioc⟩ := Q.dequeue h
      exact (Q.park_enqueue dequeue_thread dequeue_current hw
        (fun _ _ hu => mem_dequeue_waitq hu) hl (fun _ _ hu => mem_dequeue_lockq hu) hio hioc
        (fun _ hu => mem_dequeue_ioq hu) rfl).scheduled
  | @joined t h hr hz =>
      have Q₁ : ((s.dequeue (.join t)).setCurrent (s.backThread (.join t))).Queued :=
        Q.back h free_user hrun
      have Q₂ : Queued { (s.dequeue (.join t)).setCurrent (s.backThread (.join t)) with
          zombieq := s.zombieq.erase t } :=
        Q₁.congr (fun _ => rfl) rfl rfl rfl fun _ => id
      exact Q₂.makeRunnable
  | ends h =>
      have hfree : Free (s.thread s.current).pc := by
        rw [h]
        exact ⟨rfl, rfl, id⟩
      have Q₁ : (s.setCurrent { s.thread s.current with joinable := false }).Queued :=
        Q.free s.current { s.thread s.current with joinable := false } hfree hfree rfl rfl rfl rfl
          (fun _ => hrun)
      refine Queued.scheduled (Q₁.free s.current { s.thread s.current with
        joinable := false, state := .running, onSleepq := false, pc := .gone } ?_ ⟨rfl, rfl, id⟩
        ?_ rfl rfl rfl (by simp))
      · simpa [setCurrent] using hfree
      · simp [setCurrent, park]
  | @idles ready ts now s₁ s₂ D hts W =>
      have Q₁ : Queued { s₁ with lastClock := now } :=
        (Q.woken D).congr (fun _ => rfl) rfl rfl rfl fun _ => id
      have Q₂ := Q₁.woken W
      have hpc : (s₂.thread s₂.current).pc = .idle := by
        rw [W.same.pc, W.same.current]
        exact (D.same.pc _).trans ((congrArg (fun t => (s.thread t).pc) D.same.current).trans he.1)
      refine Queued.scheduled (Q₂.free s₂.current { s₂.thread s₂.current with
        state := .runnable, onSleepq := false, pc := .idle } ?_ ⟨rfl, rfl, id⟩ rfl rfl rfl rfl
        (by simp))
      rw [hpc]
      exact ⟨rfl, rfl, id⟩

end StCoroutine.Sched.Vp
