import StCoroutine.Sched.Clock

/-!
# Switch — the running thread waits, ends or goes on, and another runs

The calls of the library, each as what it does to the current thread: it is parked in a state with
its place in the code, or it goes on.  `Core` holds again once the scheduler has chosen another
thread.
-/

set_option autoImplicit false

namespace StCoroutine.Sched.Vp

variable {s s' : Vp} {run : Option Tid} {t u me : Tid} {th : Thread} {st : State} {b : Bool}
  {q : SleepQ} {pc : Pc}

theorem nodup_snoc {l : List Tid} (hn : l.Nodup) (ht : t ∉ l) : (l ++ [t]).Nodup := by
  refine List.nodup_append.mpr ⟨hn, by simp, fun a ha c hc e => ht ?_⟩
  rwa [← List.mem_singleton.mp hc, ← e]

/-! ### The current thread -/

theorem Core.current_live (I : Core s (some s.current)) : s.Live s.current := I.runs _ rfl

theorem Core.current_state (I : Core s (some s.current)) :
    (s.thread s.current).state = .running := (I.running _ I.current_live).mpr rfl

theorem Core.current_awake (I : Core s (some s.current)) :
    (s.thread s.current).onSleepq = false := by
  cases h : (s.thread s.current).onSleepq with
  | false => rfl
  | true =>
      have := ((I.ok _).timed h).1
      rw [I.current_state] at this
      exact this.elim

theorem Core.current_notMem (I : Core s (some s.current)) :
    s.current ∉ s.runq ∧ s.current ∉ s.zombieq := by
  refine ⟨fun h => ?_, fun h => ?_⟩
  · have := ((I.runq _).mp h).2.2
    rw [I.current_state] at this
    cases this
  · have := ((I.zombieq _).mp h).2
    rw [I.current_state] at this
    cases this

/-- **`_st_vp_schedule`** runs the first thread of the run queue, or the idle thread. -/
theorem Core.scheduled (I : Core s none) : Core s.schedule (some s.schedule.current) := by
  have hnorun : ∀ u, s.Live u → (s.thread u).state ≠ .running := fun u hl e => by
    have := (I.running u hl).mp e
    cases this
  cases hq : s.runq with
  | cons t rest =>
      have ht : t ∈ s.runq := by rw [hq]; exact List.mem_cons_self
      obtain ⟨hl, hni, hst⟩ := (I.runq t).mp ht
      have hn : (t :: rest).Nodup := hq ▸ I.runqNodup
      obtain ⟨htr, hn⟩ := List.nodup_cons.mp hn
      have e : s.schedule = { s.setState t .running with runq := rest, current := t } := by
        rw [Vp.schedule, hq]
      rw [e]
      refine I.update (show _ = Function.update s.thread t { s.thread t with state := .running }
        from rfl) (Nat.le_refl _) rfl ⟨?_, fun h => ?_⟩ (fun _ => I.lt_next hl) (I.idle t)
        (fun u hu => by simp [Ne.symm hu]) (fun _ => iff_of_true rfl rfl) (fun _ => hl)
        (fun u => ?_) hn (fun u => ?_) I.zombieqNodup (I.heap.congr fun u => ?_)
      · have := (I.ok t).state
        rw [hst] at this
        show (s.thread t).pc.Allows .running
        cases hpc : (s.thread t).pc <;> rw [hpc] at this <;> simp_all [Pc.Allows]
      · have := ((I.ok t).timed h).1
        rw [hst] at this
        exact this.elim
      · show u ∈ rest ↔ _
        split
        next hu => exact iff_of_false (hu ▸ htr) (by simp)
        next hu => simp [hq, hu]
      · show u ∈ s.zombieq ↔ _
        split
        next hu =>
          refine iff_of_false (fun h => ?_) (by simp)
          have := ((I.zombieq u).mp h).2
          rw [hu, hst] at this
          cases this
        next => exact Iff.rfl
      · split
        next hu => rw [hu]
        next => exact Iff.rfl
  | nil =>
      have e : s.schedule =
          { s.setState s.idleThread .running with current := s.idleThread } := by
        rw [Vp.schedule, hq]
      have hpc : (s.thread s.idleThread).pc = .idle := (I.idle _).mpr rfl
      have hl : s.Live s.idleThread := by
        rw [Live, hpc]
        simp
      have hst : (s.thread s.idleThread).state = .runnable := by
        have := (I.ok s.idleThread).state
        rw [hpc] at this
        exact this.resolve_right (hnorun _ hl)
      rw [e]
      refine I.update (show _ = Function.update s.thread s.idleThread
        { s.thread s.idleThread with state := .running } from rfl) (Nat.le_refl _) rfl
        ⟨?_, fun h => ?_⟩ (fun _ => I.lt_next hl) (I.idle _) (fun u hu => by simp [Ne.symm hu])
        (fun _ => iff_of_true rfl rfl) (fun _ => hl) (fun u => ?_) I.runqNodup (fun u => ?_)
        I.zombieqNodup (I.heap.congr fun u => ?_)
      · rw [hpc]
        exact .inr rfl
      · have := ((I.ok _).timed h).1
        rw [hst] at this
        exact this.elim
      · show u ∈ s.runq ↔ _
        rw [hq]
        split
        next hu => simp
        next hu => rfl
      · show u ∈ s.zombieq ↔ _
        split
        next hu =>
          refine iff_of_false (fun h => ?_) (by simp)
          have := ((I.zombieq u).mp h).2
          rw [hu, hst] at this
          cases this
        next => exact Iff.rfl
      · split
        next hu => rw [hu]
        next => exact Iff.rfl

/-- The current thread is put in the state `st`, to go on at `pc`; `b` says that it is on the
sleep queue `q`. -/
def park (s : Vp) (st : State) (b : Bool) (q : SleepQ) (pc : Pc) : Vp :=
  { s with
    thread := Function.update s.thread s.current
      { s.thread s.current with state := st, onSleepq := b, pc := pc }
    heap := q }

/-- The sleep queue `q` is that of `s` with the current thread on it, if `b` is true. -/
def Beds (s : Vp) (b : Bool) (q : SleepQ) : Prop :=
  q.Sleeps fun u => (s.thread u).onSleepq = true ∨ (u = s.current ∧ b = true)

theorem Core.beds_false (I : Core s run) : s.Beds false s.heap :=
  I.heap.congr fun _ => by simp

theorem Core.sleeps_park (I : Core s (some s.current)) (hq : s.Beds b q) :
    q.Sleeps fun u => if u = s.current then b = true else (s.thread u).onSleepq = true := by
  refine hq.congr fun u => ?_
  by_cases hu : u = s.current
  · simp [hu, I.current_awake]
  · simp [hu]

/-- **The current thread waits.** -/
theorem Core.park (I : Core s (some s.current)) (hq : s.Beds b q) (hb : st.Blocked)
    (ht : b = true → st.Timed) (hpc : pc.Allows st) (hni : pc ≠ .idle) (hng : pc ≠ .gone)
    (hcur : s.current ≠ s.idleThread) : Core (s.park st b q pc) none := by
  obtain ⟨hnr, hnz⟩ := I.current_notMem
  refine I.update (show _ = Function.update s.thread s.current
    { s.thread s.current with state := st, onSleepq := b, pc := pc } from rfl) (Nat.le_refl _) rfl
    ⟨hpc, fun h => ⟨ht h, hng⟩⟩ (fun _ => I.lt_next I.current_live) (iff_of_false hni hcur)
    (fun u hu => by simp [Ne.symm hu]) (fun _ => ?_) (fun h => by cases h) (fun u => ?_)
    I.runqNodup (fun u => ?_) I.zombieqNodup (I.sleeps_park hq)
  · refine iff_of_false (fun e => ?_) (by simp)
    rw [show st = .running from e] at hb
    exact hb
  · show u ∈ s.runq ↔ _
    split
    next hu =>
      refine iff_of_false (hu ▸ hnr) fun h => ?_
      rw [show st = .runnable from h.2.2] at hb
      exact hb
    next => exact Iff.rfl
  · show u ∈ s.zombieq ↔ _
    split
    next hu =>
      refine iff_of_false (hu ▸ hnz) fun h => ?_
      rw [show st = .zombie from h.2] at hb
      exact hb
    next => exact Iff.rfl

/-- The current thread goes to the tail of the run queue. -/
theorem Core.park_runnable (I : Core s (some s.current)) (hpc : pc.Allows .runnable)
    (hni : pc ≠ .idle) (hng : pc ≠ .gone) (hcur : s.current ≠ s.idleThread) :
    Core { s.park .runnable false s.heap pc with runq := s.runq ++ [s.current] } none := by
  obtain ⟨hnr, hnz⟩ := I.current_notMem
  refine I.update (show _ = Function.update s.thread s.current
    { s.thread s.current with state := .runnable, onSleepq := false, pc := pc } from rfl)
    (Nat.le_refl _) rfl ⟨hpc, fun h => by cases h⟩ (fun _ => I.lt_next I.current_live)
    (iff_of_false hni hcur) (fun u hu => by simp [Ne.symm hu])
    (fun _ => iff_of_false (by simp) (by simp)) (fun h => by cases h) (fun u => ?_) ?_
    (fun u => ?_) I.zombieqNodup (I.sleeps_park I.beds_false)
  · show u ∈ s.runq ++ [s.current] ↔ _
    split
    next hu => exact iff_of_true (by simp [hu]) ⟨hng, hcur, rfl⟩
    next hu => simp [hu]
  · exact nodup_snoc I.runqNodup hnr
  · show u ∈ s.zombieq ↔ _
    split
    next hu => exact iff_of_false (hu ▸ hnz) (by simp)
    next => exact Iff.rfl

/-- The idle thread is runnable, but on no queue. -/
theorem Core.park_idle (I : Core s (some s.current)) (hcur : s.current = s.idleThread) :
    Core (s.park .runnable false s.heap .idle) none := by
  obtain ⟨hnr, hnz⟩ := I.current_notMem
  refine I.update (show _ = Function.update s.thread s.current
    { s.thread s.current with state := .runnable, onSleepq := false, pc := .idle } from rfl)
    (Nat.le_refl _) rfl ⟨.inl rfl, fun h => by cases h⟩ (fun _ => I.lt_next I.current_live)
    (iff_of_true rfl hcur) (fun u hu => by simp [Ne.symm hu])
    (fun _ => iff_of_false (by simp) (by simp)) (fun h => by cases h) (fun u => ?_) I.runqNodup
    (fun u => ?_) I.zombieqNodup (I.sleeps_park I.beds_false)
  · show u ∈ s.runq ↔ _
    split
    next hu => exact iff_of_false (hu ▸ hnr) fun h => h.2.1 hcur
    next => exact Iff.rfl
  · show u ∈ s.zombieq ↔ _
    split
    next hu => exact iff_of_false (hu ▸ hnz) (by simp)
    next => exact Iff.rfl

/-- The current thread is gone. -/
theorem Core.park_gone (I : Core s (some s.current)) (hcur : s.current ≠ s.idleThread)
    (hst : st ≠ .zombie) : Core (s.park st false s.heap .gone) none := by
  obtain ⟨hnr, hnz⟩ := I.current_notMem
  refine I.update (show _ = Function.update s.thread s.current
    { s.thread s.current with state := st, onSleepq := false, pc := .gone } from rfl)
    (Nat.le_refl _) rfl ⟨hst, fun h => by cases h⟩ (fun h => absurd rfl h)
    (iff_of_false (by simp) hcur) (fun u hu => by simp [Ne.symm hu])
    (fun h => absurd rfl h) (fun h => by cases h) (fun u => ?_) I.runqNodup
    (fun u => ?_) I.zombieqNodup (I.sleeps_park I.beds_false)
  · show u ∈ s.runq ↔ _
    split
    next hu => exact iff_of_false (hu ▸ hnr) fun h => h.1 rfl
    next => exact Iff.rfl
  · show u ∈ s.zombieq ↔ _
    split
    next hu => exact iff_of_false (hu ▸ hnz) fun h => h.1 rfl
    next => exact Iff.rfl

/-- The current thread is put on the zombie queue. -/
theorem Core.park_zombie (I : Core s (some s.current)) (hcur : s.current ≠ s.idleThread) :
    Core { s.park .zombie false s.heap .exit with zombieq := s.zombieq ++ [s.current] } none := by
  obtain ⟨hnr, hnz⟩ := I.current_notMem
  refine I.update (show _ = Function.update s.thread s.current
    { s.thread s.current with state := .zombie, onSleepq := false, pc := .exit } from rfl)
    (Nat.le_refl _) rfl ⟨.inl rfl, fun h => by cases h⟩ (fun _ => I.lt_next I.current_live)
    (iff_of_false (by simp) hcur) (fun u hu => by simp [Ne.symm hu])
    (fun _ => iff_of_false (by simp) (by simp)) (fun h => by cases h) (fun u => ?_) I.runqNodup
    (fun u => ?_) ?_ (I.sleeps_park I.beds_false)
  · show u ∈ s.runq ↔ _
    split
    next hu => exact iff_of_false (hu ▸ hnr) (by simp)
    next => exact Iff.rfl
  · show u ∈ s.zombieq ++ [s.current] ↔ _
    split
    next hu => exact iff_of_true (by simp [hu]) ⟨by simp, rfl⟩
    next hu => simp [hu]
  · exact nodup_snoc I.zombieqNodup hnz

theorem Core.live_of_zombie (I : Core s run) (hz : (s.thread t).state = .zombie) : s.Live t := by
  intro e
  have := (I.ok t).state
  rw [e] at this
  exact this hz

/-- A zombie is behind the first switch of `st_thread_exit`. -/
theorem Core.exit_of_zombie (I : Core s run) (hz : (s.thread t).state = .zombie) :
    (s.thread t).pc = .exit := by
  have hok := (I.ok t).state
  rw [hz] at hok
  cases hpc : (s.thread t).pc with
  | exit => rfl
  | gone => exact absurd hpc (I.live_of_zombie hz)
  | inside c =>
      rw [hpc] at hok
      rcases hok.2 with e | e | e
      · cases c <;> simp [Call.waitState] at e
        split at e <;> cases e
      · cases e
      · cases e
  | start | idle =>
      rw [hpc] at hok
      rcases hok with e | e <;> cases e
  | user =>
      rw [hpc] at hok
      cases hok

/-- A zombie that was joined is to be run once more. -/
theorem Core.collect (I : Core s run) (hz : (s.thread t).state = .zombie) :
    Core (({ s with zombieq := s.zombieq.erase t } : Vp).makeRunnable t) run := by
  have hl := I.live_of_zombie hz
  have hnr : t ∉ s.runq := fun h => by
    have := ((I.runq t).mp h).2.2
    rw [hz] at this
    cases this
  have hpc := I.exit_of_zombie hz
  have hni : t ≠ s.idleThread := fun e => by
    have := (I.idle t).mpr e
    rw [hpc] at this
    cases this
  have hsleep : (s.thread t).onSleepq = false := by
    cases h : (s.thread t).onSleepq with
    | false => rfl
    | true =>
        have := ((I.ok t).timed h).1
        rw [hz] at this
        exact this.elim
  refine I.update (show _ = Function.update s.thread t { s.thread t with state := .runnable }
    from rfl) (Nat.le_refl _) rfl ⟨?_, fun h => ?_⟩ (fun _ => I.lt_next hl) (I.idle t)
    (fun _ _ => Iff.rfl) (fun _ => ?_) (I.runs t) (fun u => ?_) ?_ (fun u => ?_)
    (I.zombieqNodup.erase t) (I.heap.congr fun u => ?_)
  · rw [hpc]
    exact .inr (.inl rfl)
  · rw [show (s.thread t).onSleepq = true from h] at hsleep
    cases hsleep
  · refine iff_of_false (by simp) fun h => ?_
    have := (I.running t hl).mpr h
    rw [hz] at this
    cases this
  · show u ∈ s.runq ++ [t] ↔ _
    split
    next hu => exact iff_of_true (by simp [hu]) ⟨hl, hni, rfl⟩
    next hu => simp [hu]
  · exact nodup_snoc I.runqNodup hnr
  · show u ∈ s.zombieq.erase t ↔ _
    split
    next hu =>
      rw [hu]
      exact iff_of_false (I.zombieqNodup.not_mem_erase) (by simp)
    next hu => exact List.mem_erase_of_ne hu
  · split
    next hu => rw [hu]
    next => exact Iff.rfl

/-- A new thread. -/
theorem Core.create (I : Core s run) (joinable : Bool) : Core (s.threadCreate joinable) run := by
  have hdead : ¬ s.Live s.next := I.fresh _ (Nat.le_refl _)
  have hni : s.next ≠ s.idleThread := fun e => by
    refine hdead ?_
    rw [Live, (I.idle s.next).mpr e]
    simp
  have hnr : s.next ∉ s.runq := fun h => hdead ((I.runq _).mp h).1
  refine I.update (show _ = Function.update s.thread s.next
    ⟨.runnable, false, false, false, joinable, 0, .start⟩ from rfl) (Nat.le_succ _) rfl
    ⟨.inl rfl, fun h => by cases h⟩ (fun _ => Nat.lt_succ_self _) (iff_of_false (by simp) hni)
    (fun _ _ => Iff.rfl) (fun _ => ?_) (fun h => absurd (I.runs _ h) hdead) (fun u => ?_) ?_
    (fun u => ?_) I.zombieqNodup (I.heap.congr fun u => ?_)
  · exact iff_of_false (by simp) fun h => hdead (I.runs _ h)
  · show u ∈ s.runq ++ [s.next] ↔ _
    split
    next hu => exact iff_of_true (by simp [hu]) ⟨by simp, hni, rfl⟩
    next hu => simp [hu]
  · exact nodup_snoc I.runqNodup hnr
  · show u ∈ s.zombieq ↔ _
    split
    next hu => exact iff_of_false (fun h => hdead (hu ▸ ((I.zombieq _).mp h).1)) (by simp)
    next => exact Iff.rfl
  · split
    next hu =>
      refine iff_of_false (by simp) fun h => hdead ?_
      exact hu ▸ ((I.ok u).timed h).2
    next => exact Iff.rfl

/-- A change of the current thread that leaves it running. -/
theorem Core.current (I : Core s (some s.current))
    (hthread : s'.thread = Function.update s.thread s.current th) (hheap : s'.heap = s.heap)
    (hidle : s'.idleThread = s.idleThread) (hrunq : s'.runq = s.runq)
    (hzom : s'.zombieq = s.zombieq) (hnext : s'.next = s.next)
    (hstate : th.state = .running) (hsleep : th.onSleepq = false)
    (hpc : th.pc = (s.thread s.current).pc ∨ (th.pc = .user ∧ s.current ≠ s.idleThread)) :
    Core s' (some s.current) := by
  refine I.modify hthread hheap hidle hrunq hzom hnext ⟨?_, fun h => ?_⟩
    (hstate.trans I.current_state.symm) (hsleep.trans I.current_awake.symm) ?_ ?_
  · rcases hpc with e | ⟨e, -⟩
    · rw [e, hstate, ← I.current_state]
      exact (I.ok _).state
    · rw [e]
      exact hstate
  · rw [hsleep] at h
    cases h
  · rcases hpc with e | ⟨e, -⟩
    · rw [e]
      exact Iff.rfl
    · rw [e]
      exact iff_of_true (by simp) I.current_live
  · rcases hpc with e | ⟨e, hni⟩
    · rw [e]
    · rw [e]
      exact iff_of_false (by simp) fun h => hni ((I.idle _).mp h)

end StCoroutine.Sched.Vp
