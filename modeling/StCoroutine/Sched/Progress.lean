import Mathlib.Data.Finset.Card
import Mathlib.Data.Finset.Range
import StCoroutine.Sched.Joining

/-!
# Progress — the scheduler always goes on

Every enabled step can be taken, and one is enabled until all threads have ended: then, and only
then, is `_st_active_count` 0, and the loop of the idle thread ends.  `st_thread_yield` and the idle
thread check the clock: the threads that are due come to the head of the run queue, those due last
first, before the threads whose descriptors are ready, and none that is due stays asleep.
-/

set_option autoImplicit false

namespace StCoroutine.Sched
open Lts

/-- The thread has not ended, and is not the idle thread: `_st_active_count` counts it. -/
def Pc.Active : Pc → Prop
  | .start | .user | .inside _ => True
  | .idle | .exit | .gone => False

instance : (pc : Pc) → Decidable pc.Active
  | .start | .user | .inside _ => inferInstanceAs (Decidable True)
  | .idle | .exit | .gone => inferInstanceAs (Decidable False)

namespace Vp

variable {s s' : Vp} {run : Option Tid} {t u : Tid} {c : Call} {r : Ret} {l : Label} {e : Ev}
  {evs h : List Ev} {why : Why} {now : Nat}

/-! ### `_st_active_count` -/

/-- The threads that have not ended. -/
def active (s : Vp) : Finset Tid := (Finset.range s.next).filter fun t => (s.thread t).pc.Active

/-- `_st_active_count` is their number. -/
def Counted (s : Vp) : Prop := s.activeCount = s.active.card

theorem Core.mem_active (I : Core s run) : t ∈ s.active ↔ (s.thread t).pc.Active := by
  rw [active, Finset.mem_filter, Finset.mem_range]
  refine and_iff_right_of_imp fun ha => I.lt_next fun e => ?_
  rw [e] at ha
  exact ha

/-- **What a step does to `_st_active_count`.** -/
inductive Counts (s s' : Vp) (evs : List Ev) : Prop where
  | keeps (h : s'.activeCount = s.activeCount) (hn : s'.next = s.next)
      (hev : ∀ retval k, .enter s.current (.exit retval) k ∉ evs)
  | creates {joinable : Bool} (h : s' = s.threadCreate joinable)
  | ends {retval : Nat} (h : s'.activeCount = s.activeCount - 1) (hn : s'.next = s.next)
      (hev : evs = [.enter s.current (.exit retval) s.lastClock])

theorem schedule_counts : s.schedule.activeCount = s.activeCount ∧ s.schedule.next = s.next := by
  rw [Vp.schedule]
  split <;> exact ⟨rfl, rfl⟩

theorem Turn.counts (T : Turn s l s' evs) : Counts s s' evs := by
  have hsame : ∀ {s₁ : Vp}, s₁.activeCount = s.activeCount ∧ s₁.next = s.next →
      (∀ retval k, .enter s.current (.exit retval) k ∉ evs) → Counts s s₁ evs := fun h hev =>
    .keeps h.1 h.2 hev
  have hsched : ∀ {s₁ : Vp}, s₁.activeCount = s.activeCount ∧ s₁.next = s.next →
      s₁.schedule.activeCount = s.activeCount ∧ s₁.schedule.next = s.next := fun h =>
    ⟨schedule_counts.1.trans h.1, schedule_counts.2.trans h.2⟩
  have hne : ∀ {c}, (∀ retval, c ≠ .exit retval) →
      ∀ retval k, Ev.enter s.current (.exit retval) k ≠ .enter s.current c s.lastClock := by
    intro c hc retval k e
    cases e
    exact hc retval rfl
  have hexit : ∀ {c r} retval, s.Refused c r → c ≠ .exit retval := by
    rintro c r retval h rfl
    exact h
  cases T with
  | create joinable => exact .creates rfl
  | refused h => exact hsame ⟨rfl, rfl⟩ (by simp [hne (hexit · h)])
  | @interrupted c h hc hy =>
      have : ∀ retval, c ≠ .exit retval := fun retval e => by rw [e] at hc; exact hc
      exact hsame ⟨rfl, rfl⟩ (by simp [hne this])
  | @waits c _ _ h hw hq =>
      have : ∀ retval, c ≠ .exit retval := fun retval e => by rw [e] at hw; exact hw
      refine hsame (hsched ?_) (by simp [hne this])
      cases c <;> exact ⟨rfl, rfl⟩
  | @signals n broadcast _ W =>
      refine hsame ⟨W.same.activeCount, W.same.next⟩ ?_
      cases broadcast <;> simp
  | locks h =>
      refine hsame ⟨rfl, rfl⟩ ?_
      rcases h with rfl | rfl <;> simp
  | unlocks => exact hsame ⟨rfl, rfl⟩ (by simp)
  | handsOver _ _ _ _ W => exact hsame ⟨W.same.activeCount, W.same.next⟩ (by simp)
  | flags => exact hsame ⟨rfl, rfl⟩ (by simp)
  | interrupts _ W => exact hsame ⟨W.same.activeCount, W.same.next⟩ (by simp)
  | yields _ W => exact hsame (hsched ⟨W.same.activeCount, W.same.next⟩) (by simp)
  | stays _ W => exact hsame ⟨W.same.activeCount, W.same.next⟩ (by simp)
  | exits h => exact .ends schedule_counts.1 schedule_counts.2 rfl
  | dies h W =>
      exact .ends (schedule_counts.1.trans W.same.activeCount)
        (schedule_counts.2.trans W.same.next) rfl
  | joins => exact hsame ⟨rfl, rfl⟩ (by simp)
  | starts => exact hsame ⟨rfl, rfl⟩ (by simp)
  | @returns c h hj => exact hsame (by cases c <;> exact ⟨rfl, rfl⟩) (by simp)
  | rejoins => exact hsame (hsched ⟨rfl, rfl⟩) (by simp)
  | joined => exact hsame ⟨rfl, rfl⟩ (by simp)
  | ends => exact hsame (hsched ⟨rfl, rfl⟩) (by simp)
  | idles D _ W =>
      exact hsame (hsched ⟨W.same.activeCount.trans D.same.activeCount,
        W.same.next.trans D.same.next⟩) (by simp)

/-- A thread that neither begins nor ends is counted as before. -/
theorem Fate.active_iff (F : Fate s s' evs t) (hn : t ≠ s.next)
    (hev : ∀ retval k, .enter t (.exit retval) k ∉ evs) :
    (s'.thread t).pc.Active ↔ (s.thread t).pc.Active := by
  cases F with
  | rests _ h => rw [h.pc]
  | wakes _ _ _ _ h => rw [h.pc, Why.thread_pc]
  | flagged _ _ h | collected _ _ h | calls _ _ _ h => rw [h]
  | created hn' => exact absurd hn' hn
  | @exits retval _ _ _ _ e | @dies retval _ _ _ _ _ e =>
      exact absurd (by rw [e]; exact List.mem_cons_self) (hev retval s.lastClock)
  | yields _ hp h =>
      rw [h.pc, hp]
      exact Iff.rfl
  | idles _ hp h => rw [h.pc, hp]
  | rejoins _ hp _ _ h => rw [h, hp]
  | waits _ hp _ _ h | starts _ hp h | ends _ hp h | returns _ hp _ h | joined _ hp _ _ h =>
      rw [h, hp]
      exact Iff.rfl

/-- A thread that ends is not counted any more. -/
theorem Fate.not_active_of_exit {retval : Nat} (F : Fate s s' evs s.current)
    (hev : evs = [.enter s.current (.exit retval) s.lastClock]) :
    ¬ (s'.thread s.current).pc.Active ∧ (s.thread s.current).pc.Active := by
  subst hev
  cases F with
  | exits _ hp _ h | dies _ hp _ h =>
      rw [h, hp]
      exact ⟨id, trivial⟩
  | waits _ _ _ hw _ _ _ e =>
      cases e
      exact hw.elim
  | calls _ _ _ _ e => simp at e
  | rests hne | wakes hne | collected hne | created _ _ hne => exact absurd rfl hne
  | flagged _ _ _ _ _ e | yields _ _ _ e | starts _ _ _ e | returns _ _ _ _ e
  | rejoins _ _ _ _ _ e | joined _ _ _ _ _ e | ends _ _ _ e | idles _ _ _ e => cases e

theorem Core.not_active_next (I : Core s run) : ¬ (s.thread s.next).pc.Active := fun ha =>
  Nat.lt_irrefl _ (Finset.mem_range.mp (Finset.mem_filter.mp (I.mem_active.mpr ha)).1)

/-- **Every step keeps the count.** -/
theorem Turn.counted (T : Turn s l s' evs) (V : s.Inv) (H : s.Counted) (he : s.Enabled l) :
    s'.Counted := by
  have F := T.fate V.core V.queued he
  have I' := (T.settled V.core he).core
  have hother : ∀ t, t ≠ s.current → ∀ retval k, Ev.enter t (.exit retval) k ∉ evs :=
    fun t ht retval k hm => ht (T.by_current hm rfl)
  have hnext : s'.next = s.next → ¬ (s'.thread s.next).pc.Active := fun hn =>
    hn ▸ I'.not_active_next
  cases T.counts with
  | keeps h hn hev =>
      have e : s'.active = s.active := by
        ext t
        rw [I'.mem_active, V.core.mem_active]
        by_cases ht : t = s.next
        · rw [ht]
          exact iff_of_false (hnext hn) V.core.not_active_next
        · refine (F t).active_iff ht ?_
          by_cases hc : t = s.current
          · rw [hc]
            exact hev
          · exact hother t hc
      rw [Counted, h, e]
      exact H
  | @creates joinable h =>
      have e : s'.active = insert s.next s.active := by
        ext t
        rw [Finset.mem_insert, I'.mem_active, V.core.mem_active, h]
        by_cases ht : t = s.next
        · subst ht
          exact iff_of_true (by simp [threadCreate, Pc.Active]) (.inl rfl)
        · simp [threadCreate, ht]
      have hnot : s.next ∉ s.active := fun hm => V.core.not_active_next (V.core.mem_active.mp hm)
      have hcount : s'.activeCount = s.activeCount + 1 := by
        rw [h]
        rfl
      rw [Counted] at H ⊢
      rw [hcount, H, e, Finset.card_insert_of_notMem hnot]
      omega
  | @ends retval h hn hev =>
      have hcur : ¬ (s'.thread s.current).pc.Active ∧ (s.thread s.current).pc.Active := by
        exact (F s.current).not_active_of_exit hev
      have e : s'.active = s.active.erase s.current := by
        ext t
        rw [Finset.mem_erase, I'.mem_active, V.core.mem_active]
        by_cases hc : t = s.current
        · rw [hc]
          exact iff_of_false hcur.1 fun h => h.1 rfl
        · by_cases ht : t = s.next
          · rw [ht]
            exact iff_of_false (hnext hn) fun h => V.core.not_active_next h.2
          · rw [(F t).active_iff ht (hother t hc)]
            exact (and_iff_right hc).symm
      have hmem : s.current ∈ s.active := V.core.mem_active.mpr hcur.2
      have hcard := Finset.card_erase_add_one hmem
      rw [Counted] at H ⊢
      rw [h, e, H]
      omega

theorem counted_init (clock : Nat) : (init clock).Counted := by
  have e : (init clock).active = {1} := by
    ext t
    rw [(Core.init clock).mem_active, Finset.mem_singleton]
    rcases init_cases clock t with ⟨rfl, h⟩ | ⟨rfl, h⟩ | ⟨ht, h⟩
    · rw [h]
      exact iff_of_false id (by simp)
    · rw [h]
      exact iff_of_true trivial rfl
    · rw [h]
      exact iff_of_false id fun e => by
        subst e
        exact absurd ht (by decide)
  rw [Counted, e]
  rfl

/-- **The scheduler is never stuck**: every enabled step can be taken, and one is enabled until
every thread but the idle thread has ended.  `_st_active_count` is the number of the others. -/
theorem scheduler_never_stuck {clock : Nat} {ls : List Label}
    (h : exec Vp.step (Vp.init clock) ls = some s) :
    (∀ l, s.Enabled l → ∃ s', Vp.step s l = some s') ∧
      s.activeCount = s.active.card ∧
      ((∃ l, s.Enabled l) ∨ ∀ t, ¬ (s.thread t).pc.Active) := by
  have V := inv_of_exec h
  have H : s.Counted :=
    events_ind (P := fun _ s => s.Counted) (counted_init clock)
      (fun _ _ _ _ V H he T => T.counted V H he) h
  refine ⟨fun l he => ?_, H, ?_⟩
  · obtain ⟨s', evs, hact, -⟩ := act_turn V.core V.queued V.idleLast he
    exact ⟨s', by simp [step, he, hact]⟩
  · by_cases hu : (s.thread s.current).pc = .user
    · exact .inl ⟨.call (.condSignal 0), hu, trivial⟩
    · by_cases hi : (s.thread s.current).pc = .idle
      · by_cases hc : 0 < s.activeCount
        · exact .inl ⟨.idle [] 0, hi, hc⟩
        · refine .inr fun t ha => hc ?_
          rw [H]
          exact Int.natCast_pos.mpr (Finset.card_pos.mpr ⟨t, V.core.mem_active.mpr ha⟩)
      · exact .inl ⟨.resume, hu, hi⟩

/-- While thread 1 sleeps, the idle thread runs. -/
theorem scheduler_never_stuck_asleep :
    (after [.call (.usleep 5)]).activeCount = 1 ∧
    (∀ l, (after [.call (.usleep 5)]).Enabled l →
        ∃ s', Vp.step (after [.call (.usleep 5)]) l = some s') ∧
      (after [.call (.usleep 5)]).activeCount = (after [.call (.usleep 5)]).active.card ∧
      ((∃ l, (after [.call (.usleep 5)]).Enabled l) ∨
        ∀ t, ¬ ((after [.call (.usleep 5)]).thread t).pc.Active) :=
  ⟨by decide, scheduler_never_stuck (exec_after (by decide))⟩

/-! ### The order of the run queue -/

/-- The thread that is chosen was at the head of the run queue. -/
theorem schedule_order : s.schedule.current :: s.schedule.runq =
    if s.runq = [] then [s.idleThread] else s.runq := by
  cases hq : s.runq with
  | nil => simp [Vp.schedule, hq, setState, Vp.modify]
  | cons t rest => simp [Vp.schedule, hq]

theorem schedule_onSleepq : (s.schedule.thread t).onSleepq = (s.thread t).onSleepq := by
  rw [Vp.schedule]
  split
  next v _ _ => by_cases hv : t = v <;> simp [setState, Vp.modify, hv]
  next => by_cases hv : t = s.idleThread <;> simp [setState, Vp.modify, hv]

/-- A thread that is asleep was asleep before another one was put to sleep or to the run queue. -/
theorem onSleepq_of_park {st : State} {pc : Pc} {q : SleepQ}
    (h : ((s.park st false q pc).thread t).onSleepq = true) :
    (s.thread t).onSleepq = true := by
  by_cases ht : t = s.current
  · simp [Vp.park, ht] at h
  · simpa [Vp.park, ht] using h

/-- The threads that are ready go to the tail of the run queue, in their order. -/
theorem Woken.runq_of_ready {ts : List Tid} (W : Woken s (ts.map fun t => (Why.ready, t)) s') :
    s'.runq = s.runq ++ ts := by
  induction ts generalizing s with
  | nil =>
      cases W
      simp
  | cons t ts ih =>
      cases W with
      | cons h hs =>
          obtain ⟨q, rfl, -⟩ := h.eq
          rw [ih hs, List.append_cons]
          rfl

/-- After the clock was checked, no thread that is due is asleep. -/
theorem Expired.awake {s₀ : Vp} {ts : List Tid} (E : s₀.Expired now ts)
    (W : Woken { s₀ with lastClock := now } (ts.map fun t => (.timeout now, t)) s')
    (hon : (s'.thread t).onSleepq = true) : now < s'.heap.due t := by
  have hdue : s'.heap.due = s₀.heap.due := W.same.due
  rw [hdue]
  by_contra hle
  by_cases ht : t ∈ ts
  · rw [(W.thread_of_mem (mem_map_timeout.mpr ⟨rfl, ht⟩)).1, Why.thread_onSleepq] at hon
    cases hon
  · rw [W.thread_of_notMem fun why hm => ht (mem_map_timeout.mp hm).2] at hon
    exact ht ((E.mem t).mpr ⟨hon, Nat.not_lt.mp hle⟩)

theorem Turn.of_yield (T : Turn s (.call (.yield now)) s' evs) :
    ∃ ts s₁, s.Expired now ts ∧
      Woken { s with lastClock := now } (ts.map fun t => (.timeout now, t)) s₁ ∧
      ((s₁.runq = [] ∧ s' = s₁) ∨ (s₁.runq ≠ [] ∧
        s' = ({ s₁.park .runnable false s₁.heap (.inside (.yield now)) with
          runq := s₁.runq ++ [s₁.current] } : Vp).schedule)) := by
  generalize hl : Label.call (.yield now) = l at T
  cases T with
  | yields hts W hr =>
      cases hl
      exact ⟨_, _, hts, W, .inr ⟨hr, rfl⟩⟩
  | stays hts W hr =>
      cases hl
      exact ⟨_, _, hts, W, .inl ⟨hr, rfl⟩⟩
  | @signals _ broadcast => cases broadcast <;> cases hl
  | locks h =>
      cases hl
      rcases h with h | h <;> cases h
  | refused h | waits _ h =>
      cases hl
      exact h.elim
  | interrupted _ _ hy =>
      cases hl
      exact absurd rfl (hy now)
  | _ => cases hl

/-- **`st_thread_yield` runs the threads that are due**, those due last first, then those of the run
queue, then its own thread; none that is due stays asleep. -/
theorem yield_order {clock : Nat} {ls : List Label}
    (h : exec Vp.step (Vp.init clock) ls = some s)
    (hs : Vp.step s (.call (.yield now)) = some s') :
    ∃ ts, s.Expired now ts ∧ s'.current :: s'.runq = ts.reverse ++ s.runq ++ [s.current] ∧
      ∀ t, (s'.thread t).onSleepq = true → now < s'.heap.due t := by
  have V := inv_of_exec h
  obtain ⟨he, T⟩ := V.turn hs
  obtain ⟨ts, s₁, hts, W, hcase⟩ := T.of_yield
  have hrunq : s₁.runq = ts.reverse ++ s.runq := W.runq_of_timeout
  have hcur : s₁.current = s.current := W.same.current
  refine ⟨ts, hts, ?_, fun t hon => ?_⟩
  · rcases hcase with ⟨hr, rfl⟩ | ⟨hr, rfl⟩
    · rw [← hrunq, hr, hcur]
      rfl
    · rw [schedule_order, if_neg (by simp), hrunq, hcur]
  · rcases hcase with ⟨hr, rfl⟩ | ⟨hr, rfl⟩
    · exact hts.awake W hon
    · rw [schedule_onSleepq] at hon
      have hon₁ : (s₁.thread t).onSleepq = true := onSleepq_of_park (s := s₁) (q := s₁.heap) hon
      rw [schedule_heap]
      exact (hts.awake W hon₁ : now < s₁.heap.due t)

/-- Threads 1 and 2 sleep until 5 and 3, and thread 3 yields at 4. -/
def sleeping : List Label :=
  [.call (.create false), .call (.create false), .call (.usleep 5), .resume, .call (.usleep 3),
    .resume]

theorem yield_order_sleeping :
    ((after (sleeping ++ [.call (.yield 4)])).current = 2 ∧
      (after (sleeping ++ [.call (.yield 4)])).runq = [3]) ∧
    ∃ ts, (after sleeping).Expired 4 ts ∧
      (after (sleeping ++ [.call (.yield 4)])).current ::
        (after (sleeping ++ [.call (.yield 4)])).runq =
          ts.reverse ++ (after sleeping).runq ++ [(after sleeping).current] ∧
      ∀ t, ((after (sleeping ++ [.call (.yield 4)])).thread t).onSleepq = true →
        4 < (after (sleeping ++ [.call (.yield 4)])).heap.due t :=
  ⟨by decide, yield_order (exec_after (by decide)) (step_after (by decide))⟩

/-- The last event of `t` is a call of `st_poll`, which is not over. -/
def InPoll (h : List Ev) (t : Tid) : Prop :=
  ∃ added timeout k h₂, Since h t (.poll added timeout) k h₂

theorem inPoll_of_mem {clock : Nat} {ls : List Label}
    (h : exec Vp.step (Vp.init clock) ls = some s) (ht : t ∈ s.ioq) :
    InPoll (events clock ls) t := by
  have hp := (inv_of_exec h).queued.ioq t ht
  cases hpc : (s.thread t).pc with
  | inside c =>
      rw [hpc] at hp
      cases c with
      | poll added timeout =>
          obtain ⟨k, h₂, H, -⟩ := (tracked_of_exec h).inside t _ hpc
          exact ⟨added, timeout, k, h₂, H⟩
      | _ => exact hp.elim
  | _ =>
      rw [hpc] at hp
      exact hp.elim

/-- **A round of the idle thread runs the threads that are due**, those due last first, then those
whose descriptors are ready, in the order of their calls of `st_poll`; none that is due stays
asleep. -/
theorem idle_order {clock : Nat} {ls : List Label} {ready : List Tid}
    (h : exec Vp.step (Vp.init clock) ls = some s)
    (hs : Vp.step s (.idle ready now) = some s') :
    ∃ ts : List Tid, (∀ t, t ∈ ts ↔ (s.thread t).onSleepq = true ∧ s.heap.due t ≤ now ∧
        ¬ (t ∈ s.ioq ∧ t ∈ ready)) ∧
      ts.Pairwise (fun t u => s.heap.due t ≤ s.heap.due u) ∧
      (s'.current :: s'.runq =
        if ts.reverse ++ s.ioq.filter (· ∈ ready) = [] then [s.idleThread]
        else ts.reverse ++ s.ioq.filter (· ∈ ready)) ∧
      ((∀ t ∈ s.ioq, InPoll (events clock ls) t) ∧
        (s.ioq.filter (· ∈ ready)).Pairwise (Before (events clock ls))) ∧
      ∀ t, (s'.thread t).onSleepq = true → now < s'.heap.due t := by
  have V := inv_of_exec h
  obtain ⟨he, T⟩ := V.turn hs
  generalize obs s (.idle ready now) = evs at T
  cases T with
  | @idles _ ts _ s₁ s₂ D hts W =>
      have hempty : s.runq = [] := V.idleLast ((V.core.idle _).mp he.1)
      have hr₁ : s₁.runq = s.ioq.filter (· ∈ ready) := by
        rw [D.runq_of_ready, hempty, List.nil_append]
      have hr₂ : s₂.runq = ts.reverse ++ s₁.runq := W.runq_of_timeout
      have hidle : s₂.idleThread = s.idleThread := W.same.idleThread.trans D.same.idleThread
      have hdue : s₁.heap.due = s.heap.due := D.same.due
      refine ⟨ts, fun t => ?_, ?_, ?_, ⟨fun t ht => inPoll_of_mem h ht,
        (inOrder_of_exec h).ioq.sublist List.filter_sublist⟩, fun t hon => ?_⟩
      · rw [hts.mem, hdue]
        by_cases hio : t ∈ s.ioq ∧ t ∈ ready
        · have hm : (Why.ready, t) ∈ (s.ioq.filter (· ∈ ready)).map fun t => (Why.ready, t) :=
            List.mem_map.mpr ⟨t, List.mem_filter.mpr ⟨hio.1, by simpa using hio.2⟩, rfl⟩
          rw [(D.thread_of_mem hm).1, Why.thread_onSleepq]
          exact iff_of_false (by simp) fun h => h.2.2 hio
        · rw [D.thread_of_notMem fun why hm => hio ?_, and_iff_left hio]
          obtain ⟨v, hv, e⟩ := List.mem_map.mp hm
          cases e
          obtain ⟨h1, h2⟩ := List.mem_filter.mp hv
          exact ⟨h1, by simpa using h2⟩
      · have := hts.sorted
        rwa [hdue] at this
      · rw [schedule_order]
        show (if s₂.runq = [] then [s₂.idleThread] else s₂.runq) = _
        rw [hr₂, hr₁, hidle]
      · rw [schedule_onSleepq] at hon
        have hon₂ : (s₂.thread t).onSleepq = true := onSleepq_of_park (s := s₂) hon
        rw [schedule_heap]
        exact (hts.awake W hon₂ : now < s₂.heap.due t)

/-- Threads 1 and 3 poll, thread 2 sleeps until 5, and the idle thread runs. -/
def polling : List Label :=
  [.call (.create false), .call (.create false), .call (.poll true noTimeout), .resume,
    .call (.usleep 5), .resume, .call (.poll true 50)]

theorem idle_order_polling :
    ((after (polling ++ [.idle [3, 1] 6])).current = 2 ∧
      (after (polling ++ [.idle [3, 1] 6])).runq = [1, 3]) ∧
    ∃ ts : List Tid, (∀ t, t ∈ ts ↔ ((after polling).thread t).onSleepq = true ∧
        (after polling).heap.due t ≤ 6 ∧ ¬ (t ∈ (after polling).ioq ∧ t ∈ [3, 1])) ∧
      ts.Pairwise (fun t u => (after polling).heap.due t ≤ (after polling).heap.due u) ∧
      ((after (polling ++ [.idle [3, 1] 6])).current ::
          (after (polling ++ [.idle [3, 1] 6])).runq =
        if ts.reverse ++ (after polling).ioq.filter (· ∈ [3, 1]) = [] then
          [(after polling).idleThread]
        else ts.reverse ++ (after polling).ioq.filter (· ∈ [3, 1])) ∧
      ((∀ t ∈ (after polling).ioq, InPoll (events 0 polling) t) ∧
        ((after polling).ioq.filter (· ∈ [3, 1])).Pairwise (Before (events 0 polling))) ∧
      ∀ t, ((after (polling ++ [.idle [3, 1] 6])).thread t).onSleepq = true →
        6 < (after (polling ++ [.idle [3, 1] 6])).heap.due t :=
  ⟨by decide, idle_order (exec_after (by decide)) (step_after (by decide))⟩

end Vp

end StCoroutine.Sched
