import StCoroutine.Sched.Wake

/-!
# Clock — the loops that make threads runnable

`_st_cond_signal`, `_st_vp_check_clock`, the loop of `dispatch`, `st_thread_interrupt` and
`st_mutex_unlock`: each is a sequence of `Wake` steps, and here is which threads it makes runnable,
and in which order.  A signal finds the first thread of the wait queue that still waits; the clock
takes the threads that are due off the timeout heap, the one that is due first being first.
-/

set_option autoImplicit false

namespace StCoroutine.Sched.Vp

variable {s s' s₁ : Vp} {run : Option Tid} {t u : Tid} {ws ws' : List (Why × Tid)} {why : Why}

theorem Woken.append (W : Woken s ws s₁) (W' : Woken s₁ ws' s') : Woken s (ws ++ ws') s' := by
  induction W with
  | nil => exact W'
  | cons h _ ih => exact .cons h (ih W')

/-! ### What waking threads leaves alone -/

/-- The fields that no thread is woken by. -/
structure Same (s s' : Vp) : Prop where
  current : s'.current = s.current
  idleThread : s'.idleThread = s.idleThread
  zombieq : s'.zombieq = s.zombieq
  waitq : s'.waitq = s.waitq
  owner : s'.owner = s.owner
  lockq : s'.lockq = s.lockq
  lastClock : s'.lastClock = s.lastClock
  activeCount : s'.activeCount = s.activeCount
  next : s'.next = s.next
  due : s'.heap.due = s.heap.due
  pc : ∀ t, (s'.thread t).pc = (s.thread t).pc
  interrupt : ∀ t, (s'.thread t).interrupt = (s.thread t).interrupt
  joinable : ∀ t, (s'.thread t).joinable = (s.thread t).joinable
  retval : ∀ t, (s'.thread t).retval = (s.thread t).retval

theorem Same.refl (s : Vp) : Same s s := by
  constructor <;> intros <;> rfl

theorem Same.trans (h : Same s s₁) (h' : Same s₁ s') : Same s s' := by
  constructor <;> intros <;>
    simp only [h'.current, h'.idleThread, h'.zombieq, h'.waitq, h'.owner, h'.lockq, h'.lastClock,
      h'.activeCount, h'.next, h'.due, h'.pc, h'.interrupt, h'.joinable, h'.retval, h.current,
      h.idleThread, h.zombieq, h.waitq, h.owner, h.lockq, h.lastClock, h.activeCount, h.next,
      h.due, h.pc, h.interrupt, h.joinable, h.retval]

theorem Wake.same (W : Wake s why t s') : Same s s' := by
  obtain ⟨q, rfl, -, hdue⟩ := W.eq
  constructor <;> try rfl
  · exact hdue
  all_goals
    intro u
    by_cases hu : u = t
    · simp [wake, hu]
    · simp [wake, hu]

theorem Woken.same (W : Woken s ws s') : Same s s' := by
  induction W with
  | nil s => exact Same.refl s
  | cons h _ ih => exact h.same.trans ih

/-- A thread that was not woken is as it was. -/
theorem Wake.thread_of_ne (W : Wake s why t s') (hu : u ≠ t) : s'.thread u = s.thread u := by
  obtain ⟨q, rfl, -⟩ := W.eq
  exact Function.update_of_ne hu _ _

theorem Wake.thread_self (W : Wake s why t s') : s'.thread t = why.thread (s.thread t) := by
  obtain ⟨q, rfl, -⟩ := W.eq
  exact Function.update_self _ _ _

theorem Woken.thread_of_notMem (W : Woken s ws s') (hu : ∀ why, (why, u) ∉ ws) :
    s'.thread u = s.thread u := by
  induction W with
  | nil => rfl
  | cons h _ ih =>
      rw [ih fun why hm => hu why (List.mem_cons_of_mem _ hm),
        h.thread_of_ne fun e => hu _ (by rw [e]; exact List.mem_cons_self)]

/-- A thread that was woken is runnable, and nothing more happens to it. -/
theorem Woken.thread_of_mem (W : Woken s ws s') (hu : (why, u) ∈ ws) :
    s'.thread u = why.thread (s.thread u) ∧ (s.thread u).state.Blocked ∧ s.Live u := by
  induction W generalizing why u with
  | nil => cases hu
  | @cons s s₁ s₂ why' t ws h hs ih =>
      have hnot : ∀ why, (why, t) ∉ ws := by
        intro why hm
        obtain ⟨-, hb, -⟩ := ih hm
        rw [h.thread_self, Why.thread_state] at hb
        exact hb
      rcases List.mem_cons.mp hu with e | hm
      · cases e
        exact ⟨by rw [hs.thread_of_notMem hnot, h.thread_self], h.blocked, h.live⟩
      · have hut : u ≠ t := fun e => hnot why (e ▸ hm)
        obtain ⟨he, hb, hl⟩ := ih hm
        rw [Live, h.thread_of_ne hut] at hl
        rw [h.thread_of_ne hut] at he hb
        exact ⟨he, hb, hl⟩

theorem Woken.nodup (W : Woken s ws s') : (ws.map Prod.snd).Nodup := by
  induction W with
  | nil => exact List.nodup_nil
  | @cons s s₁ s₂ why t ws h hs ih =>
      refine List.nodup_cons.mpr ⟨fun hm => ?_, ih⟩
      obtain ⟨⟨why', u⟩, hm', rfl⟩ := List.mem_map.mp hm
      obtain ⟨-, hb, -⟩ := hs.thread_of_mem hm'
      rw [h.thread_self, Why.thread_state] at hb
      exact hb

/-! ### Taking a thread off the sleep queue -/

theorem Core.delSleepQ (I : Core s run) (ht : (s.thread t).onSleepq = true) :
    ∃ q, s.delSleepQ t = some { s with
        thread := Function.update s.thread t { s.thread t with onSleepq := false }, heap := q } ∧
      q.Sleeps (fun u => (s.thread u).onSleepq = true ∧ u ≠ t) ∧ q.due = s.heap.due ∧
      q.size + 1 = s.heap.size := by
  obtain ⟨q, hq, hs, hdue, hsize⟩ := SleepQ.heapDelete_spec I.heap ht
  refine ⟨q, ?_, hs, hdue, hsize⟩
  rw [Vp.delSleepQ, hq]
  rfl

theorem Core.delIfSleeping (I : Core s run) (t : Tid) :
    ∃ q, s.delIfSleeping t = some { s with
        thread := Function.update s.thread t { s.thread t with onSleepq := false }, heap := q } ∧
      q.Sleeps (fun u => (s.thread u).onSleepq = true ∧ u ≠ t) ∧ q.due = s.heap.due := by
  rw [Vp.delIfSleeping]
  cases ht : (s.thread t).onSleepq with
  | true =>
      obtain ⟨q, hq, hs, hdue, -⟩ := I.delSleepQ ht
      exact ⟨q, by rw [if_pos rfl, hq], hs, hdue⟩
  | false =>
      refine ⟨s.heap, ?_, I.heap.congr fun u => ?_, rfl⟩
      · have e : { s.thread t with onSleepq := false } = s.thread t := by rw [← ht]
        rw [if_neg (by simp), e, Function.update_eq_self]
      · exact and_iff_left_of_imp fun hu e => by
          rw [e, ht] at hu
          cases hu

/-- What is done to a thread that is made runnable at the tail of the run queue. -/
theorem Core.delIfSleeping_makeRunnable (I : Core s run) (hl : s.Live t)
    (hb : (s.thread t).state.Blocked) (hw : why = .signal ∨ why = .interrupt)
    (hr : why.Holds s t) :
    ∃ s₁, s.delIfSleeping t = some s₁ ∧ Wake s why t (s₁.makeRunnable t) := by
  obtain ⟨q, hq, hs, hdue⟩ := I.delIfSleeping t
  refine ⟨_, hq, hl, hb, hr, q, ?_, hs, hdue⟩
  rcases hw with rfl | rfl <;>
    simp [makeRunnable, setState, Vp.modify, Vp.wake, Why.thread]

/-! ### `_st_cond_signal` -/

/-- The threads of a queue that still wait on a condition variable. -/
def waiters (s : Vp) (q : List Tid) : List Tid :=
  q.filter fun t => (s.thread t).state = .condWait

/-- **The loop of `_st_cond_signal`** wakes the first thread that still waits, or all. -/
theorem condSignalLoop_spec (broadcast : Bool) (q : List Tid) : ∀ {s : Vp}, Core s run →
    (∀ t ∈ q, s.Live t) → q.Nodup → ∃ s', condSignalLoop broadcast q s = some s' ∧
      Woken s ((if broadcast then s.waiters q else (s.waiters q).take 1).map
        fun t => (.signal, t)) s' := by
  induction q with
  | nil =>
      intro s _ _ _
      exact ⟨s, rfl, by cases broadcast <;> exact .nil s⟩
  | cons t q ih =>
      intro s I hl hn
      obtain ⟨htq, hn⟩ := List.nodup_cons.mp hn
      rw [condSignalLoop]
      by_cases hc : (s.thread t).state = .condWait
      · have hb : (s.thread t).state.Blocked := by rw [hc]; exact trivial
        obtain ⟨s₁, hs₁, W⟩ := I.delIfSleeping_makeRunnable (hl t List.mem_cons_self) hb
          (.inl rfl) hc
        have hwait : s.waiters (t :: q) = t :: s.waiters q :=
          List.filter_cons_of_pos (by simpa using hc)
        rw [if_pos hc, hs₁, Option.bind_some, hwait]
        cases broadcast with
        | false => exact ⟨_, rfl, .cons W (.nil _)⟩
        | true =>
            have hne : ∀ u ∈ q, u ≠ t := fun u hu e => htq (e ▸ hu)
            have hsame : (s₁.makeRunnable t).waiters q = s.waiters q :=
              List.filter_congr fun u hu => by rw [W.thread_of_ne (hne u hu)]
            obtain ⟨s', hs', W'⟩ := ih (I.wake W) (fun u hu => by
              rw [Live, W.thread_of_ne (hne u hu)]
              exact hl u (List.mem_cons_of_mem _ hu)) hn
            rw [if_pos rfl, hsame] at W'
            exact ⟨s', by rw [if_pos rfl, hs'], .cons W W'⟩
      · have hwait : s.waiters (t :: q) = s.waiters q :=
          List.filter_cons_of_neg (by simpa using hc)
        rw [if_neg hc, hwait]
        exact ih I (fun u hu => hl u (List.mem_cons_of_mem _ hu)) hn

/-! ### `_st_vp_check_clock` -/

theorem blocked_of_timed {st : State} (h : st.Timed) : st.Blocked := by
  cases st <;> first | exact trivial | exact h

/-- **The loop of `_st_vp_check_clock`** takes the threads that are due off the timeout heap, those
that are due first before the others, and ends. -/
theorem checkClockLoop_spec (now fuel : Nat) : ∀ {s : Vp}, Core s run → s.heap.size < fuel →
    ∃ (s' : Vp) (ts : List Tid), checkClockLoop now fuel s = some s' ∧
      Woken s (ts.map fun t => (.timeout now, t)) s' ∧
      ts.Pairwise (fun t u => s.heap.due t ≤ s.heap.due u) ∧
      ∀ t, t ∈ ts ↔ (s.thread t).onSleepq = true ∧ s.heap.due t ≤ now := by
  induction fuel with
  | zero =>
      intro s _ hf
      exact absurd hf (Nat.not_lt_zero _)
  | succ fuel ih =>
      intro s I hf
      rw [checkClockLoop]
      rcases I.heap.root with ⟨hroot, hempty⟩ | ⟨t, hroot, ht, hmin⟩
      · rw [hroot]
        exact ⟨s, [], rfl, .nil s, .nil, fun t => iff_of_false (by simp) fun h => hempty t h.1⟩
      · rw [hroot]
        show ∃ (s' : Vp) (ts : List Tid), (if now < s.heap.due t then _ else _) = some s' ∧ _
        by_cases hnow : now < s.heap.due t
        · -- the first thread is not due, so none is
          rw [if_pos hnow]
          refine ⟨s, [], rfl, .nil s, .nil, fun u => iff_of_false (by simp) fun h => ?_⟩
          exact Nat.not_le.mpr hnow (Nat.le_trans (hmin u h.1) h.2)
        · obtain ⟨q, hq, hsleeps, hdue, hsize⟩ := I.delSleepQ ht
          obtain ⟨htimed, hlive⟩ := (I.ok t).timed ht
          have W : Wake s (.timeout now) t (s.wake (.timeout now) t q) :=
            ⟨hlive, blocked_of_timed htimed, ⟨ht, Nat.not_lt.mp hnow⟩, q, rfl, hsleeps, hdue⟩
          have hstep : (({ s with
              thread := Function.update s.thread t { s.thread t with onSleepq := false }
              heap := q } : Vp) |> fun s =>
              let s := if (s.thread t).state = .condWait then
                  s.modify t fun th => { th with timedout := true }
                else s
              ({ s.setState t .runnable with runq := t :: s.runq } : Vp)) =
              s.wake (.timeout now) t q := by
            by_cases hc : (s.thread t).state = .condWait <;>
              simp [hc, setState, Vp.modify, Vp.wake, Why.thread]
          rw [if_neg hnow, hq, Option.bind_some]
          obtain ⟨s', ts, hrun, W', hsort, hmem⟩ := ih (I.wake W)
            (by show q.size < fuel; omega)
          have hdue' : (s.wake (.timeout now) t q).heap.due = s.heap.due := hdue
          rw [hdue'] at hsort hmem
          refine ⟨s', t :: ts, ?_, .cons W W', ?_, fun u => ?_⟩
          · rw [← hstep] at hrun
            exact hrun
          · refine List.pairwise_cons.mpr ⟨fun u hu => hmin u ?_, hsort⟩
            have hon := ((hmem u).mp hu).1
            by_cases hut : u = t
            · rw [hut, W.thread_self, Why.thread_onSleepq] at hon
              cases hon
            · rwa [W.thread_of_ne hut] at hon
          · rw [List.mem_cons, hmem]
            by_cases hut : u = t
            · exact iff_of_true (.inl hut) (hut ▸ ⟨ht, Nat.not_lt.mp hnow⟩)
            · rw [W.thread_of_ne hut]
              exact or_iff_right hut

/-- **`_st_vp_check_clock`** makes exactly the threads runnable that are due. -/
theorem checkClock_spec (I : Core s run) (now : Nat) :
    ∃ (s' : Vp) (ts : List Tid), s.checkClock now = some s' ∧
      Woken { s with lastClock := now } (ts.map fun t => (.timeout now, t)) s' ∧
      ts.Pairwise (fun t u => s.heap.due t ≤ s.heap.due u) ∧
      ∀ t, t ∈ ts ↔ (s.thread t).onSleepq = true ∧ s.heap.due t ≤ now := by
  have I' : Core { s with lastClock := now } run := I.congr rfl rfl rfl rfl rfl rfl
  exact checkClockLoop_spec now (s.heap.size + 1) I' (Nat.lt_succ_self _)

/-- The threads that are due go to the head of the run queue, the last one first. -/
theorem Woken.runq_of_timeout {now : Nat} {ts : List Tid}
    (W : Woken s (ts.map fun t => (Why.timeout now, t)) s') :
    s'.runq = ts.reverse ++ s.runq := by
  induction ts generalizing s with
  | nil =>
      cases W
      rfl
  | cons t ts ih =>
      cases W with
      | cons h hs =>
          obtain ⟨q, rfl, -⟩ := h.eq
          rw [ih hs, List.reverse_cons, List.append_assoc]
          rfl

/-! ### The loop of `dispatch` -/

/-- **The loop of `dispatch`** wakes the threads of the io queue that are ready, in the order of
the queue. -/
theorem dispatchLoop_spec (ready : List Tid) (q : List Tid) : ∀ {s : Vp}, Core s run →
    (∀ t ∈ q, s.Live t ∧ (s.thread t).state.Blocked ∧ t ∈ s.ioq) → q.Nodup →
    ∃ s', dispatchLoop ready q s = some s' ∧
      Woken s ((q.filter (· ∈ ready)).map fun t => (.ready, t)) s' := by
  induction q with
  | nil =>
      intro s _ _ _
      exact ⟨s, rfl, .nil s⟩
  | cons t q ih =>
      intro s I hq hn
      obtain ⟨htq, hn⟩ := List.nodup_cons.mp hn
      have htail : ∀ u ∈ q, s.Live u ∧ (s.thread u).state.Blocked ∧ u ∈ s.ioq := fun u hu =>
        hq u (List.mem_cons_of_mem _ hu)
      rw [dispatchLoop]
      by_cases hr : t ∈ ready
      · have I' : Core { s with ioq := s.ioq.erase t } run := I.congr rfl rfl rfl rfl rfl rfl
        obtain ⟨p, hp, hsleeps, hdue⟩ := I'.delIfSleeping t
        obtain ⟨hl, hb, hio⟩ := hq t List.mem_cons_self
        have hwake : ({ s with
            thread := Function.update s.thread t { s.thread t with onSleepq := false }
            heap := p, ioq := s.ioq.erase t } : Vp).makeRunnable t = s.wake .ready t p := by
          simp [makeRunnable, setState, Vp.modify, Vp.wake, Why.thread]
        have W : Wake s .ready t (s.wake .ready t p) :=
          ⟨hl, hb, hio, p, rfl, hsleeps, hdue⟩
        have hne : ∀ u ∈ q, u ≠ t := fun u hu e => htq (e ▸ hu)
        obtain ⟨s', hs', W'⟩ := ih (I.wake W) (fun u hu => by
          obtain ⟨h1, h2, h3⟩ := htail u hu
          refine ⟨?_, ?_, (List.mem_erase_of_ne (hne u hu)).mpr h3⟩
          · rwa [Live, W.thread_of_ne (hne u hu)]
          · rwa [W.thread_of_ne (hne u hu)]) hn
        rw [if_pos hr, hp, Option.bind_some, List.filter_cons_of_pos (by simpa using hr)]
        exact ⟨s', by rw [← hs', ← hwake], .cons W W'⟩
      · rw [if_neg hr, List.filter_cons_of_neg (by simpa using hr)]
        exact ih I htail hn

end StCoroutine.Sched.Vp
