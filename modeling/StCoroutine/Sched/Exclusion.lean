import StCoroutine.Sched.Returns

/-!
# Exclusion — mutexes and condition variables over runs

Who holds a mutex is read off the events: the thread to which a lock of it was last returned, with
no unlock since (`holder`).  `st_mutex_lock` and `st_mutex_trylock` return `0` only when no thread
holds the mutex, whatever threads are interrupted and in whichever order they go on.  The queues of
mutexes and condition variables, and the io queue, are in the order in which their threads began to
wait, so mutexes are handed over, and threads are signalled, first come, first served.
-/

set_option autoImplicit false

namespace StCoroutine.Sched
open Lts

/-- Who holds the mutex `m` after the event. -/
def holding (m : Mid) : Ev → Option (Option Tid)
  | .leave t c .ok =>
      if c.mutex = some m then
        match c with
        | .mutexUnlock _ => some none
        | _ => some (some t)
      else none
  | _ => none

/-- **The thread that holds the mutex `m`** after the events `h`. -/
def holder (m : Mid) (h : List Ev) : Option Tid := latest (holding m) h

namespace Vp

variable {s s' : Vp} {t u : Tid} {c : Call} {r : Ret} {l : Label} {e : Ev} {evs h : List Ev}
  {m : Mid}

theorem holding_of_not_grants (h : ¬ e.Grants m) : holding m e = none := by
  cases e with
  | leave t c r =>
      cases r <;> try rfl
      exact if_neg fun hm => h ⟨hm, rfl⟩
  | _ => rfl

theorem holder_append (hn : ∀ e ∈ evs, ¬ e.Grants m) : holder m (h ++ evs) = holder m h :=
  latest_append_of_none fun e he => holding_of_not_grants (hn e he)

theorem holder_done (hc : c.mutex = some m) :
    holder m (h ++ s.done c) = ((holding m (.leave s.current c .ok)).getD none) := by
  have e : h ++ s.done c = (h ++ [.enter s.current c s.lastClock]) ++ [.leave s.current c .ok] := by
    simp [done]
  obtain ⟨v, hv⟩ : ∃ v, holding m (.leave s.current c .ok) = some v := by
    cases c <;> cases hc <;> simp [holding, Call.mutex]
  rw [holder, e, latest_snoc, hv]
  rfl

/-- **The events say who holds a mutex**: the thread that owns it, once its lock has returned. -/
def Held (h : List Ev) (s : Vp) : Prop :=
  ∀ m t, holder m h = some t ↔ s.owner m = some t ∧ (s.thread t).pc ≠ .inside (.mutexLock m)

/-- A thread that returns from a lock has the mutex. -/
theorem Inv.owner_of_ok (V : s.Inv) (hpc : (s.thread s.current).pc = .inside (.mutexLock m))
    (hr : s.result (.mutexLock m) = .ok) : s.owner m = some s.current := by
  have hl : (s.thread s.current).pc.lock = some m := by rw [hpc]; rfl
  have hst : (s.thread s.current).state ≠ .lockWait := by
    rw [V.core.current_state]
    simp
  by_contra ho
  have hi := (V.locked.given m _ hl hst).resolve_left ho
  simp [result, hi, ho] at hr

/-- A thread that owns a mutex is inside its lock before a step when it is after, where no lock
returns. -/
theorem Fate.lock_iff (F : Fate s s' evs t) (V : s.Inv) (ho : s.owner m = some t)
    (hn : ∀ e ∈ evs, ¬ e.Grants m) :
    (s'.thread t).pc = .inside (.mutexLock m) ↔ (s.thread t).pc = .inside (.mutexLock m) := by
  constructor
  · intro hpc'
    cases F.inside V.core hpc' with
    | stays _ hpc | wakes _ hpc | flagged _ hpc => exact hpc
    | waits hcur hpc hi hw => exact absurd (hcur ▸ ho) hw.2
    | again hc | yields hc => cases hc
  · intro hpc
    have hl : s.Live t := by
      rw [Live, hpc]
      simp
    by_cases hcur : t = s.current
    · subst hcur
      cases F with
      | returns _ hp _ hth hev =>
          rw [hpc] at hp
          cases hp
          refine absurd ⟨rfl, ?_⟩ (hn (.leave s.current (.mutexLock m) (s.result (.mutexLock m)))
            (by rw [hev]; exact List.mem_cons_self))
          simp [result, ho]
      | rests hne | wakes hne | collected hne | created _ _ hne => exact absurd rfl hne
      | flagged hp | calls _ hp | waits _ hp | yields _ hp | exits _ hp | dies _ hp | starts _ hp
      | rejoins _ hp | joined _ hp | ends _ hp | idles _ hp =>
          rw [hpc] at hp
          cases hp
    · rw [F.pc_of_ne hl hcur, hpc]

theorem Turn.held (T : Turn s l s' evs) (V : s.Inv) (H : Held h s) (he : s.Enabled l) :
    Held (h ++ evs) s' := by
  intro m t
  have F := T.fate V.core V.queued he
  cases T.owns V.core he m with
  | keeps ho hn =>
      rw [holder_append hn, H m t, ho]
      refine and_congr_right fun ho' => not_congr ?_
      exact ((F t).lock_iff V ho' hn).symm
  | returns ho hpc hr hth hev =>
      have howner := V.owner_of_ok hpc hr
      have hlast : holder m (h ++ evs) = some s.current := by
        rw [holder, hev, latest_snoc]
        simp [holding, Call.mutex]
      rw [hlast, ho, howner]
      refine ⟨fun e => ⟨e, ?_⟩, fun e => e.1⟩
      rw [← Option.some.inj e, hth]
      simp [backThread]
  | locks hc ho ho' hpc hev =>
      have hlast : holder m (h ++ evs) = some s.current := by
        rw [hev, holder_done (by rcases hc with rfl | rfl <;> rfl)]
        rcases hc with rfl | rfl <;> simp [holding, Call.mutex]
      rw [hlast, ho']
      refine ⟨fun e => ⟨e, ?_⟩, fun e => e.1⟩
      rw [← Option.some.inj e, hpc]
      simp
  | unlocks ho ho' hn hev =>
      rw [hev, holder_done rfl, ho']
      simp [holding, Call.mutex]
  | @handsOver v _ _ ho ho' hq hpre hv hv' hev =>
      rw [hev, holder_done rfl, ho']
      refine iff_of_false (by simp [holding, Call.mutex]) ?_
      rintro ⟨e, hpc⟩
      refine hpc ?_
      rw [← Option.some.inj e]
      have hmem : v ∈ s.lockq m := by
        rw [hq]
        simp
      have hpv := pc_of_lock ((V.queued.lockq m v).mp hmem)
      have hl : s.Live v := by
        rw [Live, hpv]
        simp
      have hne : v ≠ s.current := fun e => by
        rw [e, V.core.current_state] at hv
        cases hv
      rw [(F v).pc_of_ne hl hne, hpv]

theorem held_init (clock : Nat) : Held [] (init clock) := fun m t =>
  iff_of_false (by simp [holder]) (by simp [init])

/-- What a lock, a trylock or an unlock returns, where `h` says who holds the mutex. -/
def Fair (h : List Ev) : Ev → Prop
  | .leave _ (.mutexLock m) .ok | .leave _ (.mutexTrylock m) .ok => holder m h = none
  | .leave t (.mutexUnlock m) .ok | .leave t (.mutexLock m) .EDEADLK => holder m h = some t
  | .leave t (.mutexUnlock m) .EPERM => holder m h ≠ some t
  | _ => True

theorem leaves_of_grants (h : e.Grants m) : e.Leaves := by
  cases e <;> trivial

/-- **The locks and unlocks of a step are fair.** -/
theorem Turn.fair (T : Turn s l s' evs) (V : s.Inv) (H : Held h s) (he : s.Enabled l)
    {a b : List Ev} (hsplit : evs = a ++ .leave t c r :: b) :
    Fair (h ++ a) (.leave t c r) := by
  have hm : .leave t c r ∈ evs := by
    rw [hsplit]
    simp
  have hh : ∀ m, holder m (h ++ a) = holder m h := fun m =>
    holder_append fun e he hg => T.before_leave hsplit e he (leaves_of_grants hg)
  obtain ⟨rfl, M⟩ := T.left V.core V.queued he hm
  -- a thread outside the library that owns a mutex holds it
  have huser : ∀ m, (s.thread s.current).pc ≠ .inside (.mutexLock m) →
      (holder m (h ++ a) = some s.current ↔ s.owner m = some s.current) := fun m hpc => by
    rw [hh, H m s.current]
    exact and_iff_left hpc
  have hfree : ∀ m, s.owner m = none → holder m (h ++ a) = none := fun m ho => by
    rw [hh]
    refine Option.eq_none_iff_forall_ne_some.mpr fun t ht => ?_
    rw [((H m t).mp ht).1] at ho
    cases ho
  have hgrant : ∀ m, c.mutex = some m → r = .ok →
      (s.owner m = none ∧ (c = .mutexLock m ∨ c = .mutexTrylock m)) ∨
      (s.owner m = some s.current ∧ (s.thread s.current).pc = .inside (.mutexLock m) ∧
        c = .mutexLock m) ∨
      (s.owner m = some s.current ∧ c = .mutexUnlock m) := by
    intro m hc hr
    have hdone : ∀ {c'}, evs = s.done c' → c = c' := fun hev => by
      rw [hev] at hm
      simp only [done, List.mem_cons, reduceCtorEq, Ev.leave.injEq, List.not_mem_nil, or_false,
        false_or] at hm
      exact hm.2.1
    cases T.owns V.core he m with
    | keeps ho hn => exact absurd ⟨hc, hr⟩ (hn _ hm)
    | returns ho hpc hr' hth hev =>
        rw [hev] at hm
        cases List.mem_singleton.mp hm
        exact .inr (.inl ⟨V.owner_of_ok hpc hr', hpc, rfl⟩)
    | locks hc' ho ho' hpc hev => exact .inl ⟨ho, hdone hev ▸ hc'⟩
    | unlocks ho _ _ hev | handsOver ho _ _ _ _ _ hev => exact .inr (.inr ⟨ho, hdone hev⟩)
  have hlock : ∀ m, s.owner m = some s.current →
      (s.thread s.current).pc = .inside (.mutexLock m) → holder m (h ++ a) = none := by
    intro m ho hpc
    rw [hh]
    refine Option.eq_none_iff_forall_ne_some.mpr fun t ht => ?_
    obtain ⟨ho', hpc'⟩ := (H m t).mp ht
    rw [ho] at ho'
    exact hpc' (Option.some.inj ho' ▸ hpc)
  cases c with
  | mutexLock m =>
      cases r with
      | ok =>
          rcases hgrant m rfl rfl with ⟨ho, -⟩ | ⟨ho, hpc, -⟩ | ⟨-, hc⟩
          · exact hfree m ho
          · exact hlock m ho hpc
          · cases hc
      | EDEADLK =>
          show holder m (h ++ a) = some s.current
          generalize hr : Ret.EDEADLK = r at M
          cases M with
          | calls hpc hi =>
              refine (huser m (by rw [hpc]; simp)).mpr ?_
              cases hi with
              | refused h => exact h.2
              | done hc =>
                  rcases hc with hc | ⟨now, hc⟩ <;> first | exact absurd trivial hc | cases hc
              | _ => cases hr
          | returns =>
              rw [result] at hr
              split at hr <;> cases hr
      | _ => trivial
  | mutexTrylock m =>
      cases r with
      | ok =>
          rcases hgrant m rfl rfl with ⟨ho, -⟩ | ⟨-, -, hc⟩ | ⟨-, hc⟩
          · exact hfree m ho
          · cases hc
          · cases hc
      | _ => trivial
  | mutexUnlock m =>
      have hpc : (s.thread s.current).pc ≠ .inside (.mutexLock m) := by
        cases M with
        | calls hpc | returns hpc => rw [hpc]; simp
      cases r with
      | ok =>
          rcases hgrant m rfl rfl with ⟨-, hc | hc⟩ | ⟨-, -, hc⟩ | ⟨ho, -⟩
          · cases hc
          · cases hc
          · cases hc
          · exact (huser m hpc).mpr ho
      | EPERM =>
          show holder m (h ++ a) ≠ some s.current
          generalize hr : Ret.EPERM = r at M
          cases M with
          | calls _ hi =>
              refine (huser m hpc).not.mpr ?_
              cases hi with
              | refused h => exact h.2
              | interrupted hb => exact hb.elim
              | done _ hr' => rcases hr' with e | ⟨u, e⟩ <;> rw [e] at hr <;> cases hr
          | returns => cases hr
      | _ => trivial
  | _ => trivial

/-- **Mutual exclusion.**  `st_mutex_lock` and `st_mutex_trylock` return `0` only while no thread
holds the mutex, `st_mutex_unlock` only to the thread that holds it, and the errors `EDEADLK` and
`EPERM` say that the caller holds it, or does not.  A thread is its record, and no record is that of
two threads (`threadCreate`). -/
theorem mutual_exclusion {clock : Nat} {ls : List Label} {s : Vp}
    (h : exec Vp.step (Vp.init clock) ls = some s) {pre post : List Ev} {e : Ev}
    (hev : events clock ls = pre ++ e :: post) : Fair pre e := by
  have hall := events_ind (P := fun h s => Held h s ∧ ¬ Occurs (fun pre e => ¬ Fair pre e) h)
    ⟨held_init clock, by simp⟩ ?_ h
  · by_contra hn
    exact hall.2 ⟨pre, e, post, hev, hn⟩
  · rintro h s l s' V ⟨H, hgood⟩ he T
    refine ⟨T.held V H he, fun hbad => ?_⟩
    rcases occurs_append.mp hbad with hbad | ⟨a, e, b, hsplit, hbad⟩
    · exact hgood hbad
    · cases e with
      | leave t c r => exact hbad (T.fair V H he hsplit)
      | _ => exact hbad trivial

/-- A thread that is handed the mutex gets it when no thread holds it. -/
theorem mutual_exclusion_handover :
    Fair [.enter 1 (.create false) 0, .leave 1 (.create false) (.thread 2),
      .enter 1 (.mutexLock 0) 0, .leave 1 (.mutexLock 0) .ok, .enter 1 (.yield 0) 0, .clock 0,
      .enter 2 (.mutexLock 0) 0, .leave 1 (.yield 0) .ok, .enter 1 (.mutexUnlock 0) 0,
      .leave 1 (.mutexUnlock 0) .ok, .enter 1 (.yield 1) 0, .clock 1]
      (.leave 2 (.mutexLock 0) .ok) := by
  have h : exec Vp.step (Vp.init 0) [.call (.create false), .call (.mutexLock 0), .call (.yield 0),
      .resume, .call (.mutexLock 0), .resume, .call (.mutexUnlock 0), .call (.yield 1), .resume] =
      some (after _) := exec_after (by decide)
  refine mutual_exclusion h (show _ = _ ++ Ev.leave 2 (.mutexLock 0) .ok :: [] from ?_)
  decide

/-! ### First come, first served -/

/-- `t` made its last call before `u` made its own, which is not over. -/
def Before (h : List Ev) (t u : Tid) : Prop :=
  ∃ c k h₂, Since h u c k h₂ ∧ ∀ e ∈ h₂, ¬ e.By t

/-- **The queues are in the order of the calls.** -/
structure InOrder (h : List Ev) (s : Vp) : Prop where
  waitq : ∀ n, (s.waitq (.user n)).Pairwise (Before h)
  lockq : ∀ m, (s.lockq m).Pairwise (Before h)
  ioq : s.ioq.Pairwise (Before h)

theorem Before.append {h₂ : List Ev} (B : Before h t u) (ht : ∀ e ∈ h₂, ¬ e.By t)
    (hu : ∀ e ∈ h₂, ¬ e.By u) : Before (h ++ h₂) t u := by
  obtain ⟨c, k, h', hs, hn⟩ := B
  refine ⟨c, k, h' ++ h₂, hs.append hu, fun e he => ?_⟩
  rcases List.mem_append.mp he with he | he
  · exact hn e he
  · exact ht e he

/-- The threads of a queue that do not run keep their order. -/
theorem Turn.keeps_order {p q : List Tid} (T : Turn s l s' evs) (hq : q.Pairwise (Before h))
    (hp : p.Sublist q) (hn : ∀ t ∈ p, t ≠ s.current) : p.Pairwise (Before (h ++ evs)) := by
  have hby : ∀ {t}, t ≠ s.current → ∀ e ∈ evs, ¬ e.By t := fun hne e he hb =>
    hne (T.by_current he hb)
  exact (hq.sublist hp).imp_of_mem fun ht hu B => B.append (hby (hn _ ht)) (hby (hn _ hu))

/-- The thread that runs has made the call `c` and is put at the end of a queue. -/
theorem Turn.enters_last {q : List Tid} (T : Turn s l s' evs) (hq : q.Pairwise (Before h))
    (hn : ∀ t ∈ q, t ≠ s.current) (hev : evs = [.enter s.current c s.lastClock]) :
    (q ++ [s.current]).Pairwise (Before (h ++ evs)) := by
  refine List.pairwise_append.mpr ⟨T.keeps_order hq (List.Sublist.refl _) hn,
    List.pairwise_singleton _ _, fun t ht u hu => ?_⟩
  rw [List.mem_singleton.mp hu]
  exact ⟨c, s.lastClock, [], ⟨h, by rw [hev], by simp⟩, by simp⟩

/-- A queue keeps its order, where the threads that stay on it do not run. -/
theorem Lined.inOrder {q q' : List Tid} {here : Pc → Prop} (Q : Lined s q q' evs here)
    (T : Turn s l s' evs) (hq : q.Pairwise (Before h))
    (hcur : ∀ t, t ∈ q → t ∈ q' → t ≠ s.current) (hjoin : ∀ u, ¬ here (.inside (.join u))) :
    q'.Pairwise (Before (h ++ evs)) := by
  cases Q with
  | keeps e =>
      subst e
      exact T.keeps_order hq (List.Sublist.refl _) fun t ht => hcur t ht ht
  | leaves e =>
      subst e
      exact T.keeps_order hq List.erase_sublist fun t ht =>
        hcur t (List.mem_of_mem_erase ht) ht
  | enters hw hc e hev =>
      subst e
      exact T.enters_last hq (fun t ht => hcur t ht (List.mem_append_left _ ht)) hev
  | again _ _ _ hc => exact absurd hc (hjoin _)

/-- A thread that calls `st_poll` and waits shows its call. -/
theorem Turn.of_poll {added : Bool} {timeout : Nat}
    (T : Turn s (.call (.poll added timeout)) s' evs)
    (hi : (s.thread s.current).interrupt = false) (ha : added = true) :
    evs = [.enter s.current (.poll added timeout) s.lastClock] := by
  generalize hl : Label.call (.poll added timeout) = l at T
  cases T with
  | waits =>
      cases hl
      rfl
  | refused h =>
      cases hl
      exact absurd ha (by simp [h.2])
  | interrupted h =>
      cases hl
      rw [hi] at h
      cases h
  | @signals _ broadcast => cases broadcast <;> cases hl
  | locks h =>
      cases hl
      rcases h with h | h <;> cases h
  | _ => cases hl

/-- The io queue keeps its order. -/
theorem Turn.ioqInOrder (T : Turn s l s' evs) (V : s.Inv) (H : s.ioq.Pairwise (Before h))
    (he : s.Enabled l) : s'.ioq.Pairwise (Before (h ++ evs)) := by
  have hne : ¬ (s.thread s.current).pc.Polls → ∀ t ∈ s.ioq, t ≠ s.current := fun hp t ht e =>
    hp (e ▸ V.queued.ioq t ht)
  rw [T.ioq V.queued]
  cases l with
  | call c =>
      have hcur : ∀ t ∈ s.ioq, t ≠ s.current := hne (he.1 ▸ id)
      have hkeep := T.keeps_order H (List.Sublist.refl _) hcur
      cases c with
      | poll added timeout =>
          rw [ioqAfter]
          split
          next hw => exact T.enters_last H hcur (T.of_poll hw.1 hw.2)
          next => exact hkeep
      | _ => exact hkeep
  | resume =>
      exact T.keeps_order H List.erase_sublist fun t ht e =>
        V.queued.ioqNodup.not_mem_erase (e ▸ ht)
  | idle ready now =>
      exact T.keeps_order H List.filter_sublist fun t ht =>
        hne (he.1 ▸ id) t (List.mem_of_mem_filter ht)

/-- **Every step keeps the order.** -/
theorem Turn.inOrder (T : Turn s l s' evs) (V : s.Inv) (H : InOrder h s) (he : s.Enabled l) :
    InOrder (h ++ evs) s' := by
  have Q' := T.queued V.core V.queued he
  have hinside := fun t {c} (h : (s'.thread t).pc = .inside c) =>
    (T.fate V.core V.queued he t).inside V.core h
  refine ⟨fun n => (T.waitq (.user n)).inOrder T (H.waitq n) (fun t hq hq' => ?_)
      (fun u h => by cases h),
    fun m => (T.lockq m).inOrder T (H.lockq m) (fun t hq hq' => ?_) (fun u h => by cases h),
    T.ioqInOrder V H.ioq he⟩
  · obtain ⟨_, hc⟩ := pc_of_user ((V.queued.waitq _ t).mp hq)
    obtain ⟨_, hc'⟩ := pc_of_user ((Q'.waitq _ t).mp hq')
    cases hinside t hc' with
    | stays hne | wakes hne | flagged hne => exact hne
    | waits _ hpc =>
        rw [hc] at hpc
        cases hpc
    | again e | yields e => cases e
  · have hc := pc_of_lock ((V.queued.lockq _ t).mp hq)
    have hc' := pc_of_lock ((Q'.lockq _ t).mp hq')
    cases hinside t hc' with
    | stays hne | wakes hne | flagged hne => exact hne
    | waits _ hpc =>
        rw [hc] at hpc
        cases hpc
    | again e | yields e => cases e

theorem inOrder_of_exec {clock : Nat} {ls : List Label}
    (h : exec Vp.step (Vp.init clock) ls = some s) : InOrder (events clock ls) s :=
  events_ind ⟨fun _ => .nil, fun _ => .nil, .nil⟩ (fun _ _ _ _ V H he T => T.inOrder V H he) h

/-- The thread waits on the condition variable, and was not woken. -/
def WaitsOn (s : Vp) (n : Nat) (t : Tid) : Prop :=
  (s.thread t).pc.cond = some (.user n) ∧ (s.thread t).state = .condWait

/-- The thread waits for the mutex, and was not woken. -/
def WaitsFor (s : Vp) (m : Mid) (t : Tid) : Prop :=
  (s.thread t).pc.lock = some m ∧ (s.thread t).state = .lockWait

theorem Turn.of_signal {n : Nat} (T : Turn s (.call (.condSignal n)) s' evs) :
    Woken s (s.signalled false (.user n)) s' := by
  generalize hl : Label.call (.condSignal n) = l at T
  cases T with
  | @signals k broadcast _ W =>
      cases broadcast <;> cases hl
      exact W
  | refused h | interrupted h hc | waits _ h =>
      cases hl
      first | exact h.elim | exact hc.elim
  | locks h =>
      cases hl
      rcases h with h | h <;> cases h
  | _ => cases hl

/-- **`st_cond_signal` wakes the thread that waits longest**, and no other. -/
theorem cond_signal_fifo {clock n : Nat} {ls : List Label}
    (h : exec Vp.step (Vp.init clock) ls = some s)
    (hs : Vp.step s (.call (.condSignal n)) = some s') (ht : s.WaitsOn n t) :
    ∃ u, s.WaitsOn n u ∧ (s'.thread u).state = .runnable ∧
      ∀ v, v ≠ u → s.WaitsOn n v → s'.WaitsOn n v ∧ Before (events clock ls) u v := by
  have V := inv_of_exec h
  obtain ⟨he, T⟩ := V.turn hs
  have hmem : ∀ {v}, v ∈ s.waiters (s.waitq (.user n)) ↔ s.WaitsOn n v := fun {v} => by
    rw [waiters, List.mem_filter, V.queued.waitq, decide_eq_true_iff]
    rfl
  have W := T.of_signal
  have hsort : (s.waiters (s.waitq (.user n))).Pairwise (Before (events clock ls)) :=
    ((inOrder_of_exec h).waitq n).sublist List.filter_sublist
  have hnodup : (s.waiters (s.waitq (.user n))).Nodup := (V.queued.waitqNodup _).filter _
  cases hw : s.waiters (s.waitq (.user n)) with
  | nil =>
      have := hmem.mpr ht
      rw [hw] at this
      cases this
  | cons u rest =>
      rw [hw] at hsort hnodup
      have hsig : s.signalled false (.user n) = [(.signal, u)] := by simp [signalled, hw]
      rw [hsig] at W
      refine ⟨u, hmem.mp (by rw [hw]; exact List.mem_cons_self), ?_, fun v hv hwait => ⟨?_, ?_⟩⟩
      · rw [(W.thread_of_mem List.mem_cons_self).1, Why.thread_state]
      · have hth := W.thread_of_notMem (u := v) fun why hm => by
          cases List.mem_singleton.mp hm
          exact hv rfl
        rw [WaitsOn, hth]
        exact hwait
      · have hm := hmem.mpr hwait
        rw [hw] at hm
        exact (List.pairwise_cons.mp hsort).1 v ((List.mem_cons.mp hm).resolve_left hv)

theorem Turn.of_unlock (T : Turn s (.call (.mutexUnlock m)) s' evs)
    (ho : s.owner m = some s.current) (ht : t ∈ s.lockq m) (hst : (s.thread t).state = .lockWait) :
    ∃ u pre post, s.lockq m = pre ++ u :: post ∧ (∀ v ∈ pre, (s.thread v).state ≠ .lockWait) ∧
      (s.thread u).state = .lockWait ∧
      Wake { s with owner := Function.update s.owner m (some u) } (.handover m) u s' := by
  generalize hl : Label.call (.mutexUnlock m) = l at T
  cases T with
  | @handsOver n u _ pre post ho' hq hpre hu W =>
      cases hl
      exact ⟨u, pre, post, hq, hpre, hu, W⟩
  | unlocks _ hn =>
      cases hl
      exact absurd hst (hn t ht)
  | refused h =>
      cases hl
      exact absurd ho h.2
  | interrupted h hc | waits _ hc =>
      cases hl
      exact hc.elim
  | @signals _ broadcast => cases broadcast <;> cases hl
  | locks h =>
      cases hl
      rcases h with h | h <;> cases h
  | _ => cases hl

/-- Threads 1 and 2 wait on the condition variable 0, and thread 3 runs. -/
def waiting : List Label :=
  [.call (.create false), .call (.create false), .call (.condWait 0 noTimeout), .resume,
    .call (.condWait 0 noTimeout), .resume]

theorem cond_signal_fifo_waiting :
    ∃ u, (after waiting).WaitsOn 0 u ∧
      ((after (waiting ++ [.call (.condSignal 0)])).thread u).state = .runnable ∧
      ∀ v, v ≠ u → (after waiting).WaitsOn 0 v →
        (after (waiting ++ [.call (.condSignal 0)])).WaitsOn 0 v ∧
          Before (events 0 waiting) u v :=
  cond_signal_fifo (exec_after (by decide)) (step_after (by decide)) (t := 1)
    ⟨by decide, by decide⟩

/-- **`st_mutex_unlock` hands the mutex to the thread that waits longest.** -/
theorem mutex_unlock_fifo {clock : Nat} {ls : List Label}
    (h : exec Vp.step (Vp.init clock) ls = some s)
    (hs : Vp.step s (.call (.mutexUnlock m)) = some s') (ho : s.owner m = some s.current)
    (ht : s.WaitsFor m t) :
    ∃ u, s.WaitsFor m u ∧ s'.owner m = some u ∧ (s'.thread u).state = .runnable ∧
      ∀ v, v ≠ u → s.WaitsFor m v → s'.WaitsFor m v ∧ Before (events clock ls) u v := by
  have V := inv_of_exec h
  obtain ⟨he, T⟩ := V.turn hs
  obtain ⟨u, pre, post, hq, hpre, hu, W⟩ :=
    T.of_unlock ho ((V.queued.lockq m t).mpr ht.1) ht.2
  have hsort := (inOrder_of_exec h).lockq m
  rw [hq] at hsort
  have hmem : u ∈ s.lockq m := by
    rw [hq]
    simp
  refine ⟨u, ⟨(V.queued.lockq m u).mp hmem, hu⟩, ?_, ?_, fun v hv hwait => ⟨?_, ?_⟩⟩
  · rw [W.same.owner]
    exact Function.update_self _ _ _
  · rw [W.thread_self, Why.thread_state]
  · rw [WaitsFor, W.thread_of_ne hv]
    exact hwait
  · -- the threads before it on the queue have been woken
    have hm := (V.queued.lockq m v).mpr hwait.1
    rw [hq] at hm
    rcases List.mem_append.mp hm with hm | hm
    · exact absurd hwait.2 (hpre v hm)
    · have hpost := (List.mem_cons.mp hm).resolve_left hv
      exact (List.pairwise_cons.mp (List.pairwise_append.mp hsort).2.1).1 v hpost

/-- Thread 1 has the mutex 0, for which threads 2 and 3 wait. -/
def locked : List Label :=
  [.call (.create false), .call (.create false), .call (.mutexLock 0), .call (.yield 0), .resume,
    .call (.mutexLock 0), .resume, .call (.mutexLock 0), .resume]

theorem mutex_unlock_fifo_locked :
    ∃ u, (after locked).WaitsFor 0 u ∧
      (after (locked ++ [.call (.mutexUnlock 0)])).owner 0 = some u ∧
      ((after (locked ++ [.call (.mutexUnlock 0)])).thread u).state = .runnable ∧
      ∀ v, v ≠ u → (after locked).WaitsFor 0 v →
        (after (locked ++ [.call (.mutexUnlock 0)])).WaitsFor 0 v ∧
          Before (events 0 locked) u v :=
  mutex_unlock_fifo (exec_after (by decide)) (step_after (by decide)) (by decide) (t := 2)
    ⟨by decide, by decide⟩

end Vp

end StCoroutine.Sched
