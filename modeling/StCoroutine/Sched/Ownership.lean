import Mathlib.Data.List.Nodup
import StCoroutine.Sched.Fate

/-!
# Ownership — mutexes, and threads that are joined

A thread is in `_ST_ST_LOCK_WAIT` only while another has the mutex, and it leaves that state with
the mutex or with an interrupt (`Locked`).  A joinable thread has at most one other that waits for
it, and that one sees it as a zombie when it wakes: the wait is not missed (`Joins`).  With the
three other parts of the invariant, `Inv` holds in every state that is reached from `st_init`.
-/

set_option autoImplicit false

namespace StCoroutine.Sched
open Lts

/-- The mutex that a call is about. -/
def Call.mutex : Call → Option Mid
  | .mutexLock m | .mutexUnlock m | .mutexTrylock m => some m
  | _ => none

/-- The event is that a call about the mutex `m` returns `0`. -/
def Ev.Grants (m : Mid) : Ev → Prop
  | .leave _ c r => c.mutex = some m ∧ r = .ok
  | _ => False

namespace Vp

variable {s s' s₁ : Vp} {run : Option Tid} {t u me : Tid} {th : Thread} {b : Bool} {q : SleepQ}
  {c : Call} {l : Label} {evs : List Ev} {why : Why} {ws : List (Why × Tid)} {st : State} {pc : Pc}
  {m : Mid} {cv : Cid}

/-! ### What a step does to a mutex, and to a queue -/

/-- What a step shows of a call that returns `0` at once. -/
def done (s : Vp) (c : Call) : List Ev := [.enter s.current c s.lastClock, .leave s.current c .ok]

/-- **What a step does to the mutex `m`.**  Only a lock returns `0` without changing its owner. -/
inductive Owns (s s' : Vp) (evs : List Ev) (m : Mid) : Prop where
  | keeps (h : s'.owner m = s.owner m) (hev : ∀ e ∈ evs, ¬ e.Grants m)
  | returns (h : s'.owner m = s.owner m) (hpc : (s.thread s.current).pc = .inside (.mutexLock m))
      (hr : s.result (.mutexLock m) = .ok) (hth : s'.thread s.current = s.backThread (.mutexLock m))
      (hev : evs = [.leave s.current (.mutexLock m) .ok])
  | locks {c : Call} (hc : c = .mutexLock m ∨ c = .mutexTrylock m) (h : s.owner m = none)
      (h' : s'.owner m = some s.current) (hpc : (s'.thread s.current).pc = .user)
      (hev : evs = s.done c)
  | unlocks (h : s.owner m = some s.current) (h' : s'.owner m = none)
      (hn : ∀ t ∈ s.lockq m, (s.thread t).state ≠ .lockWait) (hev : evs = s.done (.mutexUnlock m))
  | handsOver {t : Tid} {pre post : List Tid} (h : s.owner m = some s.current)
      (h' : s'.owner m = some t) (hq : s.lockq m = pre ++ t :: post)
      (hpre : ∀ u ∈ pre, (s.thread u).state ≠ .lockWait)
      (ht : (s.thread t).state = .lockWait) (ht' : (s'.thread t).state = .runnable)
      (hev : evs = s.done (.mutexUnlock m))

theorem enqueue_owner : (s.enqueue c).owner = s.owner := by cases c <;> rfl

theorem dequeue_owner : (s.dequeue c).owner = s.owner := by cases c <;> rfl

theorem Refused.mutex {r : Ret} (h : s.Refused c r) : c.mutex = none ∨ r ≠ .ok := by
  cases c with
  | mutexLock | mutexUnlock | mutexTrylock =>
      obtain ⟨rfl, -⟩ := h
      exact .inr (by simp)
  | _ => exact .inl rfl

theorem Turn.owns (T : Turn s l s' evs) (I : Core s (some s.current)) (he : s.Enabled l)
    (m : Mid) : Owns s s' evs m := by
  cases T with
  | create joinable => exact .keeps rfl (by simp [Ev.Grants, Call.mutex])
  | refused h =>
      refine .keeps rfl ?_
      rcases Refused.mutex h with hm | hr
      · simp [Ev.Grants, hm]
      · simp [Ev.Grants, hr]
  | interrupted h hc hy => exact .keeps rfl (by simp [Ev.Grants])
  | waits h hw hq =>
      refine .keeps ?_ (by simp [Ev.Grants])
      rw [schedule_owner]
      exact congrFun enqueue_owner m
  | @signals _ broadcast _ W =>
      exact .keeps (congrFun W.same.owner m) (by cases broadcast <;> simp [Ev.Grants, Call.mutex])
  | @locks n c h hi ho =>
      by_cases hn : m = n
      · subst hn
        exact .locks h ho (Function.update_self _ _ _) he.1 rfl
      · refine .keeps (Function.update_of_ne hn _ _) ?_
        rcases h with rfl | rfl <;> simp [Ev.Grants, Call.mutex, Ne.symm hn]
  | @unlocks n ho hw =>
      by_cases hn : m = n
      · subst hn
        exact .unlocks ho (Function.update_self _ _ _) hw rfl
      · exact .keeps (Function.update_of_ne hn _ _) (by simp [Ev.Grants, Call.mutex, Ne.symm hn])
  | @handsOver n v _ _ _ ho hq hpre hst W =>
      have howner := W.same.owner
      by_cases hn : m = n
      · subst hn
        refine .handsOver ho ?_ hq hpre hst ?_ rfl
        · rw [howner]
          exact Function.update_self _ _ _
        · rw [W.thread_self, Why.thread_state]
      · refine .keeps ?_ (by simp [Ev.Grants, Call.mutex, Ne.symm hn])
        rw [howner]
        exact Function.update_of_ne hn _ _
  | flags hl hni h => exact .keeps rfl (by simp [Ev.Grants, Call.mutex])
  | interrupts hl W =>
      exact .keeps (congrFun W.same.owner m) (by simp [Ev.Grants, Call.mutex])
  | yields hts W hr =>
      refine .keeps ?_ (by simp [Ev.Grants])
      rw [schedule_owner]
      exact congrFun W.same.owner m
  | stays hts W hr =>
      exact .keeps (congrFun W.same.owner m) (by simp [Ev.Grants, Call.mutex])
  | exits h =>
      refine .keeps ?_ (by simp [Ev.Grants])
      rw [schedule_owner]
      rfl
  | dies h W =>
      refine .keeps ?_ (by simp [Ev.Grants])
      rw [schedule_owner]
      exact congrFun W.same.owner m
  | joins hl hne hj hq hz => exact .keeps rfl (by simp [Ev.Grants])
  | starts h => exact .keeps rfl (by simp)
  | @returns c h hj =>
      have ho : (s.dequeue c).owner m = s.owner m := congrFun dequeue_owner m
      by_cases hg : c.mutex = some m ∧ s.result c = .ok
      · obtain ⟨hm, hr⟩ := hg
        have hb := (I.ok s.current).state
        rw [h] at hb
        have hth : ((s.dequeue c).setCurrent (s.backThread c)).thread s.current =
            s.backThread c := by
          rw [setCurrent, dequeue_thread, dequeue_current]
          exact Function.update_self _ _ _
        cases c <;> first | exact hb.1.elim | cases hm
        exact .returns ho h hr hth (by rw [hr])
      · exact .keeps ho (by simpa [Ev.Grants] using hg)
  | rejoins h hr hz hq =>
      refine .keeps ?_ (by simp)
      rw [schedule_owner]
      rfl
  | joined h hr hz => exact .keeps rfl (by simp [Ev.Grants])
  | ends h =>
      refine .keeps ?_ (by simp [Ev.Grants, Call.mutex])
      rw [schedule_owner]
      rfl
  | idles D hts W =>
      refine .keeps ?_ (by simp [Ev.Grants])
      rw [schedule_owner]
      exact congrFun (W.same.owner.trans D.same.owner) m

/-- **What a step does to a queue** of threads that wait: the current thread is put at its tail, or
taken off. -/
inductive Lined (s : Vp) (q q' : List Tid) (evs : List Ev) (here : Pc → Prop) : Prop where
  | keeps (h : q' = q)
  | enters {c : Call} (hw : s.Waits c) (hc : here (.inside c)) (h : q' = q ++ [s.current])
      (hev : evs = [.enter s.current c s.lastClock])
  | leaves (h : q' = q.erase s.current)
  | again {t : Tid} (hpc : (s.thread s.current).pc = .inside (.join t))
      (hr : s.result (.join t) = .ok) (hz : (s.thread t).state ≠ .zombie)
      (hc : here (.inside (.join t))) (h : q' = q.erase s.current ++ [s.current]) (hev : evs = [])

theorem enqueue_waitq_of_ne (h : (Pc.inside c).cond ≠ some cv) :
    (s.enqueue c).waitq cv = s.waitq cv := by
  cases c with
  | condWait n _ => exact Function.update_of_ne (fun e => h (by rw [e]; rfl)) _ _
  | join t => exact Function.update_of_ne (fun e => h (by rw [e]; rfl)) _ _
  | _ => rfl

theorem enqueue_waitq (h : (Pc.inside c).cond = some cv) :
    (s.enqueue c).waitq cv = s.waitq cv ++ [s.current] := by
  cases c <;> cases h <;> exact Function.update_self _ _ _

theorem dequeue_waitq_of_ne (h : (Pc.inside c).cond ≠ some cv) :
    (s.dequeue c).waitq cv = s.waitq cv := by
  cases c with
  | condWait n _ => exact Function.update_of_ne (fun e => h (by rw [e]; rfl)) _ _
  | join t => exact Function.update_of_ne (fun e => h (by rw [e]; rfl)) _ _
  | _ => rfl

theorem dequeue_waitq (h : (Pc.inside c).cond = some cv) :
    (s.dequeue c).waitq cv = (s.waitq cv).erase s.current := by
  cases c <;> cases h <;> exact Function.update_self _ _ _

theorem Turn.waitq (T : Turn s l s' evs) (cv : Cid) :
    Lined s (s.waitq cv) (s'.waitq cv) evs fun pc => pc.cond = some cv := by
  cases T with
  | @waits c _ _ h hw hq =>
      rw [schedule_waitq]
      by_cases hc : (Pc.inside c).cond = some cv
      · exact .enters hw hc (enqueue_waitq hc) rfl
      · exact .keeps (enqueue_waitq_of_ne hc)
  | signals W => exact .keeps (congrFun W.same.waitq cv)
  | handsOver ho hq hpre hst W => exact .keeps (congrFun W.same.waitq cv)
  | interrupts hl W => exact .keeps (congrFun W.same.waitq cv)
  | yields hts W hr =>
      rw [schedule_waitq]
      exact .keeps (congrFun W.same.waitq cv)
  | stays hts W hr => exact .keeps (congrFun W.same.waitq cv)
  | exits h =>
      rw [schedule_waitq]
      exact .keeps rfl
  | dies h W =>
      rw [schedule_waitq]
      exact .keeps (congrFun W.same.waitq cv)
  | @returns c h hj =>
      by_cases hc : (Pc.inside c).cond = some cv
      · exact .leaves (dequeue_waitq hc)
      · exact .keeps (dequeue_waitq_of_ne hc)
  | @rejoins v _ _ h hr hz hq =>
      rw [schedule_waitq]
      show Lined s _ (((s.dequeue (.join v)).enqueue (.join v)).waitq cv) _ _
      by_cases hc : (Pc.inside (.join v)).cond = some cv
      · exact .again h hr hz hc (by rw [enqueue_waitq hc, dequeue_waitq hc]; rfl) rfl
      · exact .keeps (by rw [enqueue_waitq_of_ne hc, dequeue_waitq_of_ne hc])
  | @joined v h hr hz =>
      show Lined s _ ((s.dequeue (.join v)).waitq cv) _ _
      by_cases hc : (Pc.inside (.join v)).cond = some cv
      · exact .leaves (dequeue_waitq hc)
      · exact .keeps (dequeue_waitq_of_ne hc)
  | ends h =>
      rw [schedule_waitq]
      exact .keeps rfl
  | idles D hts W =>
      rw [schedule_waitq]
      exact .keeps (congrFun (W.same.waitq.trans D.same.waitq) cv)
  | _ => exact .keeps rfl

theorem enqueue_lockq_of_ne (h : (Pc.inside c).lock ≠ some m) :
    (s.enqueue c).lockq m = s.lockq m := by
  cases c with
  | mutexLock n => exact Function.update_of_ne (fun e => h (by rw [e]; rfl)) _ _
  | _ => rfl

theorem dequeue_lockq_of_ne (h : (Pc.inside c).lock ≠ some m) :
    (s.dequeue c).lockq m = s.lockq m := by
  cases c with
  | mutexLock n => exact Function.update_of_ne (fun e => h (by rw [e]; rfl)) _ _
  | _ => rfl

theorem Turn.lockq (T : Turn s l s' evs) (m : Mid) :
    Lined s (s.lockq m) (s'.lockq m) evs fun pc => pc.lock = some m := by
  cases T with
  | @waits c _ _ h hw hq =>
      rw [schedule_lockq]
      by_cases hc : (Pc.inside c).lock = some m
      · refine .enters hw hc ?_ rfl
        cases c <;> cases hc
        exact Function.update_self _ _ _
      · exact .keeps (enqueue_lockq_of_ne hc)
  | signals W => exact .keeps (congrFun W.same.lockq m)
  | handsOver ho hq hpre hst W => exact .keeps (congrFun W.same.lockq m)
  | interrupts hl W => exact .keeps (congrFun W.same.lockq m)
  | yields hts W hr =>
      rw [schedule_lockq]
      exact .keeps (congrFun W.same.lockq m)
  | stays hts W hr => exact .keeps (congrFun W.same.lockq m)
  | exits h =>
      rw [schedule_lockq]
      exact .keeps rfl
  | dies h W =>
      rw [schedule_lockq]
      exact .keeps (congrFun W.same.lockq m)
  | @returns c h hj =>
      by_cases hc : (Pc.inside c).lock = some m
      · refine .leaves ?_
        cases c <;> cases hc
        exact Function.update_self _ _ _
      · exact .keeps (dequeue_lockq_of_ne hc)
  | rejoins h hr hz hq =>
      rw [schedule_lockq]
      exact .keeps rfl
  | ends h =>
      rw [schedule_lockq]
      exact .keeps rfl
  | idles D hts W =>
      rw [schedule_lockq]
      exact .keeps (congrFun (W.same.lockq.trans D.same.lockq) m)
  | _ => exact .keeps rfl

/-! ### The io queue -/

/-- The io queue after a step. -/
def ioqAfter (s : Vp) : Label → List Tid
  | .call (.poll added _) =>
      if (s.thread s.current).interrupt = false ∧ added = true then s.ioq ++ [s.current] else s.ioq
  | .call _ => s.ioq
  | .resume => s.ioq.erase s.current
  | .idle ready _ => s.ioq.filter (· ∉ ready)

theorem ioqAfter_call (h : ¬ (Pc.inside c).Polls) : s.ioqAfter (.call c) = s.ioq := by
  cases c with
  | poll => exact absurd trivial h
  | _ => rfl

theorem Woken.ioq (W : Woken s ws s') (hw : ∀ w ∈ ws, w.1 ≠ .ready) : s'.ioq = s.ioq := by
  induction W with
  | nil => rfl
  | @cons s s₁ s₂ why t ws h _ ih =>
      rw [ih fun w hm => hw w (List.mem_cons_of_mem _ hm)]
      have hwhy : why ≠ .ready := hw (why, t) List.mem_cons_self
      obtain ⟨q, rfl, -⟩ := h.eq
      cases why with
      | ready => exact absurd rfl hwhy
      | _ => rfl

theorem Woken.ioq_of_ready {ts : List Tid} (W : Woken s (ts.map fun t => (Why.ready, t)) s') :
    s'.ioq = s.ioq.diff ts := by
  induction ts generalizing s with
  | nil =>
      cases W
      rfl
  | cons t ts ih =>
      cases W with
      | cons h hs =>
          obtain ⟨q, rfl, -⟩ := h.eq
          rw [ih hs, List.diff_cons]
          rfl

theorem signalled_ne_ready {broadcast : Bool} {cv : Cid} :
    ∀ w ∈ s.signalled broadcast cv, w.1 ≠ .ready := by
  intro w hw
  obtain ⟨t, -, rfl⟩ := List.mem_map.mp hw
  simp

theorem timeouts_ne_ready {now : Nat} {ts : List Tid} :
    ∀ w ∈ ts.map (fun t => (Why.timeout now, t)), w.1 ≠ .ready := by
  intro w hw
  obtain ⟨t, -, rfl⟩ := List.mem_map.mp hw
  simp

/-- **What a step does to the io queue.** -/
theorem Turn.ioq (T : Turn s l s' evs) (Q : s.Queued) : s'.ioq = s.ioqAfter l := by
  have hout : ∀ {c}, (s.thread s.current).pc = .inside c → ¬ (Pc.inside c).Polls →
      s.ioq.erase s.current = s.ioq := fun hpc hp =>
    List.erase_of_not_mem fun h => hp (hpc ▸ Q.ioq _ h)
  cases T with
  | create | joins | flags | unlocks => rfl
  | @refused c r h =>
      cases c with
      | poll added timeout => rw [ioqAfter, if_neg (by simp [h.2])]
      | _ => rfl
  | @interrupted c h =>
      cases c with
      | poll added timeout => exact (if_neg (by simp [h])).symm
      | _ => rfl
  | @waits c b q h hw hq =>
      rw [schedule_ioq]
      cases c with
      | poll added timeout => exact (if_pos ⟨h, hw⟩).symm
      | _ => rfl
  | @signals n broadcast _ W =>
      rw [W.ioq signalled_ne_ready]
      cases broadcast <;> rfl
  | locks h => rcases h with rfl | rfl <;> rfl
  | handsOver _ _ _ _ W | interrupts _ W =>
      obtain ⟨q, rfl, -⟩ := W.eq
      rfl
  | yields _ W | stays _ W =>
      first
      | exact schedule_ioq.trans (W.ioq timeouts_ne_ready)
      | exact W.ioq timeouts_ne_ready
  | exits => exact schedule_ioq
  | dies _ W => exact schedule_ioq.trans (W.ioq signalled_ne_ready)
  | starts h =>
      refine (List.erase_of_not_mem fun hm => ?_).symm
      have hp := Q.ioq _ hm
      rw [h] at hp
      exact hp
  | @returns c h =>
      cases c with
      | poll => rfl
      | _ => exact (hout h id).symm
  | rejoins h => exact schedule_ioq.trans (hout h id).symm
  | joined h => exact (hout h id).symm
  | ends h =>
      rw [schedule_ioq]
      refine (List.erase_of_not_mem fun hm => ?_).symm
      have hp := Q.ioq _ hm
      rw [h] at hp
      exact hp
  | @idles ready ts now s₁ s₂ D hts W =>
      rw [schedule_ioq]
      show s₂.ioq = _
      rw [W.ioq timeouts_ne_ready]
      show s₁.ioq = _
      rw [D.ioq_of_ready, ioqAfter, Q.ioqNodup.sdiff_eq_filter]
      refine List.filter_congr fun t ht => ?_
      simp [ht]

/-! ### Mutexes -/

/-- **A thread waits for a mutex while another has it**, and goes on with it or interrupted. -/
structure Locked (s : Vp) : Prop where
  held : ∀ m t, (s.thread t).pc.lock = some m → (s.thread t).state = .lockWait →
    ∃ u, s.owner m = some u ∧ u ≠ t
  given : ∀ m t, (s.thread t).pc.lock = some m → (s.thread t).state ≠ .lockWait →
    s.owner m = some t ∨ (s.thread t).interrupt = true

theorem pc_of_lock (h : pc.lock = some m) : pc = .inside (.mutexLock m) := by
  cases pc with
  | inside c =>
      cases c <;> cases h
      rfl
  | _ => cases h

/-- A thread that waits for a mutex is woken by an interrupt, or when it is handed the mutex. -/
theorem Cause.of_lock (C : Cause s s' evs t why) (I : Core s run) (Q : s.Queued)
    (hl : (s.thread t).pc.lock = some m) :
    why = .interrupt ∨ (why = .handover m ∧ s.owner m = some s.current ∧ s'.owner m = some t) := by
  have hpc := pc_of_lock hl
  cases C with
  | signal hc hev hw hst =>
      rw [hpc] at hw
      cases hw
  | dies hev hw hst hz =>
      rw [hpc] at hw
      cases hw
  | timeout hev hon hdue =>
      have htimed := ((I.ok t).timed hon).1
      have hok := (I.ok t).state
      rw [hpc] at hok
      rcases hok.2 with e | e | e <;> rw [e] at htimed <;> exact htimed.elim
  | interrupt hev => exact .inl rfl
  | ready hev ht hio =>
      have := Q.ioq t hio
      rw [hpc] at this
      exact this.elim
  | handover hev ho ho' hw hst =>
      rw [hl] at hw
      cases hw
      exact .inr ⟨rfl, ho, ho'⟩

/-- **Every step keeps the mutexes.** -/
theorem Turn.locked (T : Turn s l s' evs) (I : Core s (some s.current)) (Q : s.Queued)
    (L : s.Locked) (he : s.Enabled l) : s'.Locked := by
  refine ⟨fun m t hl hst => ?_, fun m t hl hst => ?_⟩
  · -- the thread waited before, or begins to
    cases (T.fate I Q he t).inside I (pc_of_lock hl) with
    | stays hne hpc h hio hdue =>
        rw [h.state_iff (by simp) (by simp)] at hst
        have hl : (s.thread t).pc.lock = some m := by rw [hpc]; rfl
        obtain ⟨u, hu, hut⟩ := L.held m t hl hst
        cases T.owns I he m with
        | keeps h | returns h => exact ⟨u, h.trans hu, hut⟩
        | locks hc h h' _ hev =>
            rw [hu] at h
            cases h
        | unlocks h h' hn hev => exact absurd hst (hn t ((Q.lockq m t).mpr hl))
        | @handsOver v _ _ ho ho' hq hpre hv hv' hev =>
            refine ⟨v, ho', fun e => ?_⟩
            rw [← e, hv] at hst
            rw [← e] at h
            have := (h.state_iff (x := .lockWait) (by simp) (by simp)).mpr hv
            rw [hv'] at this
            cases this
    | wakes hne hpc hwait hc h hio =>
        have := (h.state_iff (x := .lockWait) (by simp) (by simp)).mp hst
        simp at this
    | flagged hne hpc hrun h hio hdue hev =>
        rw [h, show (s.thread t).state = .runnable from hrun] at hst
        cases hst
    | waits hcur hpc hi hw h hb hdue hev =>
        obtain ⟨v, hv⟩ := Option.ne_none_iff_exists'.mp hw.1
        have hvt : v ≠ t := fun e => hw.2 (by rw [hv, e, hcur])
        cases T.owns I he m with
        | keeps h | returns h => exact ⟨v, h.trans hv, hvt⟩
        | locks hc h h' hev' => exact absurd h hw.1
        | unlocks h h' hn hev' => exact absurd h hw.2
        | handsOver h h' hq hpre ht ht' hev' => exact absurd h hw.2
    | again hc | yields hc => cases hc
  · -- it was given the mutex or interrupted before, or is now
    have hkeep : t ≠ s.current → s.owner m = some t → s'.owner m = some t := fun hne ho => by
      cases T.owns I he m with
      | keeps h | returns h => exact h.trans ho
      | locks hc h h' _ hev =>
          rw [ho] at h
          cases h
      | unlocks h h' hn hev =>
          rw [ho] at h
          exact absurd (Option.some.inj h) hne
      | handsOver h h' hq hpre ht ht' hev =>
          rw [ho] at h
          exact absurd (Option.some.inj h) hne
    cases (T.fate I Q he t).inside I (pc_of_lock hl) with
    | stays hne hpc h hio hdue =>
        rw [h.interrupt]
        have hl : (s.thread t).pc.lock = some m := by rw [hpc]; rfl
        refine (L.given m t hl fun e => hst ?_).imp_left (hkeep hne)
        exact (h.state_iff (by simp) (by simp)).mpr e
    | wakes hne hpc hwait hc h hio =>
        have hl : (s.thread t).pc.lock = some m := by rw [hpc]; rfl
        rcases hc.of_lock I Q hl with rfl | ⟨rfl, -, ho'⟩
        · refine .inr ?_
          rw [h.interrupt]
          simp
        · exact .inl ho'
    | flagged hne hpc hrun h hio hdue hev =>
        exact .inr (by rw [h])
    | waits hcur hpc hi hw h hb hdue hev => exact absurd (by rw [h]; rfl) hst
    | again hc | yields hc => cases hc

/-! ### Timeouts -/

/-- **A thread is on the sleep queue for a call that has a timeout**, and the clock is what flagged
it in `st_cond_timedwait`. -/
structure Clocked (s : Vp) : Prop where
  asleep : ∀ t c, (s.thread t).pc = .inside c → (s.thread t).onSleepq = true →
    c.timeout ≠ noTimeout
  flag : ∀ t, (s.thread t).timedout = true →
    ∃ n timeout, (s.thread t).pc = .inside (.condWait n timeout)

theorem Clocked.not_join (K : s.Clocked) (hpc : (s.thread t).pc = .inside (.join u)) :
    (s.thread t).onSleepq = false ∧ (s.thread t).timedout = false := by
  refine ⟨?_, ?_⟩
  · cases h : (s.thread t).onSleepq with
    | false => rfl
    | true => exact absurd rfl (K.asleep t _ hpc h)
  · cases h : (s.thread t).timedout with
    | false => rfl
    | true =>
        obtain ⟨n, timeout, e⟩ := K.flag t h
        rw [hpc] at e
        cases e

/-- **Every step keeps the timeouts.** -/
theorem Turn.clocked (T : Turn s l s' evs) (I : Core s (some s.current)) (Q : s.Queued)
    (K : s.Clocked) (he : s.Enabled l) : s'.Clocked := by
  refine ⟨fun t c hpc hon => ?_, fun t hf => ?_⟩
  · cases (T.fate I Q he t).inside I hpc with
    | stays hne hpc h hio hdue => exact K.asleep t c hpc (h.onSleepq ▸ hon)
    | wakes hne hpc hst hc h hio =>
        rw [h.onSleepq, Why.thread_onSleepq] at hon
        cases hon
    | flagged hne hpc hst h hio hdue hev => exact K.asleep t c hpc (by rwa [h] at hon)
    | waits hcur hpc hi hw h hb hdue hev =>
        rw [h] at hon
        exact hb.mp hon
    | again hc hcur hpc hr hz h hev =>
        rw [h] at hon
        cases hon
    | yields hc hcur hpc h hev =>
        rw [h.onSleepq] at hon
        cases hon
  · -- the flag is set by the clock only
    have hout : (s.thread t).pc = .user ∨ (s.thread t).pc = .start ∨ (s.thread t).pc = .exit ∨
        (s.thread t).pc = .idle ∨ (∃ u, (s.thread t).pc = .inside (.join u)) →
        (s.thread t).timedout = false := fun h => by
      cases hf : (s.thread t).timedout with
      | false => rfl
      | true =>
          obtain ⟨n, timeout, e⟩ := K.flag t hf
          rw [e] at h
          rcases h with h | h | h | h | ⟨u, h⟩ <;> cases h
    cases T.fate I Q he t with
    | rests hne h hio hdue =>
        rw [h.timedout] at hf
        rw [h.pc]
        exact K.flag t hf
    | @wakes why hne hl hb hc h hio =>
        rw [h.timedout] at hf
        rw [h.pc, Why.thread_pc]
        cases why with
        | timeout now =>
            by_cases hold : (s.thread t).timedout = true
            · exact K.flag t hold
            · have hst : (s.thread t).state = .condWait := by
                simpa [Why.thread, hold] using hf
              obtain ⟨c, hpc, -, hwait⟩ := I.inside_of_blocked hl hb
              cases hc with
              | timeout hev hon hdue =>
                  have ht := K.asleep t c hpc hon
                  rw [hst] at hwait
                  cases c with
                  | condWait n timeout => exact ⟨n, timeout, hpc⟩
                  | join u => exact absurd rfl ht
                  | usleep usecs =>
                      rw [Call.waitState] at hwait
                      split at hwait <;> cases hwait
                  | _ => cases hwait
        | signal | interrupt | ready | handover => exact K.flag t hf
    | flagged hme hst h hio hdue hev =>
        rw [h] at hf ⊢
        exact K.flag t hf
    | collected hne hz h hj hev =>
        rw [h] at hf ⊢
        exact K.flag t hf
    | created hn hdead hne h =>
        obtain ⟨j, h⟩ := h
        rw [h] at hf
        cases hf
    | calls hcur hpc hr h hev | waits hcur hpc _ _ h _ _ hev | exits hcur hpc _ h hev
    | dies hcur hpc _ h _ hev =>
        rw [h] at hf
        exact absurd hf (by simp [hout (.inl hpc)])
    | yields hcur hpc h hev =>
        rw [h.timedout] at hf
        exact absurd hf (by simp [hout (.inl hpc)])
    | idles hcur hpc h hev =>
        rw [h.timedout] at hf
        exact absurd hf (by simp [hout (.inr (.inr (.inr (.inl hpc))))])
    | starts hcur hpc h hev =>
        rw [h] at hf
        exact absurd hf (by simp [hout (.inr (.inl hpc))])
    | ends hcur hpc h hev =>
        rw [h] at hf
        exact absurd hf (by simp [hout (.inr (.inr (.inl hpc)))])
    | rejoins hcur hpc hr hz h hev =>
        rw [h] at hf
        exact absurd hf (by simp [hout (.inr (.inr (.inr (.inr ⟨_, hpc⟩))))])
    | returns hcur hpc hj h hev | joined hcur hpc hr hz h hev =>
        subst hcur
        rw [h, backThread] at hf
        by_cases hc : ((s.thread s.current).pc.cond).isSome = true
        · simp [hc] at hf
        · simp only [hc] at hf
          obtain ⟨n, timeout, e⟩ := K.flag _ hf
          rw [e] at hc
          exact absurd rfl hc

/-! ### Threads that are joined -/

/-- **A joinable thread has one that waits for it**, which is woken when the thread has become a
zombie, and finds it as one. -/
structure Joins (s : Vp) : Prop where
  one : ∀ t v u, (s.thread t).pc = .inside (.join u) → (s.thread v).pc = .inside (.join u) → t = v
  known : ∀ t u, (s.thread t).pc = .inside (.join u) → u < s.next
  joinable : ∀ t u, (s.thread t).pc = .inside (.join u) → s.Live u →
    (s.thread u).joinable = true
  notified : ∀ t u, (s.thread t).pc = .inside (.join u) → (s.thread u).state = .zombie →
    (s.thread t).state ≠ .condWait
  woken : ∀ t u, (s.thread t).pc = .inside (.join u) → (s.thread t).state ≠ .condWait →
    (s.thread t).interrupt = false → (s.thread u).state = .zombie

theorem Turn.next_le (T : Turn s l s' evs) : s.next ≤ s'.next := by
  have hsched : ∀ {s₁ : Vp}, s₁.next = s.next → s.next ≤ s₁.schedule.next := by
    intro s₁ h
    rw [Vp.schedule]
    split <;> exact Nat.le_of_eq h.symm
  cases T with
  | create joinable => exact Nat.le_succ _
  | @waits c _ _ h hw hq => exact hsched (by cases c <;> rfl)
  | signals W => exact Nat.le_of_eq W.same.next.symm
  | handsOver _ _ _ _ W => exact Nat.le_of_eq W.same.next.symm
  | interrupts _ W => exact Nat.le_of_eq W.same.next.symm
  | yields _ W _ => exact hsched W.same.next
  | stays _ W _ => exact Nat.le_of_eq W.same.next.symm
  | exits h => exact hsched rfl
  | dies h W => exact hsched W.same.next
  | @returns c h hj => cases c <;> exact Nat.le_refl _
  | rejoins h hr hz hq => exact hsched rfl
  | ends h => exact hsched rfl
  | idles D _ W => exact hsched (W.same.next.trans D.same.next)
  | _ => exact Nat.le_refl _

theorem pc_of_term (h : pc.cond = some (.term u)) : pc = .inside (.join u) := by
  cases pc with
  | inside c =>
      cases c <;> cases h
      rfl
  | _ => cases h

theorem pc_of_user {n : Nat} (h : pc.cond = some (.user n)) :
    ∃ timeout, pc = .inside (.condWait n timeout) := by
  cases pc with
  | inside c =>
      cases c <;> cases h
      exact ⟨_, rfl⟩
  | _ => cases h

/-- A zombie stays one until it is joined. -/
theorem Fate.zombie_of (F : Fate s s' evs u) (hz : (s'.thread u).state = .zombie) :
    (s.thread u).state = .zombie ∨ (u = s.current ∧ (s.thread u).pc = .user ∧
      ∀ v ∈ (s.waiters (s.waitq (.term u))).take 1, (s'.thread v).state ≠ .condWait) := by
  cases F with
  | rests hne h hio hdue => exact .inl ((h.state_iff (by simp) (by simp)).mp hz)
  | wakes hne hl hb hc h hio =>
      have := (h.state_iff (x := .zombie) (by simp) (by simp)).mp hz
      simp at this
  | flagged hme hst h hio hdue hev => exact .inl (by rwa [h] at hz)
  | dies hcur hpc hj h hw hev => exact .inr ⟨hcur, hpc, hw⟩
  | calls hcur hpc hr h hev => exact .inl (by rwa [h] at hz)
  | starts hcur hpc h hev => exact .inl (by rwa [h] at hz)
  | returns hcur hpc hj h hev => exact .inl (by subst hcur; rwa [h] at hz)
  | joined hcur hpc hr hz' h hev => exact .inl (by subst hcur; rwa [h] at hz)
  | waits hcur hpc hi hw h hb hdue hev =>
      rw [h] at hz
      have := blocked_waitState hw
      rw [show Call.waitState _ = .zombie from hz] at this
      exact this.elim
  | created hn hdead hne h =>
      obtain ⟨j, h⟩ := h
      rw [h] at hz
      cases hz
  | yields hcur hpc h hev | idles hcur hpc h hev =>
      have := (h.state_iff (x := .zombie) (by simp) (by simp)).mp hz
      cases this
  | collected _ _ h _ _ | exits _ _ _ h _ | rejoins _ _ _ _ h _ | ends _ _ h _ =>
      rw [h] at hz
      cases hz

/-- Whether a thread can be joined does not change until it is freed. -/
theorem Fate.joinable_eq (F : Fate s s' evs u) (I : Core s (some s.current)) (hu : u ≠ s.next)
    (hl : s'.Live u) : s.Live u ∧ (s'.thread u).joinable = (s.thread u).joinable := by
  have hcur : u = s.current → s.Live u := fun e => e ▸ I.current_live
  cases F with
  | rests hne h hio hdue => exact ⟨by rwa [Live, h.pc] at hl, h.joinable⟩
  | wakes hne hlu hb hc h hio => exact ⟨hlu, h.joinable.trans Why.thread_joinable⟩
  | flagged hme hst h hio hdue hev => exact ⟨by rwa [Live, h] at hl, by rw [h]⟩
  | collected hne hz h _ hev => exact ⟨I.live_of_zombie hz, by rw [h]⟩
  | created hn hdead hne h => exact absurd hn hu
  | yields hc hp h hev | idles hc hp h hev => exact ⟨hcur hc, h.joinable⟩
  | returns hc hp _ h hev | joined hc hp _ _ h hev =>
      subst hc
      exact ⟨I.current_live, by rw [h]; rfl⟩
  | exits hc hp _ h hev | ends hc hp h hev =>
      rw [Live, h] at hl
      exact absurd rfl hl
  | calls hc _ _ h | waits hc _ _ _ h | starts hc _ h | dies hc _ _ h | rejoins hc _ _ _ h =>
      exact ⟨hcur hc, by rw [h]⟩

/-- One that is awaited is not collected by another thread. -/
theorem Fate.zombie_keep (F : Fate s s' evs u) (I : Core s (some s.current)) (Q : s.Queued)
    (J : s.Joins) (hz : (s.thread u).state = .zombie) (hpc : (s.thread t).pc = .inside (.join u))
    (hne : t ≠ s.current) : (s'.thread u).state = .zombie := by
  have hu : u ≠ s.current := fun e => by
    rw [e, I.current_state] at hz
    cases hz
  have ht : t ∈ s.waitq (.term u) := (Q.waitq _ t).mpr (by rw [hpc]; rfl)
  cases F with
  | rests _ h hio hdue => exact (h.state_iff (by simp) (by simp)).mpr hz
  | wakes _ hl hb hc h hio =>
      rw [hz] at hb
      exact hb.elim
  | flagged hme hst h hio hdue hev => rwa [h]
  | collected _ _ h hj hev =>
      rcases hj with hj | hj
      · rw [hj] at ht
        cases ht
      · exact absurd (J.one t s.current u hpc hj) hne
  | created hn hdead _ h => exact absurd (I.live_of_zombie hz) hdead
  | calls hcur | waits hcur | yields hcur | exits hcur | dies hcur | starts hcur | returns hcur
  | rejoins hcur | joined hcur | ends hcur | idles hcur => exact absurd hcur hu

/-- The one thread that waits for `u` is the one that a signal on its `term` wakes. -/
theorem Joins.first (J : s.Joins) (Q : s.Queued) (hpc : (s.thread t).pc = .inside (.join u))
    (hst : (s.thread t).state = .condWait) : t ∈ (s.waiters (s.waitq (.term u))).take 1 := by
  have hmem : t ∈ s.waiters (s.waitq (.term u)) :=
    List.mem_filter.mpr ⟨(Q.waitq _ t).mpr (by rw [hpc]; rfl), by simpa using hst⟩
  cases hw : s.waiters (s.waitq (.term u)) with
  | nil =>
      rw [hw] at hmem
      cases hmem
  | cons v rest =>
      have hv : v ∈ s.waiters (s.waitq (.term u)) := by rw [hw]; exact List.mem_cons_self
      have hpv := pc_of_term ((Q.waitq _ v).mp (List.mem_filter.mp hv).1)
      rw [J.one t v u hpc hpv]
      exact List.mem_cons_self

/-- **Every step keeps the joins.** -/
theorem Turn.awaited (T : Turn s l s' evs) (I : Core s (some s.current)) (Q : s.Queued)
    (K : s.Clocked) (J : s.Joins) (he : s.Enabled l) : s'.Joins := by
  have F := T.fate I Q he
  have hin : ∀ {t u}, (s'.thread t).pc = .inside (.join u) → Inside s s' evs t (.join u) :=
    fun h => (F _).inside I h
  -- a thread that is not on its way into the call was in it
  have hold : ∀ {t u}, (s'.thread t).pc = .inside (.join u) →
      (s.thread t).pc = .inside (.join u) ∨ (t = s.current ∧ s.Waits (.join u)) := by
    intro t u h
    cases hin h with
    | stays _ hpc | wakes _ hpc | flagged _ hpc => exact .inl hpc
    | waits hcur _ _ hw => exact .inr ⟨hcur, hw⟩
    | again hc hcur hpc =>
        cases hc
        exact .inl hpc
    | yields hc => cases hc
  refine ⟨fun t v u ht hv => ?_, fun t u hpc => ?_, fun t u hpc hl => ?_, fun t u hpc hz hst => ?_,
    fun t u hpc hst hi => ?_⟩
  · have hnone : ∀ {x}, s.Waits (.join u) → (s.thread x).pc ≠ .inside (.join u) := by
      intro x hw e
      have hx : x ∈ s.waitq (.term u) := (Q.waitq _ x).mpr (by rw [e]; rfl)
      rw [hw.2.2.2.1] at hx
      cases hx
    rcases hold ht with h | ⟨hc, hw⟩ <;> rcases hold hv with h' | ⟨hc', hw'⟩
    · exact J.one t v u h h'
    · exact absurd h (hnone hw')
    · exact absurd h' (hnone hw)
    · exact hc.trans hc'.symm
  · refine Nat.lt_of_lt_of_le ?_ T.next_le
    rcases hold hpc with h | ⟨hc, hw⟩
    · exact J.known t u h
    · exact I.lt_next hw.2.2.2.2
  · have hj : s.Live u → (s.thread u).joinable = true := fun hl => by
      rcases hold hpc with h | ⟨hc, hw⟩
      · exact J.joinable t u h hl
      · exact hw.2.1
    have hlt : u < s.next := by
      rcases hold hpc with h | ⟨hc, hw⟩
      · exact J.known t u h
      · exact I.lt_next hw.2.2.2.2
    obtain ⟨hlu, he⟩ := (F u).joinable_eq I (Nat.ne_of_lt hlt) hl
    exact he.trans (hj hlu)
  · cases hin hpc with
    | stays hne hpc h hio hdue =>
        have hst' := (h.state_iff (by simp) (by simp)).mp hst
        rcases (F u).zombie_of hz with hz | ⟨-, -, hw⟩
        · exact J.notified t u hpc hz hst'
        · exact hw t (J.first Q hpc hst') hst
    | wakes hne hpc _ hc h hio =>
        have := (h.state_iff (x := .condWait) (by simp) (by simp)).mp hst
        simp at this
    | flagged hne hpc hrun h hio hdue hev =>
        rw [h, show (s.thread t).state = .runnable from hrun] at hst
        cases hst
    | waits hcur hp hi hw h hb hdue hev =>
        rcases (F u).zombie_of hz with hz | ⟨hc, -⟩
        · exact hw.1 hz
        · exact hw.2.2.1 hc.symm
    | again hc hcur hp hr hz' h hev =>
        cases hc
        rcases (F u).zombie_of hz with hz | ⟨hc, hp', -⟩
        · exact hz' hz
        · rw [hc, ← hcur, hp] at hp'
          cases hp'
    | yields hc => cases hc
  · cases hin hpc with
    | stays hne hpc h hio hdue =>
        have hst' : (s.thread t).state ≠ .condWait := fun e =>
          hst ((h.state_iff (by simp) (by simp)).mpr e)
        exact (F u).zombie_keep I Q J (J.woken t u hpc hst' (h.interrupt ▸ hi)) hpc hne
    | @wakes why hne hpc hwait hc h hio =>
        rw [h.interrupt, Why.thread_interrupt] at hi
        cases hc with
        | signal hc hev hw hst =>
            rw [hpc] at hw
            cases hw
        | dies hev hw hst hz =>
            rw [hpc] at hw
            cases hw
            exact hz
        | timeout hev hon hdue =>
            rw [(K.not_join hpc).1] at hon
            cases hon
        | interrupt hev => simp at hi
        | ready hev ht hmem =>
            have := Q.ioq t hmem
            rw [hpc] at this
            exact this.elim
        | handover hev ho ho' hw hst =>
            rw [hpc] at hw
            cases hw
    | flagged hne hpc hrun h hio hdue hev =>
        rw [h] at hi
        cases hi
    | waits hcur hp hi' hw h hb hdue hev => exact absurd (by rw [h]; rfl) hst
    | again hc hcur hp hr hz' h hev => exact absurd (by rw [h]) hst
    | yields hc => cases hc

/-! ### Runs -/

/-- **What holds in every state of the scheduler.** -/
structure Inv (s : Vp) : Prop where
  core : Core s (some s.current)
  idleLast : s.IdleLast
  queued : s.Queued
  locked : s.Locked
  clocked : s.Clocked
  joins : s.Joins

/-- A step that is taken is a turn. -/
theorem Inv.turn (V : s.Inv) (h : step s l = some s') :
    s.Enabled l ∧ Turn s l s' (obs s l) := by
  have he : s.Enabled l := by
    by_contra hn
    rw [step, if_neg hn] at h
    cases h
  obtain ⟨s₁, evs, hact, T⟩ := act_turn V.core V.queued V.idleLast he
  have hs : s₁ = s' := by simpa [step, he, hact] using h
  have hobs : obs s l = evs := by simp [obs, hact]
  rw [hobs, ← hs]
  exact ⟨he, T⟩

/-- **Every step keeps the invariant.** -/
theorem Inv.step (V : s.Inv) (h : step s l = some s') : s'.Inv := by
  obtain ⟨he, T⟩ := V.turn h
  have hs := T.settled V.core he
  exact ⟨hs.core, hs.idleLast, T.queued V.core V.queued he, T.locked V.core V.queued V.locked he,
    T.clocked V.core V.queued V.clocked he, T.awaited V.core V.queued V.clocked V.joins he⟩

/-- The threads after `st_init`. -/
theorem init_cases (clock : Nat) (t : Tid) :
    (t = 0 ∧ (init clock).thread t = ⟨.runnable, false, false, false, false, 0, .idle⟩) ∨
    (t = 1 ∧ (init clock).thread t = ⟨.running, false, false, false, false, 0, .user⟩) ∨
    (2 ≤ t ∧ (init clock).thread t = ⟨.runnable, false, false, false, false, 0, .gone⟩) := by
  match t with
  | 0 => exact .inl ⟨rfl, rfl⟩
  | 1 => exact .inr (.inl ⟨rfl, rfl⟩)
  | t + 2 => exact .inr (.inr ⟨Nat.le_add_left 2 t, rfl⟩)

theorem Core.init (clock : Nat) : Core (init clock) (some (init clock).current) := by
  constructor
  case runqNodup | zombieqNodup => exact List.nodup_nil
  case heap =>
    refine SleepQ.sleeps_init.congr fun t => ?_
    rcases init_cases clock t with ⟨-, h⟩ | ⟨-, h⟩ | ⟨-, h⟩ <;> simp [h]
  case runs =>
    intro t h
    cases h
    simp [Live, Vp.init]
  all_goals
    intro t
    rcases init_cases clock t with ⟨ht, h⟩ | ⟨ht, h⟩ | ⟨ht, h⟩
  case ok.inl | ok.inr.inl | ok.inr.inr =>
    rw [h]
    exact ⟨by simp [Pc.Allows], fun h => by cases h⟩
  case fresh.inl | fresh.inr.inl =>
    subst ht
    exact fun hle => absurd hle (by simp [Vp.init])
  case fresh.inr.inr => exact fun _ hl => hl (by rw [h])
  case idle.inl | idle.inr.inl =>
    subst ht
    simp [Vp.init]
  case idle.inr.inr =>
    rw [h]
    exact iff_of_false (by simp) (Nat.ne_of_gt (Nat.lt_of_lt_of_le Nat.two_pos ht))
  case running.inl | running.inr.inl =>
    subst ht
    simp [Vp.init]
  case running.inr.inr => exact fun hl => absurd (by rw [h]) hl
  case runq.inl | runq.inr.inl =>
    subst ht
    simp [Vp.init]
  case runq.inr.inr => exact iff_of_false List.not_mem_nil fun hl => hl.1 (by rw [h])
  case zombieq.inl | zombieq.inr.inl | zombieq.inr.inr =>
    refine iff_of_false List.not_mem_nil fun hz => ?_
    rw [h] at hz
    cases hz.2

/-- **The invariant holds after `st_init`.** -/
theorem Inv.init (clock : Nat) : (Vp.init clock).Inv := by
  have hpc : ∀ t, ((Vp.init clock).thread t).pc.cond = Option.none ∧
      ((Vp.init clock).thread t).pc.lock = Option.none ∧
      ((Vp.init clock).thread t).state ≠ .ioWait ∧
      ((Vp.init clock).thread t).timedout = false ∧
      ∀ c, ((Vp.init clock).thread t).pc ≠ .inside c := by
    intro t
    rcases init_cases clock t with ⟨-, h⟩ | ⟨-, h⟩ | ⟨-, h⟩ <;> simp [h, Pc.cond, Pc.lock]
  constructor
  case core => exact Core.init clock
  case idleLast => exact fun _ => rfl
  case queued =>
    refine ⟨fun cv t => ?_, fun _ => .nil, fun m t => ?_, fun _ => .nil, fun t h => ?_, .nil,
      fun t _ h => absurd h (hpc t).2.2.1⟩
    · rw [(hpc t).1]
      exact iff_of_false (by simp [Vp.init]) (by simp)
    · rw [(hpc t).2.1]
      exact iff_of_false (by simp [Vp.init]) (by simp)
    · cases h
  case locked =>
    refine ⟨fun m t h => ?_, fun m t h => ?_⟩ <;>
    · rw [(hpc t).2.1] at h
      cases h
  case clocked =>
    refine ⟨fun t c h => absurd h ((hpc t).2.2.2.2 c), fun t h => ?_⟩
    rw [(hpc t).2.2.2.1] at h
    cases h
  case joins =>
    exact ⟨fun t _ _ h => absurd h ((hpc t).2.2.2.2 _), fun t _ h => absurd h ((hpc t).2.2.2.2 _),
      fun t _ h => absurd h ((hpc t).2.2.2.2 _), fun t _ h => absurd h ((hpc t).2.2.2.2 _),
      fun t _ h => absurd h ((hpc t).2.2.2.2 _)⟩

/-- **The invariant holds in every state that is reached.** -/
theorem inv_of_exec {clock : Nat} {ls : List Label} (h : exec Vp.step (Vp.init clock) ls = some s) :
    s.Inv :=
  exec_inv (Inv.init clock) (fun _ _ _ V hs => V.step hs) h

/-- The events of the run `ls`. -/
def events (clock : Nat) (ls : List Label) : List Ev := trace Vp.step obs (Vp.init clock) ls

/-- The state after the run `ls` from the clock 0. -/
def after (ls : List Label) : Vp := (exec Vp.step (Vp.init 0) ls).getD (Vp.init 0)

theorem exec_after {ls : List Label} (h : (exec Vp.step (Vp.init 0) ls).isSome = true) :
    exec Vp.step (Vp.init 0) ls = some (after ls) := by
  obtain ⟨s, hs⟩ := Option.isSome_iff_exists.mp h
  rw [after, hs]
  rfl

theorem step_after {ls : List Label} {l : Label}
    (h : (exec Vp.step (Vp.init 0) (ls ++ [l])).isSome = true) :
    Vp.step (after ls) l = some (after (ls ++ [l])) := by
  obtain ⟨m, hm, hs⟩ := exec_snoc.mp (exec_after h)
  rw [after, hm]
  exact hs

/-- **What every turn keeps holds of the events of a run** and the state they lead to. -/
theorem events_ind {P : List Ev → Vp → Prop} {clock : Nat} {ls : List Label}
    (init : P [] (Vp.init clock))
    (keep : ∀ h s l s', s.Inv → P h s → s.Enabled l → Turn s l s' (obs s l) →
      P (h ++ obs s l) s')
    (h : exec Vp.step (Vp.init clock) ls = some s) : P (events clock ls) s := by
  have hall : s.Inv ∧ P (trace Vp.step obs (Vp.init clock) ls) s :=
    trace_ind (P := fun h s => s.Inv ∧ P h s) ⟨Inv.init clock, init⟩
      (fun h s l s' ⟨V, hP⟩ hs =>
        ⟨V.step hs, keep h s l s' V hP (V.turn hs).1 (V.turn hs).2⟩) h
  exact hall.2

end Vp

end StCoroutine.Sched
