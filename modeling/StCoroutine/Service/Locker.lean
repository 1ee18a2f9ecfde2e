import StCoroutine.Service.Mutex

/-!
# Service — when every locker holds

The constructor of `SrsLocker` asserts that `st_mutex_lock` returned `0`, and the call fails when
its caller has an interrupt that was not delivered, the mutex being free or not, or gets one while
it waits.  `lockers_hold_iff` says when that happens: along a run, no locker has failed an assertion
or is bound to fail one exactly when no constructor was entered with an undelivered interrupt and no
interrupt has hit a thread while it waited in one (`Undisturbed`).

`Inv` is what holds of the mutexes as long as no assertion has failed; `Quiet`, that whoever is
about to go on in a constructor owns the mutex, is kept by the steps that meet the condition
(`Quiet.step`) and lost for good with one that does not (`doomed_of_disturbed`, `Doomed.step`).
-/

set_option autoImplicit false

namespace StCoroutine.Coroutine.World

variable {ι : Type*} [DecidableEq ι] {s w : World ι} {l : Label ι} {c : Option ι}

/-- The step is an `interrupt` that sets the flag of the thread of `d`. -/
def Interrupts (s : World ι) : Label ι → Option ι → Prop
  | .interrupt _ j, d => d = some j ∧ ∃ o, s.obj j = some o ∧ s.hits j o = true
  | _, _ => False

/-- A call sets flags only by an interrupt, and clears only that of its caller. -/
theorem call_spec (h : Inv s) (hc : l.caller = some c) (hs : s.step l = some w) :
    Inv w ∧ ∀ d, d ≠ c → (w.flag d = true ↔ s.flag d = true ∨ Interrupts s l d) := by
  obtain ⟨hi, hC⟩ := step_spec h hs
  cases hC with
  | start ha hf hp => exact ⟨hi ha, fun d _ => by simp [Interrupts, hf]⟩
  | exit ha hf hp => exact ⟨hi ha, fun d _ => by simp [Interrupts, hf]⟩
  | @interrupt c' j o _ ho ha hf hp =>
      refine ⟨hi ha, fun d _ => ?_⟩
      rw [hf]
      constructor
      · intro hd
        by_cases e : d = some j
        · subst e
          cases hh : s.hits j o with
          | true => exact .inr ⟨rfl, o, ho, hh⟩
          | false =>
              rw [hitFlag, hh, if_neg Bool.false_ne_true] at hd
              exact .inl hd
        · rw [hitFlag_of_ne e] at hd
          exact .inl hd
      · rintro (hd | ⟨rfl, q, hq, hh⟩)
        · exact hitFlag_of_flag hd
        · cases ho.symm.trans hq
          rw [hitFlag, if_pos hh, Function.update_self]
  | @deliver c' _ hp ha hf hp' =>
      cases hc
      exact ⟨hi ha, fun d hd => by simp [Interrupts, hf, Function.update_of_ne hd]⟩
  | stopFails | stop | resumeFails | resume => cases hc

end StCoroutine.Coroutine.World

namespace StCoroutine.Service.Locks
open Kernel Lts Coroutine

variable {ι κ : Type*} [DecidableEq ι] [DecidableEq κ]
variable {s s' : Locks ι κ} {w : World ι} {c d : Option ι} {m : κ}

/-! ### What holds in every state -/

/-- The lockers own their mutexes; an owner has a locker or is about to have it; whoever waits has
no interrupt and does not own the mutex, and whoever was made runnable owns it or has an interrupt;
the queues hold threads that are in `st_mutex_lock`. -/
structure Inv (s : Locks ι κ) : Prop where
  world : s.world.Inv
  held : ∀ c m, m ∈ s.held c → s.owner m = some c
  owner : ∀ c m, s.owner m = some c → m ∈ s.held c ∨ s.phase c = .woken m
  waiting : ∀ c m, s.phase c = .waiting m → s.world.flag c = false ∧ s.owner m ≠ some c
  woken : ∀ c m, s.phase c = .woken m → s.owner m = some c ∨ s.world.flag c = true
  queue : ∀ c m, c ∈ s.waitQ m → s.phase c = .waiting m ∨ s.phase c = .woken m

theorem runs_iff : s.runs c = true ↔
    s.failed = false ∧ s.world.runs c = true ∧ s.phase c = .idle := by
  simp [runs, and_assoc]

omit [DecidableEq ι] [DecidableEq κ] in
theorem inv_init : Inv (init : Locks ι κ) where
  world := World.inv_init
  held := nofun
  owner := nofun
  waiting := nofun
  woken := nofun
  queue := nofun

/-! ### What a step does -/

/-- What a step does, or that the assertion of a locker fails in it. -/
inductive Change (s : Locks ι κ) : LockLabel ι κ → Locks ι κ → Prop where
  | call {l : Label ι} {c : Option ι} {w : World ι} (hc : s.phase c = .idle) (hw : w.Inv)
      (hf : ∀ d, d ≠ c →
        (w.flag d = true ↔ s.world.flag d = true ∨ World.Interrupts s.world l d)) :
      Change s (.call l) (s.wake w)
  | lockFails {c : Option ι} {m : κ} {s₁ : Locks ι κ} (hf : s.world.flag c = true)
      (ha : s₁.failed = true) : Change s (.lock c m) s₁
  | lockTaken {c : Option ι} {m : κ} (hc : s.phase c = .idle) (hf : s.world.flag c = false)
      (ho : s.owner m = none) : Change s (.lock c m)
        { s with
          owner := Function.update s.owner m (some c)
          held := Function.update s.held c (m :: s.held c) }
  | lockWaits {c d : Option ι} {m : κ} (hc : s.phase c = .idle) (hf : s.world.flag c = false)
      (ho : s.owner m = some d) (hd : d ≠ c) : Change s (.lock c m)
        { s with
          phase := Function.update s.phase c (.waiting m)
          waitQ := Function.update s.waitQ m (s.waitQ m ++ [c]) }
  | resumeFails {c : Option ι} {m : κ} {s₁ : Locks ι κ} (hc : s.phase c = .woken m)
      (hf : s.world.flag c = true) (ho : s.owner m ≠ some c) (ha : s₁.failed = true) :
      Change s (.resume c) s₁
  | resume {c : Option ι} {m : κ} (hc : s.phase c = .woken m) (ho : s.owner m = some c) :
      Change s (.resume c)
        { s with
          phase := Function.update s.phase c .idle
          waitQ := Function.update s.waitQ m ((s.waitQ m).filter (· ≠ c))
          held := Function.update s.held c (m :: s.held c) }
  | handed {c d : Option ι} {m : κ} (hc : s.phase c = .idle) (ho : s.owner m = some c)
      (hd : s.phase d = .waiting m) : Change s (.unlock c m)
        { s with
          owner := Function.update s.owner m (some d)
          phase := Function.update s.phase d (.woken m)
          held := Function.update s.held c ((s.held c).filter (· ≠ m)) }
  | freed {c : Option ι} {m : κ} (hc : s.phase c = .idle) (ho : s.owner m = some c) :
      Change s (.unlock c m)
        { s with
          owner := Function.update s.owner m none
          held := Function.update s.held c ((s.held c).filter (· ≠ m)) }

theorem change_lock (h : Inv s) (hc : s.phase c = .idle) (hm : m ∉ s.held c) :
    Change s (.lock c m) (s.construct c m) := by
  simp only [construct, stMutexLock]
  split_ifs with hf
  · exact .lockFails hf rfl
  · rw [Bool.not_eq_true] at hf
    cases ho : s.owner m with
    | none => exact .lockTaken hc hf ho
    | some d =>
        -- the caller owns no mutex that it does not hold
        have hd : d ≠ c := by
          rintro rfl
          rcases h.owner d m ho with hm' | hw
          · exact hm hm'
          · exact nomatch hc.symm.trans hw
        simp only [if_neg hd]
        exact .lockWaits hc hf ho hd

theorem change_resume (h : Inv s) (hc : s.phase c = .woken m) :
    Change s (.resume c) (s.resume c m) := by
  by_cases hg : s.world.flag c = true ∧ s.owner m ≠ some c
  · refine .resumeFails hc hg.1 hg.2 ?_
    simp only [resume, stMutexLocked, if_pos hg]
    rfl
  · have ho : s.owner m = some c := by
      rcases h.woken c m hc with ho | hf
      · exact ho
      · by_contra ho
        exact hg ⟨hf, ho⟩
    simp only [resume, stMutexLocked, if_neg hg]
    exact .resume hc ho

theorem change_unlock (h : Inv s) (hc : s.phase c = .idle) (hm : m ∈ s.held c) :
    Change s (.unlock c m) (s.destruct c m) := by
  have ho := h.held c m hm
  simp only [destruct, stMutexUnlock, ho, ne_eq, not_true_eq_false, if_false]
  cases hq : (s.waitQ m).find? fun thread => (s.phase thread).isWaiting with
  | none => exact .freed hc ho
  | some d =>
      -- who is found waits, and for this mutex
      have hd : s.phase d = .waiting m := by
        have hw := List.find?_some hq
        rcases h.queue d m (List.mem_of_find?_eq_some hq) with hd | hd
        · exact hd
        · rw [hd] at hw
          exact nomatch hw
      simp only [hd, Phase.wake]
      exact .handed hc ho hd

theorem step_spec (h : Inv s) {l : LockLabel ι κ} (hs : s.step l = some s') : Change s l s' := by
  cases l with
  | call l =>
      simp only [step] at hs
      split at hs
      · rename_i c hl
        rw [Option.ite_none_right_eq_some, Bool.and_eq_true, Option.map_eq_some_iff] at hs
        obtain ⟨⟨hc, -⟩, w, hw, rfl⟩ := hs
        obtain ⟨hi, hf⟩ := World.call_spec h.world hl hw
        exact .call (runs_iff.mp hc).2.2 hi hf
      · cases hs
  | lock c m =>
      simp only [step, Option.ite_none_right_eq_some, Option.some.injEq, Bool.and_eq_true,
        decide_eq_true_eq] at hs
      obtain ⟨⟨hc, hm⟩, rfl⟩ := hs
      exact change_lock h (runs_iff.mp hc).2.2 hm
  | resume c =>
      simp only [step] at hs
      split at hs
      · rename_i m hc
        rw [← Option.some.inj hs]
        exact change_resume h hc
      · cases hs
  | unlock c m =>
      simp only [step, Option.ite_none_right_eq_some, Option.some.injEq, Bool.and_eq_true,
        decide_eq_true_eq] at hs
      obtain ⟨⟨hc, hm⟩, rfl⟩ := hs
      exact change_unlock h (runs_iff.mp hc).2.2 hm

/-! ### What is kept -/

section tables

variable {α β : Type*} [DecidableEq α] {f : α → List β} {a b : α} {x y : β}

theorem mem_update_cons :
    x ∈ Function.update f a (y :: f a) b ↔ b = a ∧ x = y ∨ x ∈ f b := by
  by_cases e : b = a
  · subst e
    simp
  · simp [e]

theorem mem_update_append :
    x ∈ Function.update f a (f a ++ [y]) b ↔ x ∈ f b ∨ b = a ∧ x = y := by
  by_cases e : b = a
  · subst e
    simp
  · simp [e]

theorem mem_update_filter [DecidableEq β] :
    x ∈ Function.update f a ((f a).filter (· ≠ y)) b ↔ x ∈ f b ∧ (b = a → x ≠ y) := by
  by_cases e : b = a
  · subst e
    simp
  · simp [e]

end tables

section wake
omit [DecidableEq ι] [DecidableEq κ]

@[simp] theorem wake_phase_waiting :
    (s.wake w).phase d = .waiting m ↔ s.phase d = .waiting m ∧ w.flag d = false := by
  simp only [wake]
  split <;> cases s.phase d <;> simp_all [Phase.wake]

@[simp] theorem wake_phase_woken : (s.wake w).phase d = .woken m ↔
    s.phase d = .woken m ∨ s.phase d = .waiting m ∧ w.flag d = true := by
  simp only [wake]
  split <;> cases s.phase d <;> simp_all [Phase.wake]

/-- Who is in `st_mutex_lock` is not a caller. -/
theorem ne_of_idle (hc : s.phase c = .idle) (hd : s.phase d = .waiting m ∨ s.phase d = .woken m) :
    d ≠ c := by
  rintro rfl
  rw [hc] at hd
  exact hd.elim nofun nofun

/-- What such a thread owns is not what a caller owns. -/
theorem ne_of_owned (hc : s.phase c = .idle) (ho : s.owner m = some c) {k : κ}
    (hd : s.phase d = .woken k) (hk : s.owner k = some d) : k ≠ m := by
  rintro rfl
  exact ne_of_idle hc (.inr hd) (Option.some.inj (hk.symm.trans ho))

theorem Inv.call (h : Inv s) (hc : s.phase c = .idle) (hw : w.Inv)
    (hf : ∀ d, d ≠ c → s.world.flag d = true → w.flag d = true) : Inv (s.wake w) where
  world := hw
  held := h.held
  owner d m ho := (h.owner d m ho).imp_right fun hd => wake_phase_woken.mpr (.inl hd)
  waiting d m hd := by
    obtain ⟨hd, hfd⟩ := wake_phase_waiting.mp hd
    exact ⟨hfd, (h.waiting d m hd).2⟩
  woken d m hd := by
    rcases wake_phase_woken.mp hd with hd | ⟨-, hd⟩
    · exact (h.woken d m hd).imp_right (hf d (ne_of_idle hc (.inr hd)))
    · exact .inr hd
  queue d m hd := by
    rw [wake_phase_waiting, wake_phase_woken]
    rcases h.queue d m hd with hd | hd
    · cases hfd : w.flag d with
      | false => exact .inl ⟨hd, rfl⟩
      | true => exact .inr (.inr ⟨hd, rfl⟩)
    · exact .inr (.inl hd)

end wake

theorem Inv.lockTaken (h : Inv s) (hc : s.phase c = .idle) (ho : s.owner m = none) :
    Inv { s with
      owner := Function.update s.owner m (some c)
      held := Function.update s.held c (m :: s.held c) } := by
  -- what has an owner is another mutex
  have hne : ∀ k d, s.owner k = some d → k ≠ m := by
    rintro k d hk rfl
    exact nomatch ho.symm.trans hk
  refine ⟨h.world, fun d k hk => ?_, fun d k hk => ?_, fun d k hd => ⟨(h.waiting d k hd).1, ?_⟩,
    fun d k hd => ?_, h.queue⟩
  · rcases mem_update_cons.mp hk with ⟨rfl, rfl⟩ | hk
    · exact Function.update_self ..
    · have hd := h.held d k hk
      exact (Function.update_of_ne (hne k d hd) ..).trans hd
  · by_cases e : k = m
    · subst e
      simp only [Function.update_self] at hk
      cases hk
      exact .inl (mem_update_cons.mpr (.inl ⟨rfl, rfl⟩))
    · simp only [Function.update_of_ne e] at hk
      exact (h.owner d k hk).imp_left fun hm => mem_update_cons.mpr (.inr hm)
  · by_cases e : k = m
    · subst e
      simp only [Function.update_self]
      exact fun hcd => ne_of_idle hc (.inl hd) (Option.some.inj hcd).symm
    · simp only [Function.update_of_ne e]
      exact (h.waiting d k hd).2
  · refine (h.woken d k hd).imp_left fun hk => ?_
    exact (Function.update_of_ne (hne k d hk) ..).trans hk

theorem Inv.lockWaits (h : Inv s) (hc : s.phase c = .idle) (hf : s.world.flag c = false)
    (ho : s.owner m = some d) (hd : d ≠ c) :
    Inv { s with
      phase := Function.update s.phase c (.waiting m)
      waitQ := Function.update s.waitQ m (s.waitQ m ++ [c]) } := by
  refine ⟨h.world, h.held, fun e k hk => ?_, fun e k he => ?_, fun e k he => ?_, fun e k hk => ?_⟩
  · refine (h.owner e k hk).imp_right fun he => ?_
    exact (Function.update_of_ne (ne_of_idle hc (.inr he)) ..).trans he
  · by_cases hec : e = c
    · subst hec
      simp only [Function.update_self] at he
      cases he
      exact ⟨hf, fun hoe => hd (Option.some.inj (ho.symm.trans hoe))⟩
    · simp only [Function.update_of_ne hec] at he
      exact h.waiting e k he
  · have hec : e ≠ c := by
      rintro rfl
      simp only [Function.update_self] at he
      exact nomatch he
    simp only [Function.update_of_ne hec] at he
    exact h.woken e k he
  · rcases mem_update_append.mp hk with hk | ⟨rfl, rfl⟩
    · have he := h.queue e k hk
      simpa only [Function.update_of_ne (ne_of_idle hc he)] using he
    · exact .inl (Function.update_self ..)

theorem Inv.resume (h : Inv s) (hc : s.phase c = .woken m) (ho : s.owner m = some c) :
    Inv { s with
      phase := Function.update s.phase c .idle
      waitQ := Function.update s.waitQ m ((s.waitQ m).filter (· ≠ c))
      held := Function.update s.held c (m :: s.held c) } := by
  have hne : ∀ d p, Function.update s.phase c .idle d = p → p ≠ .idle → d ≠ c := by
    rintro d p hd hp rfl
    simp only [Function.update_self] at hd
    exact hp hd.symm
  refine ⟨h.world, fun d k hk => ?_, fun d k hk => ?_, fun d k hd => ?_, fun d k hd => ?_,
    fun d k hk => ?_⟩
  · rcases mem_update_cons.mp hk with ⟨rfl, rfl⟩ | hk
    · exact ho
    · exact h.held d k hk
  · rcases h.owner d k hk with hm | hd
    · exact .inl (mem_update_cons.mpr (.inr hm))
    · by_cases e : d = c
      · subst e
        cases hc.symm.trans hd
        exact .inl (mem_update_cons.mpr (.inl ⟨rfl, rfl⟩))
      · exact .inr ((Function.update_of_ne e ..).trans hd)
  · simp only [Function.update_of_ne (hne d _ hd nofun)] at hd
    exact h.waiting d k hd
  · simp only [Function.update_of_ne (hne d _ hd nofun)] at hd
    exact h.woken d k hd
  · obtain ⟨hk, hmc⟩ := mem_update_filter.mp hk
    have hd := h.queue d k hk
    -- `c` is in the queue of `m` alone
    have e : d ≠ c := by
      rintro rfl
      rw [hc] at hd
      rcases hd with hd | hd
      · exact nomatch hd
      · cases hd
        exact hmc rfl rfl
    simpa only [Function.update_of_ne e] using hd

/-- What is held when a locker of `m` is gone. -/
theorem Inv.held_rest (h : Inv s) (ho : s.owner m = some c) {e : Option ι} {k : κ}
    (hk : k ∈ Function.update s.held c ((s.held c).filter (· ≠ m)) e) :
    k ≠ m ∧ s.owner k = some e := by
  obtain ⟨hk, hcm⟩ := mem_update_filter.mp hk
  have he := h.held e k hk
  refine ⟨?_, he⟩
  rintro rfl
  exact hcm (Option.some.inj (he.symm.trans ho)) rfl

theorem Inv.handed (h : Inv s) (hc : s.phase c = .idle) (ho : s.owner m = some c)
    (hd : s.phase d = .waiting m) :
    Inv { s with
      owner := Function.update s.owner m (some d)
      phase := Function.update s.phase d (.woken m)
      held := Function.update s.held c ((s.held c).filter (· ≠ m)) } := by
  refine ⟨h.world, fun e k hk => ?_, fun e k hk => ?_, fun e k he => ?_, fun e k he => ?_,
    fun e k hk => ?_⟩
  · obtain ⟨hkm, hk⟩ := h.held_rest ho hk
    exact (Function.update_of_ne hkm ..).trans hk
  · by_cases hkm : k = m
    · subst hkm
      simp only [Function.update_self] at hk
      cases hk
      exact .inr (Function.update_self ..)
    · simp only [Function.update_of_ne hkm] at hk
      refine (h.owner e k hk).imp (fun hm => mem_update_filter.mpr ⟨hm, fun _ => hkm⟩) fun he => ?_
      have hed : e ≠ d := by
        rintro rfl
        exact nomatch hd.symm.trans he
      exact (Function.update_of_ne hed ..).trans he
  · have hed : e ≠ d := by
      rintro rfl
      simp only [Function.update_self] at he
      exact nomatch he
    simp only [Function.update_of_ne hed] at he
    refine ⟨(h.waiting e k he).1, ?_⟩
    by_cases hkm : k = m
    · subst hkm
      simp only [Function.update_self]
      exact fun hde => hed (Option.some.inj hde).symm
    · simp only [Function.update_of_ne hkm]
      exact (h.waiting e k he).2
  · by_cases hed : e = d
    · subst hed
      simp only [Function.update_self] at he
      cases he
      exact .inl (Function.update_self ..)
    · simp only [Function.update_of_ne hed] at he
      refine (h.woken e k he).imp_left fun hk => ?_
      have hkm := ne_of_owned hc ho he hk
      exact (Function.update_of_ne hkm ..).trans hk
  · have he := h.queue e k hk
    by_cases hed : e = d
    · subst hed
      rw [hd] at he
      rcases he with he | he
      · cases he
        exact .inr (Function.update_self ..)
      · exact nomatch he
    · simpa only [Function.update_of_ne hed] using he

theorem Inv.freed (h : Inv s) (hc : s.phase c = .idle) (ho : s.owner m = some c) :
    Inv { s with
      owner := Function.update s.owner m none
      held := Function.update s.held c ((s.held c).filter (· ≠ m)) } := by
  refine ⟨h.world, fun e k hk => ?_, fun e k hk => ?_, fun e k he => ⟨(h.waiting e k he).1, ?_⟩,
    fun e k he => ?_, h.queue⟩
  · obtain ⟨hkm, hk⟩ := h.held_rest ho hk
    exact (Function.update_of_ne hkm ..).trans hk
  · have hkm : k ≠ m := by
      rintro rfl
      simp only [Function.update_self] at hk
      exact nomatch hk
    simp only [Function.update_of_ne hkm] at hk
    exact (h.owner e k hk).imp_left fun hm => mem_update_filter.mpr ⟨hm, fun _ => hkm⟩
  · by_cases hkm : k = m
    · subst hkm
      simp only [Function.update_self]
      exact nofun
    · simp only [Function.update_of_ne hkm]
      exact (h.waiting e k he).2
  · refine (h.woken e k he).imp_left fun hk => ?_
    have hkm := ne_of_owned hc ho he hk
    exact (Function.update_of_ne hkm ..).trans hk

/-- **A step keeps the invariant**, unless an assertion fails. -/
theorem Inv.change (h : Inv s) {l : LockLabel ι κ} (hC : Change s l s') :
    s'.failed = false → Inv s' := by
  intro ha
  cases hC with
  | call hc hw hf => exact h.call hc hw fun d hd hfd => (hf d hd).mpr (.inl hfd)
  | lockFails hf ha' => exact nomatch ha.symm.trans ha'
  | lockTaken hc hf ho => exact h.lockTaken hc ho
  | lockWaits hc hf ho hd => exact h.lockWaits hc hf ho hd
  | resumeFails hc hf ho ha' => exact nomatch ha.symm.trans ha'
  | resume hc ho => exact h.resume hc ho
  | handed hc ho hd => exact h.handed hc ho hd
  | freed hc ho => exact h.freed hc ho

theorem alive_of_step {l : LockLabel ι κ} (hs : s.step l = some s') : s.failed = false := by
  rw [← Bool.not_eq_true]
  intro ha
  cases l with
  | call l =>
      simp only [step] at hs
      split at hs
      · simp [runs, ha] at hs
      · cases hs
  | lock c m => simp [step, runs, ha] at hs
  | resume c => simp [step, ha] at hs
  | unlock c m => simp [step, runs, ha] at hs

theorem inv_of_step (h : s.failed = false → Inv s) {l : LockLabel ι κ}
    (hs : s.step l = some s') : s'.failed = false → Inv s' := by
  have hi := h (alive_of_step hs)
  exact hi.change (step_spec hi hs)

theorem inv_of_exec {ls : List (LockLabel ι κ)} (h : exec step init ls = some s) :
    s.failed = false → Inv s :=
  exec_inv (I := fun s => s.failed = false → Inv s) (fun _ => inv_init)
    (fun _ _ _ hi hs => inv_of_step hi hs) h

/-! ### The condition -/

/-- The condition on a step: an interrupt does not hit a thread that waits for a mutex, and a
locker is not constructed by a thread with an undelivered interrupt. -/
def Undisturbed (s : Locks ι κ) : LockLabel ι κ → Prop
  | .call l => ∀ c m, s.phase c = .waiting m → ¬ World.Interrupts s.world l c
  | .lock c _ => s.world.flag c = false
  | .resume _ | .unlock _ _ => True

/-- No assertion has failed, and none will in the constructors that are about to go on, nor in the
destructors; and the lockers own their mutexes. -/
structure LockersHold (s : Locks ι κ) : Prop where
  alive : s.failed = false
  resumes : ∀ c m, s.phase c = .woken m → (s.stMutexLocked c m).1 = 0
  owns : ∀ c m, m ∈ s.held c → s.owner m = some c
  unlocks : ∀ c m, m ∈ s.held c → (s.stMutexUnlock c m).1 = 0

/-- Whoever is about to go on in a constructor owns the mutex. -/
def Quiet (s : Locks ι κ) : Prop := ∀ c m, s.phase c = .woken m → s.owner m = some c

/-- An assertion has failed, or a thread was woken that does not own the mutex. -/
def Doomed (s : Locks ι κ) : Prop :=
  s.failed = true ∨ ∃ c m, s.phase c = .woken m ∧ s.owner m ≠ some c

omit [DecidableEq ι] [DecidableEq κ] in
theorem not_doomed_iff : ¬ Doomed s ↔ s.failed = false ∧ Quiet s := by
  simp only [Doomed, Quiet, not_or, not_exists, not_and, Bool.not_eq_true, not_not, ne_eq]

/-- **A step that meets the condition** fails no assertion, and who it wakes owns the mutex. -/
theorem Quiet.step (h : Quiet s) (hi : Inv s) (ha : s.failed = false) {l : LockLabel ι κ}
    (hu : Undisturbed s l) (hC : Change s l s') : s'.failed = false ∧ Quiet s' := by
  cases hC with
  | @call l c w hc hw hf =>
      refine ⟨ha, fun d m hd => ?_⟩
      rcases wake_phase_woken.mp hd with hd | ⟨hd, hfd⟩
      · exact h d m hd
      · -- the flag was not set, and the step is not the interrupt that sets it
        rcases (hf d (ne_of_idle hc (.inl hd))).mp hfd with hfd | hit
        · exact nomatch (hi.waiting d m hd).1.symm.trans hfd
        · exact absurd hit (hu d m hd)
  | lockFails hf ha' => exact nomatch hf.symm.trans hu
  | @lockTaken c m hc hf ho =>
      refine ⟨ha, fun d k hd => ?_⟩
      have hk := h d k hd
      have e : k ≠ m := by
        rintro rfl
        exact nomatch ho.symm.trans hk
      exact (Function.update_of_ne e ..).trans hk
  | @lockWaits c d m hc hf ho hd =>
      refine ⟨ha, fun e k he => ?_⟩
      have hec : e ≠ c := by
        rintro rfl
        exact nomatch (Function.update_self ..).symm.trans he
      exact h e k ((Function.update_of_ne hec ..).symm.trans he)
  | resumeFails hc hf ho ha' => exact absurd (h _ _ hc) ho
  | @resume c m hc ho =>
      refine ⟨ha, fun d k hd => ?_⟩
      have hdc : d ≠ c := by
        rintro rfl
        exact nomatch (Function.update_self ..).symm.trans hd
      exact h d k ((Function.update_of_ne hdc ..).symm.trans hd)
  | @handed c d m hc ho hd =>
      refine ⟨ha, fun e k he => ?_⟩
      by_cases hed : e = d
      · subst hed
        cases (Function.update_self ..).symm.trans he
        exact Function.update_self ..
      · simp only [Function.update_of_ne hed] at he
        have hk := h e k he
        have hkm := ne_of_owned hc ho he hk
        exact (Function.update_of_ne hkm ..).trans hk
  | @freed c m hc ho =>
      refine ⟨ha, fun e k he => ?_⟩
      have hk := h e k he
      have hkm := ne_of_owned hc ho he hk
      exact (Function.update_of_ne hkm ..).trans hk

/-- **A step that does not meet it** fails an assertion or wakes a thread that does not own the
mutex. -/
theorem doomed_of_disturbed (hi : Inv s) {l : LockLabel ι κ} (hu : ¬ Undisturbed s l)
    (hC : Change s l s') : Doomed s' := by
  cases hC with
  | @call l c w hc hw hf =>
      simp only [Undisturbed, not_forall, not_not] at hu
      obtain ⟨d, m, hd, hit⟩ := hu
      have hfd := (hf d (ne_of_idle hc (.inl hd))).mpr (.inr hit)
      exact .inr ⟨d, m, wake_phase_woken.mpr (.inr ⟨hd, hfd⟩), (hi.waiting d m hd).2⟩
  | lockFails hf ha => exact .inl ha
  | lockTaken hc hf ho => exact absurd hf hu
  | lockWaits hc hf ho hd => exact absurd hf hu
  | resumeFails hc hf ho ha => exact .inl ha
  | resume | handed | freed => exact absurd trivial hu

/-- Such a thread stays so until it fails. -/
theorem Doomed.step (h : Doomed s) (ha : s.failed = false) {l : LockLabel ι κ}
    (hC : Change s l s') : Doomed s' := by
  obtain ⟨d, k, hd, hk⟩ := h.resolve_left (by simp [ha])
  cases hC with
  | call hc hw hf => exact .inr ⟨d, k, wake_phase_woken.mpr (.inl hd), hk⟩
  | lockFails hf ha => exact .inl ha
  | @lockTaken c m hc hf ho =>
      refine .inr ⟨d, k, hd, ?_⟩
      by_cases e : k = m
      · subst e
        simp only [Function.update_self]
        exact fun hcd => ne_of_idle hc (.inr hd) (Option.some.inj hcd).symm
      · simpa only [Function.update_of_ne e] using hk
  | lockWaits hc hf ho hd' =>
      exact .inr ⟨d, k, (Function.update_of_ne (ne_of_idle hc (.inr hd)) ..).trans hd, hk⟩
  | resumeFails hc hf ho ha => exact .inl ha
  | @resume c m hc ho =>
      -- the thread that goes on owns its mutex
      have e : d ≠ c := by
        rintro rfl
        cases hc.symm.trans hd
        exact hk ho
      exact .inr ⟨d, k, (Function.update_of_ne e ..).trans hd, hk⟩
  | @handed c e m hc ho he =>
      have hde : d ≠ e := by
        rintro rfl
        exact nomatch he.symm.trans hd
      refine .inr ⟨d, k, (Function.update_of_ne hde ..).trans hd, ?_⟩
      by_cases hkm : k = m
      · subst hkm
        simp only [Function.update_self]
        exact fun hed => hde (Option.some.inj hed).symm
      · simpa only [Function.update_of_ne hkm] using hk
  | @freed c m hc ho =>
      refine .inr ⟨d, k, hd, ?_⟩
      by_cases hkm : k = m
      · subst hkm
        simp only [Function.update_self]
        exact nofun
      · simpa only [Function.update_of_ne hkm] using hk

theorem stMutexLocked_eq_zero :
    (s.stMutexLocked c m).1 = 0 ↔ s.world.flag c = true → s.owner m = some c := by
  simp only [stMutexLocked]
  split_ifs with hg
  · simpa using hg
  · simpa using hg

theorem stMutexUnlock_eq_zero : (s.stMutexUnlock c m).1 = 0 ↔ s.owner m = some c := by
  simp only [stMutexUnlock]
  split_ifs with ho
  · exact iff_of_false (by simp) ho
  · rw [not_not] at ho
    split <;> simp [ho]

theorem lockersHold_iff (h : s.failed = false → Inv s) : LockersHold s ↔ ¬ Doomed s := by
  constructor
  · rintro hL (ha | ⟨c, m, hc, ho⟩)
    · exact nomatch hL.alive.symm.trans ha
    · -- who was woken without owning the mutex has its flag set
      have hf := ((h hL.alive).woken c m hc).resolve_left ho
      exact ho (stMutexLocked_eq_zero.mp (hL.resumes c m hc) hf)
  · intro hD
    obtain ⟨ha, hq⟩ := not_doomed_iff.mp hD
    exact ⟨ha, fun c m hc => stMutexLocked_eq_zero.mpr fun _ => hq c m hc, (h ha).held,
      fun c m hm => stMutexUnlock_eq_zero.mpr ((h ha).held c m hm)⟩

/-! ### Every run -/

/-- What a step does to a process that is not bound to fail. -/
theorem doomed_iff_of_step (hi : s.failed = false → Inv s) (hD : ¬ Doomed s)
    {l : LockLabel ι κ} (hs : s.step l = some s') : Doomed s' ↔ ¬ Undisturbed s l := by
  obtain ⟨ha, hq⟩ := not_doomed_iff.mp hD
  have hC := step_spec (hi ha) hs
  constructor
  · intro hD' hu
    exact not_doomed_iff.mpr (hq.step (hi ha) ha hu hC) hD'
  · exact fun hu => doomed_of_disturbed (hi ha) hu hC

/-- **Lockers hold.**  Along any run of any set of coroutines and mutexes, no locker has failed an
assertion, nor will one that is about to go on or to be destructed, and each owns its mutex, exactly
when every step met the condition: no locker was constructed by a thread with an undelivered
interrupt, and no interrupt hit a thread while it waited in a constructor. -/
theorem lockers_hold_iff {ls : List (LockLabel ι κ)} {s : Locks ι κ}
    (h : exec step init ls = some s) :
    LockersHold s ↔ AllSteps step Undisturbed init ls := by
  rw [lockersHold_iff (inv_of_exec h)]
  refine (allSteps_iff_not (I := fun s => s.failed = false → Inv s) Doomed (fun _ => inv_init)
    (not_doomed_iff.mpr ⟨rfl, nofun⟩) (fun _ _ _ hi hs => inv_of_step hi hs)
    (fun _ _ _ hi hD hs => doomed_iff_of_step hi hD hs) ?_ h).symm
  intro s l s' hi hD hs
  have ha := alive_of_step hs
  exact hD.step ha (step_spec (hi ha) hs)

/-- The primordial thread has the mutex while `0` waits for it, hands it over and interrupts `0`,
which goes on and gives it back. -/
def handOver : List (LockLabel Nat Nat) :=
  [.call (.start none 0 true), .lock none 0, .lock (some 0) 0, .unlock none 0,
    .call (.interrupt none 0), .resume (some 0), .unlock (some 0) 0]

theorem lockers_hold_iff_handOver :
    ∃ s : Locks Nat Nat, exec step init handOver = some s ∧
      (LockersHold s ↔ AllSteps step Undisturbed init handOver) :=
  ⟨_, rfl, lockers_hold_iff rfl⟩

/-- The coroutine `0` is interrupted and then, before the interrupt is delivered, locks a mutex
that nobody has. -/
theorem lock_fails_after_interrupt :
    ¬ ∀ (ls : List (LockLabel Nat Nat)) (s : Locks Nat Nat), exec step init ls = some s →
      LockersHold s := by
  intro H
  have hL := H [.call (.start none 0 true), .call (.interrupt none 0), .lock (some 0) 0] _ rfl
  exact nomatch hL.alive

end StCoroutine.Service.Locks
