import StCoroutine.Coroutine.World

/-!
# Coroutine — when every `stop` completes

`stop` asserts that its `st_thread_join` returned `0`, and the comment in `interrupt` warns that an
interrupt of a thread that waits there makes the join fail.  `stops_complete_iff` says when that
happens: along a run, no `stop` has failed an assertion or is bound to fail one exactly when no
`stop` has waited in the name of a caller with an undelivered interrupt, and no interrupt has hit a
caller while it waited (`Undisturbed`).

`Inv` is what holds of a process in every state; `Quiet`, that no waiting caller has its interrupt
flag set, is kept by the steps that meet the condition (`Quiet.step`) and lost for good with one
that does not (`doomed_of_disturbed`, `Doomed.step`).
-/

set_option autoImplicit false

namespace StCoroutine.Coroutine
open Kernel Lts

variable {ι : Type*} [DecidableEq ι]

namespace World

/-! ### What holds in every state -/

/-- The objects are as their methods leave them; who waits, waits alone and in a `stop` that is
not over; and the thread of a coroutine that waits has not ended. -/
structure Inv (s : World ι) : Prop where
  obj : ∀ j o, s.obj j = some o → o.Inv ∧ ∀ t, o.co.trd = some t → t = j
  joining : ∀ c j d, s.pos c = .joining j d → ∃ o, s.obj j = some o ∧ o.co.stopping = true
  unique : ∀ c c' j d d', s.pos c = .joining j d → s.pos c' = .joining j d' → c = c'
  waiting : ∀ i, s.threadRuns i = false → s.pos (some i) = .active

variable {s s' : World ι} {c : Option ι} {i j t : ι} {o o' : Obj ι} {d : Bool} {m : Nat}
  {f : Option ι → Bool}

omit [DecidableEq ι] in
theorem threadRuns_iff :
    s.threadRuns i = true ↔ ∃ o t, s.obj i = some o ∧ o.thread = .running t := by
  unfold threadRuns
  constructor
  · intro h
    split at h
    · rename_i co t ho
      exact ⟨_, t, ho, rfl⟩
    · cases h
  · rintro ⟨⟨co, th⟩, t, ho, rfl⟩
    rw [ho]

omit [DecidableEq ι] in
/-- Whether `i` runs is a matter of its object. -/
theorem threadRuns_congr (h : s'.obj i = s.obj i) : s'.threadRuns i = s.threadRuns i := by
  rw [threadRuns, threadRuns, h]

omit [DecidableEq ι] in
theorem threadRuns_obj (ho : s.obj i = some o) :
    s.threadRuns i = true ↔ ∃ t, o.thread = .running t := by
  rw [threadRuns_iff]
  constructor
  · rintro ⟨q, t, hq, hth⟩
    cases ho.symm.trans hq
    exact ⟨t, hth⟩
  · rintro ⟨t, hth⟩
    exact ⟨o, t, ho, hth⟩

theorem runs_iff : s.runs c = true ↔
    s.aborted = false ∧ s.pos c = .active ∧ ∀ i, c = some i → s.threadRuns i = true := by
  cases c <;> simp [runs, and_assoc]

omit [DecidableEq ι] in
theorem inv_init : Inv (init : World ι) where
  obj := by
    rintro j o ⟨⟩
    exact ⟨Obj.inv_new, nofun⟩
  joining := nofun
  unique := nofun
  waiting := fun _ _ => rfl

/-- Another state of the object `j`: `stop` is not over before its caller has left, and a thread
ends only while its coroutine runs. -/
theorem Inv.put (h : Inv s) (hi : o'.Inv)
    (ht : ∀ t, o'.co.trd = some t → t = j)
    (hs : (∃ c d, s.pos c = .joining j d) → o'.co.stopping = true)
    (hr : (∃ t, o'.thread = .running t) ∨ s.pos (some j) = .active) :
    Inv { s with obj := Function.update s.obj j (some o'), mem := m, flag := f } where
  obj k q hq := by
    by_cases e : k = j
    · subst e
      simp only [Function.update_self] at hq
      cases hq
      exact ⟨hi, ht⟩
    · simp only [Function.update_of_ne e] at hq
      exact h.obj k q hq
  joining c k d hc := by
    by_cases e : k = j
    · subst e
      exact ⟨o', Function.update_self .., hs ⟨c, d, hc⟩⟩
    · obtain ⟨q, hq, hq'⟩ := h.joining c k d hc
      exact ⟨q, (Function.update_of_ne e ..).trans hq, hq'⟩
  unique := h.unique
  waiting k hk := by
    by_cases e : k = j
    · subst e
      refine hr.resolve_left fun ht => ?_
      rw [(threadRuns_obj (Function.update_self ..)).mpr ht] at hk
      cases hk
    · exact h.waiting k ((threadRuns_congr (Function.update_of_ne e ..)).symm.trans hk)

/-- The end of a destructor of an object that nobody waits for and whose thread has ended. -/
theorem Inv.remove (h : Inv s) (hs : ∀ c d, s.pos c ≠ .joining j d)
    (hr : s.threadRuns j = false) :
    Inv { s with obj := Function.update s.obj j none } where
  obj k q hq := by
    by_cases e : k = j
    · subst e
      simp only [Function.update_self] at hq
      exact nomatch hq
    · simp only [Function.update_of_ne e] at hq
      exact h.obj k q hq
  joining c k d hc := by
    have e : k ≠ j := fun e => hs c d (e ▸ hc)
    obtain ⟨q, hq, hq'⟩ := h.joining c k d hc
    exact ⟨q, (Function.update_of_ne e ..).trans hq, hq'⟩
  unique := h.unique
  waiting k hk := by
    by_cases e : k = j
    · subst e
      exact h.waiting k hr
    · exact h.waiting k ((threadRuns_congr (Function.update_of_ne e ..)).symm.trans hk)

/-- The caller `c` stops waiting. -/
theorem Inv.leave (h : Inv s) (c : Option ι) :
    Inv { s with pos := Function.update s.pos c .active } where
  obj := h.obj
  joining c' j d hc := by
    by_cases e : c' = c
    · subst e
      simp only [Function.update_self] at hc
      exact nomatch hc
    · simp only [Function.update_of_ne e] at hc
      exact h.joining c' j d hc
  unique c' c'' j d d' hc hc' := by
    by_cases e : c' = c
    · subst e
      simp only [Function.update_self] at hc
      exact nomatch hc
    by_cases e' : c'' = c
    · subst e'
      simp only [Function.update_self] at hc'
      exact nomatch hc'
    simp only [Function.update_of_ne e] at hc
    simp only [Function.update_of_ne e'] at hc'
    exact h.unique c' c'' j d d' hc hc'
  waiting k hk := by
    by_cases e : some k = c
    · subst e
      exact Function.update_self ..
    · exact (Function.update_of_ne e ..).trans (h.waiting k hk)

/-- The caller `c`, which runs, waits for `j`, for which nobody waits. -/
theorem Inv.wait (h : Inv s) (ho : s.obj j = some o) (hst : o.co.stopping = true)
    (hs : ∀ c d, s.pos c ≠ .joining j d) (hc : ∀ i, c = some i → s.threadRuns i = true) :
    Inv { s with pos := Function.update s.pos c (.joining j d) } where
  obj := h.obj
  joining c' k d' hc' := by
    by_cases e : c' = c
    · subst e
      simp only [Function.update_self] at hc'
      cases hc'
      exact ⟨o, ho, hst⟩
    · simp only [Function.update_of_ne e] at hc'
      exact h.joining c' k d' hc'
  unique c' c'' k d' d'' hc' hc'' := by
    by_cases e : c' = c <;> by_cases e' : c'' = c
    · rw [e, e']
    · subst e
      simp only [Function.update_self] at hc'
      cases hc'
      simp only [Function.update_of_ne e'] at hc''
      exact absurd hc'' (hs c'' d'')
    · subst e'
      simp only [Function.update_self] at hc''
      cases hc''
      simp only [Function.update_of_ne e] at hc'
      exact absurd hc' (hs c' d')
    · simp only [Function.update_of_ne e] at hc'
      simp only [Function.update_of_ne e'] at hc''
      exact h.unique c' c'' k d' d'' hc' hc''
  waiting k hk := by
    -- `c` runs, so it is not a coroutine whose thread has ended
    have e : some k ≠ c := fun e => by
      have hk' : s.threadRuns k = false := hk
      exact nomatch hk'.symm.trans (hc k e.symm)
    exact (Function.update_of_ne e ..).trans (h.waiting k hk)

/-! ### What the calls do -/

/-- `interrupt` of `j` reaches a thread that has not ended. -/
def hits (s : World ι) (j : ι) (o : Obj ι) : Bool :=
  o.co.started && !o.co.interrupted && !o.co.cycleDone && s.threadRuns j

/-- The flags after it. -/
def hitFlag (s : World ι) (j : ι) (o : Obj ι) : Option ι → Bool :=
  if s.hits j o then Function.update s.flag (some j) true else s.flag

/-- A `stop` of `j` has to wait for its thread. -/
def mustWait (s : World ι) (j : ι) (o : Obj ι) : Bool := !o.co.disposed && s.threadRuns j

omit [DecidableEq ι] in
theorem hits_of_guard
    (hg : o.co.started = false ∨ o.co.interrupted = true ∨ o.co.cycleDone = true) :
    s.hits j o = false := by
  rcases hg with hg | hg | hg <;> simp [hits, hg]

theorem interrupt_flag (h : Inv s) (ho : s.obj j = some o) :
    (s.apply j o (o.co.interrupt s.mem)).flag = s.hitFlag j o := by
  rcases o.co.guard_or_live with hg | ⟨hs, hi, hc⟩
  · simp [apply, SrsFastCoroutine.interrupt_of_guard hg, hitFlag, hits_of_guard hg]
  · obtain ⟨t, ht⟩ := Option.isSome_iff_exists.mp ((h.obj j o ho).1.started ▸ hs)
    obtain rfl := (h.obj j o ho).2 t ht
    simp [apply, SrsFastCoroutine.interrupt_of_live hs hi hc, hitFlag, hits, hs, hi, hc, ht, signal]

/-- A method of `j` that does not change `stopping` and ends no thread. -/
theorem Inv.method (h : Inv s) (ho : s.obj j = some o) {e : Effect ι} (hi : (o.apply e).Inv)
    (ht : ∀ t, e.co.trd = some t → t = j) (hs : e.co.stopping = o.co.stopping)
    (hr : ∀ t, o.thread = .running t → (o.apply e).thread = .running t) :
    Inv (s.apply j o e) := by
  refine h.put hi ht ?_ ?_
  · rintro ⟨c, d, hc⟩
    obtain ⟨q, hq, hst⟩ := h.joining c j d hc
    cases ho.symm.trans hq
    exact hs.trans hst
  · cases hth : s.threadRuns j with
    | false => exact .inr (h.waiting j hth)
    | true =>
        obtain ⟨t, hth⟩ := (threadRuns_obj ho).mp hth
        exact .inl ⟨t, hr t hth⟩

theorem Inv.interrupt (h : Inv s) (ho : s.obj j = some o) :
    Inv (s.apply j o (o.co.interrupt s.mem)) := by
  obtain ⟨hi, ht⟩ := h.obj j o ho
  exact h.method ho (hi.interrupt _) (by simpa using ht) (by simp)
    fun t hth => Obj.interrupt_thread.trans hth

theorem Inv.start (h : Inv s) (ho : s.obj j = some o) (created : Bool) :
    Inv (s.apply j o (o.co.start s.mem (if created then some j else none)).2) ∧
      (s.apply j o (o.co.start s.mem (if created then some j else none)).2).flag = s.flag := by
  obtain ⟨hi, ht⟩ := h.obj j o ho
  have hi' := hi.start s.mem (if created then some j else none)
  obtain ⟨-, err, -, -, e⟩ | ⟨hs, -, -, err, -, -, e⟩ | ⟨hs, -, t, hc, e⟩ :=
    o.co.start_cases s.mem (if created then some j else none)
  · rw [e] at hi' ⊢
    exact ⟨h.method ho hi' ht rfl fun t hth => hth, rfl⟩
  · rw [e] at hi' ⊢
    refine ⟨h.method ho hi' nofun rfl fun t hth => ?_, rfl⟩
    simp [hi.absent hs] at hth
  · obtain rfl : j = t := by
      cases created with
      | false => cases hc
      | true => exact Option.some.inj hc
    rw [e] at hi' ⊢
    refine ⟨h.method ho hi' (fun u hu => (Option.some.inj hu).symm) rfl fun t hth => ?_, rfl⟩
    simp [hi.absent hs] at hth

theorem Inv.exit (h : Inv s) (hr : s.runs (some i) = true) (ho : s.obj i = some o)
    (ret : SrsError) :
    Inv { s with obj := Function.update s.obj i (some (o.exit s.mem ret)), mem := s.mem + 1 } := by
  obtain ⟨hi, ht⟩ := h.obj i o ho
  obtain ⟨-, hp, hth⟩ := runs_iff.mp hr
  obtain ⟨t, hth⟩ := (threadRuns_obj ho).mp (hth i rfl)
  refine h.put (hi.exit _ hth ret) (by simpa using ht) ?_ (.inr hp)
  rintro ⟨c, d, hc⟩
  obtain ⟨q, hq, hst⟩ := h.joining c i d hc
  cases ho.symm.trans hq
  simpa using hst

/-! ### The end of a `stop` -/

theorem Inv.stopReturn (h : Inv s) (hs : ∀ c d, s.pos c ≠ .joining j d)
    (hr : s.threadRuns j = false) (d : Bool) : Inv (s.stopReturn j d) := by
  cases d with
  | false => exact h
  | true => exact h.remove hs hr

omit [DecidableEq ι] in
theorem threadRuns_of_obj (ho : s.obj j = some o) (hr : ∀ t, o.thread ≠ .running t) :
    s.threadRuns j = false := by
  rw [← Bool.not_eq_true, threadRuns_obj ho]
  rintro ⟨t, hth⟩
  exact hr t hth

@[simp] theorem stopReturn_flag : (s.stopReturn j d).flag = s.flag := by cases d <;> rfl
@[simp] theorem stopReturn_pos : (s.stopReturn j d).pos = s.pos := by cases d <;> rfl
@[simp] theorem stopReturn_aborted : (s.stopReturn j d).aborted = s.aborted := by cases d <;> rfl

/-- A join that failed ends the process. -/
theorem joinFailed_aborted : (s.joinFailed c j t o d).aborted = true := by
  simp [joinFailed, joined, SrsFastCoroutine.stopJoined]

/-- A join that succeeded, when only its caller waited for `j`: `stop` returns. -/
theorem joined_spec (h : Inv s) (ho : s.obj j = some o) {res : SrsError}
    (hth : o.thread = .ended t res) (hst : o.co.stopping = true)
    (hu : ∀ c' d', s.pos c' = .joining j d' → c' = c) :
    Inv (s.joined c j t o 0 res d) ∧ (s.joined c j t o 0 res d).aborted = s.aborted ∧
      (s.joined c j t o 0 res d).flag = s.flag ∧
      (s.joined c j t o 0 res d).pos = Function.update s.pos c .active := by
  obtain ⟨hi, ht⟩ := h.obj j o ho
  have hi' := hi.join s.mem hst hth
  simp only [joined, hi.stopJoined_eq hth]
  have hn : ∀ c' d', Function.update s.pos c .active c' ≠ .joining j d' := by
    intro c' d' hc
    by_cases e : c' = c
    · subst e
      rw [Function.update_self] at hc
      cases hc
    · rw [Function.update_of_ne e] at hc
      exact e (hu c' d' hc)
  have hact : Function.update s.pos c .active (some j) = .active := by
    by_cases e : some j = c
    · rw [e, Function.update_self]
    · rw [Function.update_of_ne e]
      exact h.waiting j (threadRuns_of_obj ho (by simp [hth]))
  refine ⟨Inv.stopReturn ?_ hn (threadRuns_of_obj (Function.update_self ..) ?_) d, by simp [apply],
    by simp [apply, signal], by simp [apply]⟩
  · exact (h.leave c).put hi' ht (fun ⟨c', d', hc⟩ => absurd hc (hn c' d')) (.inr hact)
  · simp [hth]

/-- `st_thread_join` by a caller that runs, of a thread that nobody waits for: it fails when it has
to wait and the flag is set, and otherwise `stop` returns or waits. -/
theorem join_spec (h : Inv s) (ho : s.obj j = some o) (hst : o.co.stopping = true)
    (ht : o.thread = .running t ∨ ∃ r, o.thread = .ended t r)
    (hn : ∀ c d, s.pos c ≠ .joining j d) (hp : s.pos c = .active)
    (hc : ∀ i, c = some i → s.threadRuns i = true) :
    (s.threadRuns j = true → s.flag c = true → (s.join c j t o d).aborted = true) ∧
      (s.threadRuns j = false ∨ s.flag c = false →
        Inv (s.join c j t o d) ∧ (s.join c j t o d).aborted = s.aborted ∧
          (s.join c j t o d).flag = s.flag ∧
          (s.join c j t o d).pos =
            if s.threadRuns j then Function.update s.pos c (.joining j d) else s.pos) := by
  rcases ht with hth | ⟨r, hth⟩
  · have hr : s.threadRuns j = true := (threadRuns_obj ho).mpr ⟨t, hth⟩
    refine ⟨fun _ hf => ?_, fun hf => ?_⟩
    · simp only [join, hth, hf, if_true, joinFailed_aborted]
    · have hf := hf.resolve_left (by simp [hr])
      have e : s.join c j t o d =
          { s with pos := Function.update s.pos c (.joining j d) } := by
        simp only [join, hth, hf, Bool.false_eq_true, if_false]
      rw [e, hr]
      exact ⟨h.wait ho hst hn hc, rfl, rfl, rfl⟩
  · have hr : s.threadRuns j = false := threadRuns_of_obj ho (by simp [hth])
    refine ⟨fun hr' => (nomatch hr.symm.trans hr'), fun _ => ?_⟩
    obtain ⟨hi, ha, hf, hp'⟩ := joined_spec (d := d) h ho hth hst
      (fun c' d' hc' => absurd hc' (hn c' d'))
    have e : s.join c j t o d = s.joined c j t o 0 r d := by simp only [join, hth]
    rw [e, hr]
    exact ⟨hi, ha, hf, by rw [hp', ← hp, Function.update_eq_self, if_neg nofun]⟩

/-- What a `stop` by a caller that runs comes to: it fails when it has to wait and the flag of its
caller is set, and otherwise it waits or returns. -/
structure StopSpec (s : World ι) (c : Option ι) (j : ι) (o : Obj ι) (d : Bool) (s' : World ι) :
    Prop where
  fails : s.mustWait j o = true → s.flag c = true → s'.aborted = true
  inv : s.mustWait j o = false ∨ s.flag c = false → Inv s'
  alive : s.mustWait j o = false ∨ s.flag c = false → s'.aborted = s.aborted
  flag : s.mustWait j o = false ∨ s.flag c = false →
    s'.flag = if o.co.disposed then s.flag else s.hitFlag j o
  pos : s.mustWait j o = false ∨ s.flag c = false →
    s'.pos = if s.mustWait j o then Function.update s.pos c (.joining j d) else s.pos

/-- An effect that leaves the thread of its object leaves who runs. -/
theorem threadRuns_apply (ho : s.obj j = some o) {e : Effect ι}
    (hth : (o.apply e).thread = o.thread) (i : ι) :
    (s.apply j o e).threadRuns i = s.threadRuns i := by
  by_cases hij : i = j
  · subst hij
    rw [Bool.eq_iff_iff, threadRuns_obj (Function.update_self ..), threadRuns_obj ho, hth]
  · exact threadRuns_congr (Function.update_of_ne hij ..)

/-- A `stop` that gets to its join. -/
theorem stopSpec_of_joining (h : Inv s) (hc : s.runs c = true) (hcj : c ≠ some j)
    (ho : s.obj j = some o) (hn : ∀ c d, s.pos c ≠ .joining j d) (hd : o.co.disposed = false)
    (ht : o.co.trd = some t) {e : Effect ι} (he : o.co.stop s.mem = (.joining t, e))
    (hst : e.co.stopping = true) (htrd : e.co.trd = o.co.trd)
    (hth : (o.apply e).thread = o.thread) (hf : (s.apply j o e).flag = s.hitFlag j o) :
    StopSpec s c j o d (s.callStop c j o d) := by
  obtain ⟨hi, ht'⟩ := h.obj j o ho
  obtain ⟨-, hp, hc⟩ := runs_iff.mp hc
  have hi' := hi.stop s.mem
  rw [he] at hi'
  have hthread := hi.thread_of_trd ht (hi.not_joined hd)
  have hrun := threadRuns_apply ho hth
  -- the caller is not `j`, so the interrupt of `j` is not its own
  have hfc : (s.apply j o e).flag c = s.flag c := by
    rw [hf, hitFlag]
    split
    · rw [Function.update_of_ne hcj]
    · rfl
  have hinv : Inv (s.apply j o e) := by
    refine h.put hi' (fun u hu => ht' u (htrd.symm.trans hu)) (fun _ => hst) ?_
    cases hr : s.threadRuns j with
    | false => exact .inr (h.waiting j hr)
    | true =>
        obtain ⟨u, hu⟩ := (threadRuns_obj ho).mp hr
        exact .inl ⟨u, hth.trans hu⟩
  have hm : s.mustWait j o = s.threadRuns j := by simp [mustWait, hd]
  obtain ⟨hfail, hok⟩ := join_spec (d := d) hinv (Function.update_self ..) hst
    (by rw [hth]; exact hthread) hn hp fun i hi => (hrun i).trans (hc i hi)
  rw [hrun, hfc, ← hm] at hfail hok
  have e' : s.callStop c j o d = (s.apply j o e).join c j t (o.apply e) d := by
    simp only [callStop, he]
  rw [e']
  refine ⟨hfail, fun hg => (hok hg).1, fun hg => (hok hg).2.1, fun hg => ?_, fun hg => ?_⟩
  · rw [(hok hg).2.2.1, hf, if_neg (by simp [hd])]
  · exact (hok hg).2.2.2

theorem callStop_spec (h : Inv s) (hc : s.runs c = true) (hcj : c ≠ some j)
    (ho : s.obj j = some o) (hst : o.co.stopping = false) :
    StopSpec s c j o d (s.callStop c j o d) := by
  obtain ⟨hi, ht⟩ := h.obj j o ho
  have hi' := hi.stop s.mem
  -- whoever waits for `j` has set `stopping`
  have hn : ∀ c d, s.pos c ≠ .joining j d := by
    intro c d hcd
    obtain ⟨q, hq, hst'⟩ := h.joining c j d hcd
    cases ho.symm.trans hq
    exact nomatch hst.symm.trans hst'
  -- a coroutine that is stopped or was never started has no thread to wait for
  have hidle : o.co.disposed = true ∨ o.co.started = false → ∀ t, o.thread ≠ .running t := by
    intro hor t hth
    have hs : o.co.started = true := by simp [hi.started, hi.trd, hth]
    rcases hor with hd | hs'
    · have hj := hi.joined.mpr ⟨hd, hst, hs⟩
      simp [hth] at hj
    · exact nomatch hs.symm.trans hs'
  have hreturn : ∀ e : Effect ι, (o.apply e).Inv → e.co.trd = o.co.trd →
      (o.apply e).thread = o.thread → (∀ t, o.thread ≠ .running t) →
      Inv ((s.apply j o e).stopReturn j d) := fun e he htrd hth hr =>
    (h.put he (fun u hu => ht u (htrd.symm.trans hu)) (fun ⟨c, d, hcd⟩ => absurd hcd (hn c d))
      (.inr (h.waiting j (threadRuns_of_obj ho hr)))).stopReturn hn
      (threadRuns_of_obj (Function.update_self ..) fun t => hth ▸ hr t) d
  obtain ⟨hd, e⟩ | ⟨hd, hs, e⟩ | ⟨hd, hs, t, htrd, hg, e⟩ | ⟨hd, hs, t, htrd, hint, hcd, e⟩ :=
    hi.stop_cases s.mem
  · have hr := hidle (.inl hd)
    rw [hst] at e
    rw [e] at hi'
    have hm : s.mustWait j o = false := by simp [mustWait, hd]
    have e' : s.callStop c j o d = (s.apply j o ⟨o.co, s.mem, []⟩).stopReturn j d := by
      simp only [callStop, e, Bool.false_eq_true, if_false]
    rw [e']
    refine ⟨fun hm' => (nomatch hm.symm.trans hm'), fun _ => hreturn _ hi' rfl rfl hr,
      fun _ => by simp [apply], fun _ => by simp [apply, hd], fun _ => by simp [apply, hm]⟩
  · have hr := hidle (.inr hs)
    rw [e] at hi'
    have hm : s.mustWait j o = false := by simp [mustWait, threadRuns_of_obj ho hr]
    have e' : s.callStop c j o d = (s.apply j o (o.co.stop s.mem).2).stopReturn j d := by
      simp only [callStop, e]
    rw [e', e]
    refine ⟨fun hm' => (nomatch hm.symm.trans hm'), fun _ => hreturn _ hi' rfl rfl hr,
      fun _ => by simp [apply], fun _ => ?_, fun _ => by simp [apply, hm]⟩
    simp [apply, hd, hitFlag, hits, hs]
  · refine stopSpec_of_joining h hc hcj ho hn hd htrd e rfl rfl (by simp) ?_
    simp [apply, signal, hitFlag, hits_of_guard (.inr hg)]
  · refine stopSpec_of_joining h hc hcj ho hn hd htrd e rfl rfl (by simp) ?_
    obtain rfl := ht t htrd
    simp [apply, signal, hitFlag, hits, hs, hint, hcd]

/-! ### What a step does to the flags and the waiting callers -/

/-- What a step does to the flags and to who waits, or that a join fails in it. -/
inductive Change (s : World ι) : Label ι → World ι → Prop where
  | start {c : Option ι} {j : ι} {created : Bool} {s₁ : World ι} (ha : s₁.aborted = false)
      (hf : s₁.flag = s.flag) (hp : s₁.pos = s.pos) : Change s (.start c j created) s₁
  | exit {i : ι} {ret : SrsError} {s₁ : World ι} (ha : s₁.aborted = false)
      (hf : s₁.flag = s.flag) (hp : s₁.pos = s.pos) : Change s (.exit i ret) s₁
  | interrupt {c : Option ι} {j : ι} {o : Obj ι} {s₁ : World ι} (ho : s.obj j = some o)
      (ha : s₁.aborted = false) (hf : s₁.flag = s.hitFlag j o) (hp : s₁.pos = s.pos) :
      Change s (.interrupt c j) s₁
  | stopFails {c : Option ι} {j : ι} {d : Bool} {o : Obj ι} {s₁ : World ι}
      (ho : s.obj j = some o) (hm : s.mustWait j o = true) (hf : s.flag c = true)
      (ha : s₁.aborted = true) : Change s (.stop c j d) s₁
  | stop {c : Option ι} {j : ι} {d : Bool} {o : Obj ι} {s₁ : World ι} (ho : s.obj j = some o)
      (hc : s.pos c = .active) (hcj : c ≠ some j) (hok : s.mustWait j o = false ∨ s.flag c = false)
      (ha : s₁.aborted = false) (hf : s₁.flag = if o.co.disposed then s.flag else s.hitFlag j o)
      (hp : s₁.pos = if s.mustWait j o then Function.update s.pos c (.joining j d) else s.pos) :
      Change s (.stop c j d) s₁
  | resumeFails {c : Option ι} {j : ι} {d : Bool} {s₁ : World ι} (hc : s.pos c = .joining j d)
      (hf : s.flag c = true) (ha : s₁.aborted = true) : Change s (.resume c) s₁
  | resume {c : Option ι} {j : ι} {d : Bool} {s₁ : World ι} (hc : s.pos c = .joining j d)
      (hfc : s.flag c = false) (ha : s₁.aborted = false) (hf : s₁.flag = s.flag)
      (hp : s₁.pos = Function.update s.pos c .active) : Change s (.resume c) s₁
  | deliver {c : Option ι} {s₁ : World ι} (hc : s.pos c = .active) (ha : s₁.aborted = false)
      (hf : s₁.flag = Function.update s.flag c false) (hp : s₁.pos = s.pos) :
      Change s (.deliver c) s₁

/-- A resumed caller whose flag is set fails; one whose target has ended returns from `stop`. -/
theorem step_resume (h : Inv s) (ha : s.aborted = false) (hp : s.pos c = .joining j d)
    (ho : s.obj j = some o) :
    (∃ t, (o.thread = .running t ∨ ∃ r, o.thread = .ended t r) ∧
      (s.flag c = true → s.step (.resume c) = some (s.joinFailed c j t o d)) ∧
      ∀ u r, s.flag c = false → o.thread = .ended u r →
        s.step (.resume c) = some (s.joined c j u o 0 r d)) ∧
    (s.flag c = false → (∃ t, o.thread = .running t) → s.step (.resume c) = none) := by
  obtain ⟨q, hq, hst⟩ := h.joining c j d hp
  cases ho.symm.trans hq
  obtain ⟨hi, -⟩ := h.obj j o ho
  obtain ⟨t, ht⟩ := Option.isSome_iff_exists.mp (hi.started ▸ (hi.stopping hst).2)
  have hj : o.thread.isJoined = false := by
    rw [← Bool.not_eq_true, hi.joined, hst]
    exact fun h' => nomatch h'.2.1
  refine ⟨⟨t, hi.thread_of_trd ht hj, fun hf => ?_, fun u r hf hth => ?_⟩, fun hf ⟨u, hu⟩ => ?_⟩
  · rcases hi.thread_of_trd ht hj with hth | ⟨r, hth⟩ <;>
      simp [step, ha, hp, ho, World.resume, hth, hf]
  · simp [step, ha, hp, ho, World.resume, hth, hf]
  · simp [step, ha, hp, ho, World.resume, hu, hf]

/-- **What a step does**; it keeps the invariant, unless an assertion fails. -/
theorem step_spec (h : Inv s) {l : Label ι} (hs : s.step l = some s') :
    (s'.aborted = false → Inv s') ∧ Change s l s' := by
  cases l with
  | start c j created =>
      simp only [step] at hs
      split at hs
      · rename_i o hc ho
        obtain ⟨ha, -, -⟩ := runs_iff.mp hc
        obtain ⟨hi, hf⟩ := h.start ho created
        rw [← Option.some.inj hs]
        exact ⟨fun _ => hi, .start ha hf rfl⟩
      · cases hs
  | interrupt c j =>
      simp only [step] at hs
      split at hs
      · rename_i o hc ho
        obtain ⟨ha, -, -⟩ := runs_iff.mp hc
        rw [← Option.some.inj hs]
        exact ⟨fun _ => h.interrupt ho, .interrupt ho ha (interrupt_flag h ho) rfl⟩
      · cases hs
  | stop c j d =>
      simp only [step] at hs
      split at hs
      · rename_i o hc ho
        obtain ⟨ha, hp, -⟩ := runs_iff.mp hc
        rw [Option.ite_none_left_eq_some, Option.some.injEq] at hs
        obtain ⟨hg, rfl⟩ := hs
        simp only [not_or, Bool.not_eq_true] at hg
        have hS := callStop_spec (d := d) h hc hg.1 ho hg.2
        by_cases hok : s.mustWait j o = false ∨ s.flag c = false
        · exact ⟨fun _ => hS.inv hok,
            .stop ho hp hg.1 hok ((hS.alive hok).trans ha) (hS.flag hok) (hS.pos hok)⟩
        · simp only [not_or, Bool.not_eq_false] at hok
          have hfail := hS.fails hok.1 hok.2
          exact ⟨fun ha' => (nomatch hfail.symm.trans ha'), .stopFails ho hok.1 hok.2 hfail⟩
      · cases hs
  | resume c =>
      have hs' := hs
      simp only [step] at hs
      split at hs
      · rename_i j d ha hp
        obtain ⟨o, ho, hst⟩ := h.joining c j d hp
        obtain ⟨⟨t, hth, hfail, hend⟩, hwait⟩ := step_resume h ha hp ho
        -- with its flag set the join of `c` fails; without it, it goes on when the thread has ended
        cases hf : s.flag c with
        | true =>
            rw [hfail hf] at hs'
            rw [← Option.some.inj hs']
            exact ⟨fun ha' => (nomatch joinFailed_aborted.symm.trans ha'),
              .resumeFails hp hf joinFailed_aborted⟩
        | false =>
            rcases hth with hth | ⟨r, hth⟩
            · exact nomatch hs'.symm.trans (hwait hf ⟨t, hth⟩)
            · rw [hend t r hf hth] at hs'
              obtain ⟨hi, ha', hf', hp'⟩ := joined_spec (d := d) h ho hth hst
                fun c' d' hc' => h.unique c' c j d' d hc' hp
              rw [← Option.some.inj hs']
              exact ⟨fun _ => hi, .resume hp hf (ha'.trans ha) hf' hp'⟩
      · cases hs
  | deliver c =>
      simp only [step, Option.ite_none_right_eq_some, Option.some.injEq, Bool.and_eq_true] at hs
      obtain ⟨⟨hc, -⟩, rfl⟩ := hs
      obtain ⟨ha, hp, -⟩ := runs_iff.mp hc
      exact ⟨fun _ => ⟨h.obj, h.joining, h.unique, h.waiting⟩, .deliver hp ha rfl rfl⟩
  | exit i ret =>
      simp only [step] at hs
      split at hs
      · rename_i o hc ho
        obtain ⟨ha, -, -⟩ := runs_iff.mp hc
        rw [← Option.some.inj hs]
        exact ⟨fun _ => h.exit hc ho ret, .exit ha rfl rfl⟩
      · cases hs

theorem alive_of_step {l : Label ι} (hs : s.step l = some s') : s.aborted = false := by
  rw [← Bool.not_eq_true]
  intro ha
  cases l <;> simp [step, runs, ha] at hs

theorem inv_of_step (h : s.aborted = false → Inv s) {l : Label ι} (hs : s.step l = some s') :
    s'.aborted = false → Inv s' := (step_spec (h (alive_of_step hs)) hs).1

theorem inv_of_exec {ls : List (Label ι)} (h : exec step init ls = some s) :
    s.aborted = false → Inv s :=
  exec_inv (I := fun s => s.aborted = false → Inv s) (fun _ => inv_init)
    (fun _ _ _ hi hs => inv_of_step hi hs) h

/-! ### The condition -/

/-- The condition on a step: an interrupt, by `interrupt` or by `stop`, does not hit a caller that
waits in its own `stop`; and a `stop` that has to wait is not entered by a caller with an
undelivered interrupt. -/
def Undisturbed (s : World ι) : Label ι → Prop
  | .interrupt _ j => ∀ o, s.obj j = some o → s.hits j o = true → s.pos (some j) = .active
  | .stop c j _ => ∀ o, s.obj j = some o → o.co.disposed = false →
    (s.hits j o = true → s.pos (some j) = .active) ∧ (s.mustWait j o = true → s.flag c = false)
  | _ => True

/-- No assertion has failed, and none will in the `stop` calls that are in progress: whoever is
resumed in one gets on, and when its target has ended it returns. -/
structure StopsComplete (s : World ι) : Prop where
  alive : s.aborted = false
  resumes : ∀ c s', s.step (.resume c) = some s' → s'.aborted = false
  returns : ∀ c j d o t r, s.pos c = .joining j d → s.obj j = some o → o.thread = .ended t r →
    ∃ s', s.step (.resume c) = some s' ∧ s'.aborted = false ∧ s'.pos c = .active

/-- No waiting caller has its flag set. -/
def Quiet (s : World ι) : Prop := ∀ c j d, s.pos c = .joining j d → s.flag c = false

/-- An assertion has failed, or a waiting caller has its flag set. -/
def Doomed (s : World ι) : Prop :=
  s.aborted = true ∨ ∃ c j d, s.pos c = .joining j d ∧ s.flag c = true

omit [DecidableEq ι] in
theorem not_doomed_iff : ¬ Doomed s ↔ s.aborted = false ∧ Quiet s := by
  simp only [Doomed, Quiet, not_or, not_exists, not_and, Bool.not_eq_true]

theorem hitFlag_of_ne (hc : c ≠ some j) : s.hitFlag j o c = s.flag c := by
  unfold hitFlag
  split
  · exact Function.update_of_ne hc ..
  · rfl

theorem hitFlag_of_flag (hf : s.flag c = true) : s.hitFlag j o c = true := by
  by_cases e : c = some j
  · subst e
    unfold hitFlag
    split
    · exact Function.update_self ..
    · exact hf
  · rw [hitFlag_of_ne e, hf]

/-- An interrupt that hits nobody who waits leaves the waiting callers quiet. -/
theorem Quiet.hit (h : Quiet s) (hu : s.hits j o = true → s.pos (some j) = .active) {k : ι}
    (hc : s.pos c = .joining k d) : s.hitFlag j o c = false := by
  by_cases e : c = some j
  · subst e
    have hh : s.hits j o = false := by
      rw [← Bool.not_eq_true]
      exact fun hh => nomatch hc.symm.trans (hu hh)
    rw [hitFlag, if_neg (by simp [hh])]
    exact h _ k d hc
  · rw [hitFlag_of_ne e]
    exact h c k d hc

/-- **A step that meets the condition** fails no assertion and leaves the waiting callers quiet. -/
theorem Quiet.step (h : Quiet s) {l : Label ι} (hu : Undisturbed s l) (hC : Change s l s') :
    s'.aborted = false ∧ Quiet s' := by
  cases hC with
  | start ha hf hp => exact ⟨ha, fun c j d hc => by rw [hf]; exact h c j d (hp ▸ hc)⟩
  | exit ha hf hp => exact ⟨ha, fun c j d hc => by rw [hf]; exact h c j d (hp ▸ hc)⟩
  | interrupt ho ha hf hp =>
      exact ⟨ha, fun c k d hc => by rw [hf]; exact h.hit (hu _ ho) (hp ▸ hc)⟩
  | stopFails ho hm hf ha =>
      have hd := Bool.not_eq_true' _ ▸ (Bool.and_eq_true_iff.mp hm).1
      exact nomatch hf.symm.trans ((hu _ ho hd).2 hm)
  | @stop c j d o _ ho hc hcj hok ha hf hp =>
      refine ⟨ha, fun c' k d' hc' => ?_⟩
      -- those who waited before, and then `c`, if it waits from now on
      have hold : ∀ k' d'', s.pos c' = .joining k' d'' → s'.flag c' = false := by
        intro k' d'' hc''
        rw [hf]
        split
        · exact h c' k' d'' hc''
        · rename_i hd
          exact h.hit (hu _ ho (by simpa using hd)).1 hc''
      rw [hp] at hc'
      split at hc'
      · rename_i hm
        by_cases e : c' = c
        · subst e
          have hd := Bool.not_eq_true' _ ▸ (Bool.and_eq_true_iff.mp hm).1
          rw [hf, if_neg (by simp [hd]), hitFlag_of_ne hcj]
          exact (hu _ ho hd).2 hm
        · rw [Function.update_of_ne e] at hc'
          exact hold k d' hc'
      · exact hold k d' hc'
  | resumeFails hc hf ha => exact nomatch hf.symm.trans (h _ _ _ hc)
  | @resume c j d _ hc hfc ha hf hp =>
      refine ⟨ha, fun c' k d' hc' => ?_⟩
      rw [hp] at hc'
      rw [hf]
      by_cases e : c' = c
      · rw [e, hfc]
      · rw [Function.update_of_ne e] at hc'
        exact h c' k d' hc'
  | @deliver c _ hc ha hf hp =>
      refine ⟨ha, fun c' k d' hc' => ?_⟩
      rw [hf]
      by_cases e : c' = c
      · rw [e, Function.update_self]
      · rw [Function.update_of_ne e]
        exact h c' k d' (hp ▸ hc')

/-- **A step that does not meet it** fails an assertion or leaves a waiting caller with its flag
set. -/
theorem doomed_of_disturbed {l : Label ι} (hu : ¬ Undisturbed s l) (hC : Change s l s') :
    Doomed s' := by
  cases hC with
  | @interrupt c j o _ ho ha hf hp =>
      simp only [Undisturbed, not_forall] at hu
      obtain ⟨q, hq, hh, hpos⟩ := hu
      cases ho.symm.trans hq
      cases hpj : s.pos (some j) with
      | active => exact absurd hpj hpos
      | joining k d =>
          refine .inr ⟨some j, k, d, by rw [hp, hpj], ?_⟩
          rw [hf, hitFlag, if_pos hh, Function.update_self]
  | stopFails ho hm hf ha => exact .inl ha
  | @stop c j d o _ ho hc hcj hok ha hf hp =>
      simp only [Undisturbed, not_forall] at hu
      obtain ⟨q, hq, hd, hnot⟩ := hu
      cases ho.symm.trans hq
      have hw : s.mustWait j o = true → s.flag c = false :=
        fun hm => hok.resolve_left (by simp [hm])
      -- the `stop` did not fail, so what it disturbs is the wait of `j`
      have hhit : ¬ (s.hits j o = true → s.pos (some j) = .active) := fun hh => hnot ⟨hh, hw⟩
      simp only [not_forall] at hhit
      obtain ⟨hh, hpos⟩ := hhit
      cases hpj : s.pos (some j) with
      | active => exact absurd hpj hpos
      | joining k d' =>
          refine .inr ⟨some j, k, d', ?_, ?_⟩
          · rw [hp]
            split
            · rw [Function.update_of_ne (Ne.symm hcj), hpj]
            · exact hpj
          · rw [hf, if_neg (by simp [hd]), hitFlag, if_pos hh, Function.update_self]
  | _ => exact absurd trivial hu

/-- Such a caller stays so until it fails. -/
theorem Doomed.step (h : Doomed s) (hna : s.aborted = false) {l : Label ι} (hC : Change s l s') :
    Doomed s' := by
  obtain ⟨c, j, d, hc, hf⟩ := h.resolve_left (by simp [hna])
  cases hC with
  | start ha hf' hp => exact .inr ⟨c, j, d, by rw [hp, hc], by rw [hf', hf]⟩
  | exit ha hf' hp => exact .inr ⟨c, j, d, by rw [hp, hc], by rw [hf', hf]⟩
  | interrupt ho ha hf' hp =>
      exact .inr ⟨c, j, d, by rw [hp, hc], by rw [hf', hitFlag_of_flag hf]⟩
  | stopFails ho hm hf' ha => exact .inl ha
  | @stop c' _ _ _ _ ho hc' hcj hok ha hf' hp =>
      -- a caller that waits does not call `stop`
      have e : c ≠ c' := by
        rintro rfl
        exact nomatch hc.symm.trans hc'
      refine .inr ⟨c, j, d, ?_, ?_⟩
      · rw [hp]
        split
        · rw [Function.update_of_ne e, hc]
        · exact hc
      · rw [hf']
        split
        · exact hf
        · exact hitFlag_of_flag hf
  | resumeFails hc' hf' ha => exact .inl ha
  | @resume c' _ _ _ hc' hfc ha hf' hp =>
      -- with its flag set it is not resumed in good order
      have e : c ≠ c' := by
        rintro rfl
        exact nomatch hf.symm.trans hfc
      exact .inr ⟨c, j, d, by rw [hp, Function.update_of_ne e, hc], by rw [hf', hf]⟩
  | @deliver c' _ hc' ha hf' hp =>
      have e : c ≠ c' := by
        rintro rfl
        exact nomatch hc.symm.trans hc'
      exact .inr ⟨c, j, d, by rw [hp, hc], by rw [hf', Function.update_of_ne e, hf]⟩

theorem stopsComplete_iff (h : s.aborted = false → Inv s) : StopsComplete s ↔ ¬ Doomed s := by
  constructor
  · rintro hC (ha | ⟨c, j, d, hc, hf⟩)
    · exact nomatch hC.alive.symm.trans ha
    · obtain ⟨o, ho, -⟩ := (h hC.alive).joining c j d hc
      obtain ⟨⟨t, -, hfail, -⟩, -⟩ := step_resume (h hC.alive) hC.alive hc ho
      exact nomatch (hC.resumes c _ (hfail hf)).symm.trans joinFailed_aborted
  · intro hD
    obtain ⟨ha, hq⟩ := not_doomed_iff.mp hD
    refine ⟨ha, fun c s' hs => ?_, fun c j d o t r hc ho hth => ?_⟩
    · cases (step_spec (h ha) hs).2 with
      | resumeFails hc hf _ => exact nomatch hf.symm.trans (hq _ _ _ hc)
      | resume _ _ ha' => exact ha'
    · obtain ⟨q, hq', hst⟩ := (h ha).joining c j d hc
      cases ho.symm.trans hq'
      obtain ⟨⟨-, -, -, hend⟩, -⟩ := step_resume (h ha) ha hc ho
      obtain ⟨-, ha', -, hp'⟩ := joined_spec (d := d) (h ha) ho hth hst
        fun c' d' hc' => (h ha).unique c' c j d' d hc' hc
      exact ⟨_, hend t r (hq c j d hc) hth, ha'.trans ha, by rw [hp', Function.update_self]⟩

/-! ### Every run -/

/-- What a step does to a process that is not bound to fail. -/
theorem doomed_iff_of_step (hi : s.aborted = false → Inv s) (hD : ¬ Doomed s) {l : Label ι}
    (hs : s.step l = some s') : Doomed s' ↔ ¬ Undisturbed s l := by
  obtain ⟨ha, hq⟩ := not_doomed_iff.mp hD
  have hC := (step_spec (hi ha) hs).2
  constructor
  · intro hD' hu
    exact not_doomed_iff.mpr (hq.step hu hC) hD'
  · exact fun hu => doomed_of_disturbed hu hC

/-- **Stops complete.**  Along any run of any set of coroutines, no `stop` has failed an assertion
and those in progress get on and return, exactly when every step met the condition: no interrupt
hit a caller that was waiting in a `stop`, and none was undelivered when its thread entered a
`stop` that had to wait. -/
theorem stops_complete_iff {ls : List (Label ι)} {s : World ι}
    (h : exec step init ls = some s) :
    StopsComplete s ↔ AllSteps step Undisturbed init ls := by
  rw [stopsComplete_iff (inv_of_exec h)]
  refine (allSteps_iff_not (I := fun s => s.aborted = false → Inv s) Doomed (fun _ => inv_init)
    (not_doomed_iff.mpr ⟨rfl, nofun⟩) (fun _ _ _ hi hs => inv_of_step hi hs)
    (fun _ _ _ hi hD hs => doomed_iff_of_step hi hD hs) ?_ h).symm
  intro s l s' hi hD hs
  have ha := alive_of_step hs
  exact hD.step ha (step_spec (hi ha) hs).2

/-- The coroutine `0` stops `1`, which is interrupted, ends and is joined. -/
theorem stops_complete_iff_two :
    ∃ s : World Nat, exec step init
      [.start none 0 true, .start none 1 true, .stop (some 0) 1 false, .exit 1 none,
        .resume (some 0)] = some s ∧
      (StopsComplete s ↔ AllSteps step Undisturbed init
        [.start none 0 true, .start none 1 true, .stop (some 0) 1 false, .exit 1 none,
          .resume (some 0)]) :=
  ⟨_, rfl, stops_complete_iff rfl⟩

/-- The coroutine `0` is interrupted and then, before the interrupt is delivered, stops `1`. -/
theorem stop_fails_after_interrupt :
    ¬ ∀ (ls : List (Label Nat)) (s : World Nat), exec step init ls = some s →
      StopsComplete s := by
  intro H
  have hC := H [.start none 0 true, .start none 1 true, .interrupt none 0, .stop (some 0) 1 true]
    _ rfl
  exact nomatch hC.alive

end World

end StCoroutine.Coroutine
