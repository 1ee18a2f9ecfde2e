import Mathlib.Data.List.Infix

/-!
# Lts — runs of a guarded step function

A system is a function `step : σ → ℓ → Option σ`: `step s l` is the state after the step `l`
from `s`, and `none` when `l` is not enabled in `s`.  A run is a list of labels, and what an
environment may decide (a result, a choice, an interleaving) is part of the label, so that a
statement about every run is a statement about every list.

* `exec_ind`, `exec_inv`: what every step preserves holds after every run.
* `trace`: what a run shows of itself, when each step shows a list of events; `trace_ind` is the
  induction principle that sees the events so far.
* `exec_at_event`, `exec_split`: where each step shows at most one event, a split of what a run
  shows is a split of the run.
* `exec_sim`: a system whose steps are runs of another is simulated by it, under a view of the
  events.
* `exec_lockstep`: two systems that show the same events from related states show the same
  events along every run.
* `AllSteps`: every step of a run was taken under a condition on the state before it;
  `allSteps_iff_not` ties the condition to the states that a run ends in.
* `Occurs`: some event of a history happened after events that satisfy a condition with it.
* `latest`: the value a history last set, unless it was cleared since; `latest_eq_some` reads it
  back as a split of the history, and a value that is there after it was cleared was set since.
-/

set_option autoImplicit false

namespace Lts

variable {σ ℓ ε β : Type*}

/-- The state after the steps `ls` from `s`; `none` when one of them is not enabled. -/
def exec (step : σ → ℓ → Option σ) : σ → List ℓ → Option σ
  | s, [] => some s
  | s, l :: ls => (step s l).bind fun s' => exec step s' ls

section exec

variable {step : σ → ℓ → Option σ}

@[simp] theorem exec_nil (s : σ) : exec step s [] = some s := rfl

theorem exec_singleton {s : σ} {l : ℓ} : exec step s [l] = step s l := by
  cases h : step s l <;> simp [exec, h]

theorem exec_cons {s s' : σ} {l : ℓ} {ls : List ℓ} :
    exec step s (l :: ls) = some s' ↔ ∃ m, step s l = some m ∧ exec step m ls = some s' := by
  simp only [exec, Option.bind_eq_some_iff]

theorem exec_append {ls ls' : List ℓ} {s s' : σ} :
    exec step s (ls ++ ls') = some s' ↔
      ∃ m, exec step s ls = some m ∧ exec step m ls' = some s' := by
  induction ls generalizing s with
  | nil => simp
  | cons l ls ih =>
      rw [List.cons_append, exec_cons]
      constructor
      · rintro ⟨a, ha, h⟩
        obtain ⟨m, hm, h'⟩ := ih.mp h
        exact ⟨m, exec_cons.mpr ⟨a, ha, hm⟩, h'⟩
      · rintro ⟨m, hm, h'⟩
        obtain ⟨a, ha, hm⟩ := exec_cons.mp hm
        exact ⟨a, ha, ih.mpr ⟨m, hm, h'⟩⟩

theorem exec_snoc {ls : List ℓ} {l : ℓ} {s s' : σ} :
    exec step s (ls ++ [l]) = some s' ↔ ∃ m, exec step s ls = some m ∧ step m l = some s' := by
  simp only [exec_append, exec_cons, exec_nil, Option.some.injEq]
  constructor
  · rintro ⟨m, hm, _, hs, rfl⟩
    exact ⟨m, hm, hs⟩
  · rintro ⟨m, hm, hs⟩
    exact ⟨m, hm, _, hs, rfl⟩

/-- **Induction along a run**, with the labels so far in sight. -/
theorem exec_ind {P : List ℓ → σ → Prop} {s₀ : σ} (init : P [] s₀)
    (keep : ∀ ls s l s', exec step s₀ ls = some s → P ls s → step s l = some s' →
      P (ls ++ [l]) s') :
    ∀ {ls s}, exec step s₀ ls = some s → P ls s := by
  intro ls
  induction ls using List.reverseRecOn with
  | nil =>
      intro s h
      cases h
      exact init
  | append_singleton ls l ih =>
      intro s h
      obtain ⟨m, hm, hs⟩ := exec_snoc.mp h
      exact keep ls m l s hm (ih hm) hs

/-- What holds at the start and is kept by every step holds after every run. -/
theorem exec_inv {I : σ → Prop} {s₀ : σ} (init : I s₀)
    (keep : ∀ s l s', I s → step s l = some s' → I s') {ls : List ℓ} {s : σ}
    (h : exec step s₀ ls = some s) : I s :=
  exec_ind (P := fun _ => I) init (fun _ s l s' _ hs h => keep s l s' hs h) h

/-- A split of `ls ++ [l]` is at its last element or inside `ls`. -/
theorem snoc_eq_split {ls pre post : List ℓ} {l k : ℓ} (h : ls ++ [l] = pre ++ k :: post) :
    (pre = ls ∧ k = l ∧ post = []) ∨ ∃ post', post = post' ++ [l] ∧ ls = pre ++ k :: post' := by
  rcases List.eq_nil_or_concat post with rfl | ⟨post', k', rfl⟩
  · obtain ⟨h₁, h₂⟩ := List.append_inj' h rfl
    exact .inl ⟨h₁.symm, (List.singleton_inj.mp h₂).symm, rfl⟩
  · rw [List.concat_eq_append, ← List.cons_append, ← List.append_assoc] at h
    obtain ⟨h₁, h₂⟩ := List.append_inj' h rfl
    exact .inr ⟨post', by rw [List.concat_eq_append, List.singleton_inj.mp h₂], h₁⟩

/-! ### What a run shows -/

/-- The events a run shows, when the step `l` from `s` shows `obs s l`. -/
def trace (step : σ → ℓ → Option σ) (obs : σ → ℓ → List ε) : σ → List ℓ → List ε
  | _, [] => []
  | s, l :: ls => obs s l ++ ((step s l).map fun s' => trace step obs s' ls).getD []

variable {obs : σ → ℓ → List ε}

@[simp] theorem trace_nil (s : σ) : trace step obs s [] = [] := rfl

theorem trace_append {ls ls' : List ℓ} {s m : σ} (h : exec step s ls = some m) :
    trace step obs s (ls ++ ls') = trace step obs s ls ++ trace step obs m ls' := by
  induction ls generalizing s with
  | nil =>
      cases h
      rfl
  | cons l ls ih =>
      obtain ⟨a, ha, h⟩ := exec_cons.mp h
      simp only [List.cons_append, trace, ha, Option.map_some, Option.getD_some, ih h,
        List.append_assoc]

theorem trace_snoc {ls : List ℓ} {l : ℓ} {s m : σ} (h : exec step s ls = some m) :
    trace step obs s (ls ++ [l]) = trace step obs s ls ++ obs m l := by
  rw [trace_append h]
  congr 1
  cases h' : step m l <;> simp [trace, h']

theorem trace_singleton {l : ℓ} {s : σ} : trace step obs s [l] = obs s l := by
  cases h : step s l <;> simp [trace, h]

/-- **Induction along a run**, with the events so far in sight. -/
theorem trace_ind {P : List ε → σ → Prop} {s₀ : σ} (init : P [] s₀)
    (keep : ∀ tr s l s', P tr s → step s l = some s' → P (tr ++ obs s l) s')
    {ls : List ℓ} {s : σ} (h : exec step s₀ ls = some s) : P (trace step obs s₀ ls) s := by
  refine exec_ind (P := fun ls s => P (trace step obs s₀ ls) s) init ?_ h
  intro ls s l s' hm hP hs
  rw [trace_snoc hm]
  exact keep _ s l s' hP hs

/-- What every step shows of a state with `I` has `P`, so every event of a run has it. -/
theorem trace_forall {I : σ → Prop} {P : ε → Prop} {s₀ : σ} (init : I s₀)
    (keep : ∀ s l s', I s → step s l = some s' → I s' ∧ ∀ e ∈ obs s l, P e)
    {ls : List ℓ} {s : σ} (h : exec step s₀ ls = some s) :
    ∀ e ∈ trace step obs s₀ ls, P e := by
  refine (trace_ind (P := fun tr s => I s ∧ ∀ e ∈ tr, P e) ⟨init, by simp⟩ ?_ h).2
  rintro tr s l s' ⟨hI, htr⟩ hs
  obtain ⟨hI', hobs⟩ := keep s l s' hI hs
  refine ⟨hI', fun e he => ?_⟩
  rcases List.mem_append.mp he with he | he
  · exact htr e he
  · exact hobs e he

/-! ### Splitting a run at an event -/

/-- **A run is split at an event it shows**, when each step shows at most one. -/
theorem exec_at_event (one : ∀ s l, (obs s l).length ≤ 1) {e : ε} {h₂ : List ε} {s' : σ}
    {ls : List ℓ} : ∀ {s : σ} {h₁ : List ε}, exec step s ls = some s' →
      trace step obs s ls = h₁ ++ e :: h₂ →
      ∃ ls₁ l ls₂ m m', ls = ls₁ ++ l :: ls₂ ∧ exec step s ls₁ = some m ∧ step m l = some m' ∧
        exec step m' ls₂ = some s' ∧ trace step obs s ls₁ = h₁ ∧ obs m l = [e] ∧
        trace step obs m' ls₂ = h₂ := by
  induction ls with
  | nil =>
      intro s h₁ _ htr
      simp at htr
  | cons l ls ih =>
      intro s h₁ h htr
      obtain ⟨m, hm, h⟩ := exec_cons.mp h
      simp only [trace, hm, Option.map_some, Option.getD_some] at htr
      cases ho : obs s l with
      | nil =>
          rw [ho] at htr
          obtain ⟨ls₁, k, ls₂, a, b, rfl, ha, hk, hb, htr₁, hok, htr₂⟩ := ih h htr
          refine ⟨l :: ls₁, k, ls₂, a, b, rfl, exec_cons.mpr ⟨m, hm, ha⟩, hk, hb, ?_, hok, htr₂⟩
          simp only [trace, ho, hm, Option.map_some, Option.getD_some, List.nil_append, htr₁]
      | cons b os =>
          -- the step shows this one event, which is `e` or comes before it
          have hos : os = [] := by
            have hlen := one s l
            rw [ho] at hlen
            exact List.length_eq_zero_iff.mp (Nat.le_zero.mp (Nat.le_of_succ_le_succ hlen))
          subst hos
          rw [ho] at htr
          cases h₁ with
          | nil =>
              cases htr
              exact ⟨[], l, ls, s, m, rfl, rfl, hm, h, rfl, ho, rfl⟩
          | cons a h₁ =>
              injection htr with ha htl
              subst ha
              obtain ⟨ls₁, k, ls₂, c, d, rfl, hc, hk, hd, htr₁, hok, htr₂⟩ := ih h htl
              refine ⟨l :: ls₁, k, ls₂, c, d, rfl, exec_cons.mpr ⟨m, hm, hc⟩, hk, hd, ?_, hok,
                htr₂⟩
              simp only [trace, ho, hm, Option.map_some, Option.getD_some, htr₁,
                List.singleton_append]

/-- A split of what a run shows is a split of the run, when each step shows at most one event. -/
theorem exec_split (one : ∀ s l, (obs s l).length ≤ 1) {s s' : σ} {ls : List ℓ} {h₁ h₂ : List ε}
    (h : exec step s ls = some s') (htr : trace step obs s ls = h₁ ++ h₂) :
    ∃ ls₁ ls₂ m, ls = ls₁ ++ ls₂ ∧ exec step s ls₁ = some m ∧ exec step m ls₂ = some s' ∧
      trace step obs s ls₁ = h₁ ∧ trace step obs m ls₂ = h₂ := by
  cases h₂ with
  | nil =>
      rw [List.append_nil] at htr
      exact ⟨ls, [], s', by simp, h, rfl, htr, rfl⟩
  | cons e h₂ =>
      obtain ⟨ls₁, l, ls₂, m, m', rfl, hm, hl, h', htr₁, ho, htr₂⟩ := exec_at_event one h htr
      refine ⟨ls₁, l :: ls₂, m, rfl, hm, exec_cons.mpr ⟨m', hl, h'⟩, htr₁, ?_⟩
      simp only [trace, ho, hl, Option.map_some, Option.getD_some, htr₂, List.singleton_append]

/-! ### One system inside another -/

/-- **Simulation.**  When every step is a run of another system between the states `abs` makes of
it, showing the `view` of its events, then so is every run. -/
theorem exec_sim {τ ℓ' ε' : Type*} {step' : τ → ℓ' → Option τ} {obs' : τ → ℓ' → List ε'}
    {abs : σ → τ} {view : ε → ε'}
    (next : ∀ s l s', step s l = some s' → ∃ ks, exec step' (abs s) ks = some (abs s') ∧
      trace step' obs' (abs s) ks = (obs s l).map view)
    {s₀ : σ} {ls : List ℓ} {s : σ} (h : exec step s₀ ls = some s) :
    ∃ ks, exec step' (abs s₀) ks = some (abs s) ∧
      trace step' obs' (abs s₀) ks = (trace step obs s₀ ls).map view := by
  refine trace_ind (P := fun tr s => ∃ ks, exec step' (abs s₀) ks = some (abs s) ∧
    trace step' obs' (abs s₀) ks = tr.map view) ⟨[], rfl, rfl⟩ ?_ h
  rintro tr s l s' ⟨ks, hks, htr⟩ hs
  obtain ⟨js, hjs, htr'⟩ := next s l s' hs
  refine ⟨ks ++ js, exec_append.mpr ⟨_, hks, hjs⟩, ?_⟩
  rw [trace_append hks, htr, htr', List.map_append]

/-! ### Two systems in lockstep -/

/-- **Lockstep.**  Two systems over the same labels, related by `R`, where from related states
every label is enabled in both, shows the same events and leads to related states: every run
goes through in both and shows the same events. -/
theorem exec_lockstep {τ : Type*} {step' : τ → ℓ → Option τ} {obs' : τ → ℓ → List ε}
    {R : σ → τ → Prop}
    (next : ∀ s t l, R s t → ∃ s' t', step s l = some s' ∧ step' t l = some t' ∧
      obs s l = obs' t l ∧ R s' t') (ls : List ℓ) :
    ∀ {s t}, R s t → ∃ s' t', exec step s ls = some s' ∧ exec step' t ls = some t' ∧
      trace step obs s ls = trace step' obs' t ls ∧ R s' t' := by
  induction ls with
  | nil =>
      intro s t h
      exact ⟨s, t, rfl, rfl, rfl, h⟩
  | cons l ls ih =>
      intro s t h
      obtain ⟨m, m', hs, ht, ho, hR⟩ := next s t l h
      obtain ⟨s', t', hs', ht', htr, hR'⟩ := ih hR
      refine ⟨s', t', exec_cons.mpr ⟨m, hs, hs'⟩, exec_cons.mpr ⟨m', ht, ht'⟩, ?_, hR'⟩
      simp only [trace, hs, ht, Option.map_some, Option.getD_some, ho, htr]

/-! ### Runs whose steps all meet a condition -/

/-- Every step of the run `ls` from `s` is taken in a state where `ok` allows its label. -/
def AllSteps (step : σ → ℓ → Option σ) (ok : σ → ℓ → Prop) (s : σ) (ls : List ℓ) : Prop :=
  ∀ pre l post m, ls = pre ++ l :: post → exec step s pre = some m → ok m l

variable {ok : σ → ℓ → Prop}

theorem allSteps_nil (s : σ) : AllSteps step ok s [] := by
  intro pre l post m h
  simp at h

theorem allSteps_snoc {ls : List ℓ} {l : ℓ} {s m : σ} (h : exec step s ls = some m) :
    AllSteps step ok s (ls ++ [l]) ↔ AllSteps step ok s ls ∧ ok m l := by
  constructor
  · intro H
    refine ⟨fun pre k post m' e hm' => H pre k (post ++ [l]) m' (by simp [e]) hm', ?_⟩
    exact H ls l [] m rfl h
  · rintro ⟨H, hok⟩ pre k post m' e hm'
    rcases snoc_eq_split e with ⟨rfl, rfl, -⟩ | ⟨post', -, e⟩
    · rw [h] at hm'
      cases hm'
      exact hok
    · exact H pre k post' m' e hm'

/-- **Bad states.**  Where a step leads into a bad state exactly when it does not meet `ok`, and no
step leads back out, the steps of a run all meet `ok` exactly when it does not end in such a
state. -/
theorem allSteps_iff_not {I : σ → Prop} (bad : σ → Prop) {s₀ : σ} (hI : I s₀) (init : ¬ bad s₀)
    (keepI : ∀ s l s', I s → step s l = some s' → I s')
    (enter : ∀ s l s', I s → ¬ bad s → step s l = some s' → (bad s' ↔ ¬ ok s l))
    (stay : ∀ s l s', I s → bad s → step s l = some s' → bad s') {ls : List ℓ} {s : σ}
    (h : exec step s₀ ls = some s) : AllSteps step ok s₀ ls ↔ ¬ bad s := by
  refine (exec_ind (P := fun ls s => I s ∧ (AllSteps step ok s₀ ls ↔ ¬ bad s))
    ⟨hI, iff_of_true (allSteps_nil s₀) init⟩ ?_ h).2
  rintro ls s l s' hm ⟨hs, ih⟩ hstep
  refine ⟨keepI s l s' hs hstep, ?_⟩
  rw [allSteps_snoc hm, ih]
  by_cases hb : bad s
  · exact iff_of_false (fun H => H.1 hb) (not_not.mpr (stay s l s' hs hb hstep))
  · rw [enter s l s' hs hb hstep, not_not]
    exact and_iff_right hb

/-- Where no step leads on from a bad state. -/
theorem allSteps_iff (bad : σ → Prop) {s₀ : σ} (init : ¬ bad s₀)
    (enter : ∀ s l s', step s l = some s' → (bad s' ↔ ¬ ok s l))
    (halt : ∀ s l s', step s l = some s' → ¬ bad s) {ls : List ℓ} {s : σ}
    (h : exec step s₀ ls = some s) : AllSteps step ok s₀ ls ↔ ¬ bad s :=
  allSteps_iff_not (I := fun _ => True) bad trivial init (fun _ _ _ _ _ => trivial)
    (fun s l s' _ _ hs => enter s l s' hs) (fun s l s' _ hb hs => absurd hb (halt s l s' hs)) h

/-- Every state of the run `ls` from `s`, its first and its last included, is `good`. -/
def AllStates (step : σ → ℓ → Option σ) (good : σ → Prop) (s : σ) (ls : List ℓ) : Prop :=
  ∀ pre post m, ls = pre ++ post → exec step s pre = some m → good m

variable {good : σ → Prop}

theorem allStates_nil {s : σ} : AllStates step good s [] ↔ good s := by
  constructor
  · intro H
    exact H [] [] s rfl rfl
  · intro hs pre post m e hm
    obtain ⟨rfl, -⟩ := List.append_eq_nil_iff.mp e.symm
    cases hm
    exact hs

theorem AllStates.last {ls : List ℓ} {s m : σ} (H : AllStates step good s ls)
    (h : exec step s ls = some m) : good m :=
  H ls [] m (List.append_nil ls).symm h

theorem allStates_snoc {ls : List ℓ} {l : ℓ} {s m : σ} (h : exec step s (ls ++ [l]) = some m) :
    AllStates step good s (ls ++ [l]) ↔ AllStates step good s ls ∧ good m := by
  constructor
  · intro H
    exact ⟨fun pre post m' e hm' => H pre (post ++ [l]) m' (by simp [e]) hm', H.last h⟩
  · rintro ⟨H, hg⟩ pre post m' e hm'
    rcases List.eq_nil_or_concat post with rfl | ⟨post', k, rfl⟩
    · rw [List.append_nil] at e
      rw [← e, h] at hm'
      cases hm'
      exact hg
    · rw [List.concat_eq_append, ← List.append_assoc] at e
      exact H pre post' m' (List.append_inj_left' e rfl) hm'

/-- Where a step with a label of `D` leads from a good state to a good state exactly when it meets
`ok`, all states of a run of such steps are good exactly when its steps all meet it. -/
theorem allSteps_iff_allStates {I : σ → Prop} {D : ℓ → Prop} {s₀ : σ} (hI : I s₀) (hg : good s₀)
    (keepI : ∀ s l s', I s → step s l = some s' → I s')
    (keep : ∀ s l s', I s → good s → D l → step s l = some s' → (good s' ↔ ok s l)) {ls : List ℓ}
    {s : σ} (h : exec step s₀ ls = some s) (hD : ∀ l ∈ ls, D l) :
    AllSteps step ok s₀ ls ↔ AllStates step good s₀ ls := by
  refine (exec_ind (P := fun ls s => I s ∧ ((∀ l ∈ ls, D l) →
    (AllSteps step ok s₀ ls ↔ AllStates step good s₀ ls))) ?_ ?_ h).2 hD
  · exact ⟨hI, fun _ => iff_of_true (allSteps_nil s₀) (allStates_nil.mpr hg)⟩
  · rintro ls s l s' hm ⟨hs, ih⟩ hstep
    refine ⟨keepI s l s' hs hstep, fun hD => ?_⟩
    rw [allSteps_snoc hm, allStates_snoc (exec_snoc.mpr ⟨s, hm, hstep⟩),
      ih fun k hk => hD k (List.mem_append_left _ hk)]
    have hl : D l := hD l (List.mem_append_right _ (List.mem_singleton_self l))
    exact and_congr_right fun H => (keep s l s' hs (H.last hm) hl hstep).symm

/-- Where every step can be taken, every run can. -/
theorem exec_total (total : ∀ s l, ∃ s', step s l = some s') (s : σ) (ls : List ℓ) :
    ∃ s', exec step s ls = some s' := by
  induction ls generalizing s with
  | nil => exact ⟨s, rfl⟩
  | cons l ls ih =>
      obtain ⟨m, hm⟩ := total s l
      obtain ⟨s', hs'⟩ := ih m
      exact ⟨s', exec_cons.mpr ⟨m, hm, hs'⟩⟩

end exec

/-! ### An event and what came before it -/

/-- Some event `e` of the history came after events `pre` with `P pre e`. -/
def Occurs (P : List ε → ε → Prop) (h : List ε) : Prop :=
  ∃ pre e post, h = pre ++ e :: post ∧ P pre e

section occurs

variable {P Q : List ε → ε → Prop} {h h' : List ε} {e : ε}

@[simp] theorem occurs_nil : ¬ Occurs P [] := by
  rintro ⟨pre, e, post, he, -⟩
  simp at he

@[simp] theorem occurs_cons : Occurs P (e :: h) ↔ P [] e ∨ Occurs (fun pre => P (e :: pre)) h := by
  constructor
  · rintro ⟨pre, k, post, he, hP⟩
    cases pre with
    | nil =>
        cases he
        exact .inl hP
    | cons j pre =>
        cases he
        exact .inr ⟨pre, k, post, rfl, hP⟩
  · rintro (hP | ⟨pre, k, post, rfl, hP⟩)
    · exact ⟨[], e, h, rfl, hP⟩
    · exact ⟨e :: pre, k, post, rfl, hP⟩

theorem occurs_append :
    Occurs P (h ++ h') ↔ Occurs P h ∨ Occurs (fun pre => P (h ++ pre)) h' := by
  induction h generalizing P with
  | nil => simp
  | cons e h ih => simp only [List.cons_append, occurs_cons, ih, or_assoc]

/-- The last event outside `P` is at one place. -/
theorem split_unique {P : ε → Prop} {h₁ h₂ k₁ k₂ : List ε} {d e : ε}
    (he : h₁ ++ d :: h₂ = k₁ ++ e :: k₂) (hd : ¬ P d) (hP : ¬ P e) (hh : ∀ x ∈ h₂, P x)
    (hk : ∀ x ∈ k₂, P x) : h₁ = k₁ ∧ d = e ∧ h₂ = k₂ := by
  rcases List.append_eq_append_iff.mp he with ⟨t, rfl, ht⟩ | ⟨t, rfl, ht⟩
  · cases t with
    | nil =>
        cases ht
        exact ⟨by simp, rfl, rfl⟩
    | cons a t =>
        cases ht
        exact absurd (hh e (by simp)) hP
  · cases t with
    | nil =>
        cases ht
        exact ⟨by simp, rfl, rfl⟩
    | cons a t =>
        cases ht
        exact absurd (hk d (by simp)) hd

/-- Where no event with `p` comes after another, there is at most one. -/
theorem countP_le_one {p : ε → Bool}
    (H : ∀ h₁ d h₂ e h₃, h = h₁ ++ d :: (h₂ ++ e :: h₃) → p d = true → ¬ p e = true) :
    h.countP p ≤ 1 := by
  induction h with
  | nil => exact Nat.zero_le 1
  | cons e h ih =>
      by_cases he : p e = true
      · have hnone : ∀ x ∈ h, ¬ p x = true := by
          intro x hx
          obtain ⟨h₂, h₃, rfl⟩ := List.append_of_mem hx
          exact H [] e h₂ x h₃ rfl he
        rw [List.countP_cons_of_pos he, List.countP_eq_zero.mpr hnone]
      · rw [List.countP_cons_of_neg he]
        exact ih fun h₁ d h₂ x h₃ hh => H (e :: h₁) d h₂ x h₃ (by rw [hh, List.cons_append])

end occurs

/-! ### The value a history last set -/

/-- The value the history `h` last set.  `eff l` is `some (some b)` when `l` sets the value `b`,
`some none` when it clears it, and `none` when it leaves it alone. -/
def latest (eff : ℓ → Option (Option β)) (h : List ℓ) : Option β :=
  h.foldl (fun acc l => (eff l).getD acc) none

section latest

variable {eff : ℓ → Option (Option β)} {h : List ℓ} {l : ℓ} {b : β}

@[simp] theorem latest_nil : latest eff [] = none := rfl

/-- The latest value, read off a view of the history. -/
theorem latest_map {ε' : Type*} (view : ε' → ℓ) (h : List ε') :
    latest eff (h.map view) = latest (fun e => eff (view e)) h :=
  List.foldl_map

theorem latest_snoc : latest eff (h ++ [l]) = (eff l).getD (latest eff h) := by
  simp [latest, List.foldl_append]

/-- A label that sets or clears the value of one key alone. -/
theorem latest_update {α : Type*} [DecidableEq α] {f : α → ℓ → Option (Option β)} {k : α}
    {v : Option β} (hk : f k l = some v) (hn : ∀ i, i ≠ k → f i l = none) :
    (fun i => latest (f i) (h ++ [l])) = Function.update (fun i => latest (f i) h) k v := by
  funext i
  by_cases e : i = k
  · subst e
    rw [Function.update_self, latest_snoc, hk, Option.getD_some]
  · rw [Function.update_of_ne e, latest_snoc, hn i e, Option.getD_none]

/-- Labels that leave the value alone do not change it. -/
theorem latest_append_of_none {h' : List ℓ} (hn : ∀ k ∈ h', eff k = none) :
    latest eff (h ++ h') = latest eff h := by
  induction h' using List.reverseRecOn with
  | nil => rw [List.append_nil]
  | append_singleton h' k ih =>
      rw [← List.append_assoc, latest_snoc, hn k (by simp), Option.getD_none]
      exact ih fun k' hk' => hn k' (by simp [hk'])

/-- **The latest value is `b`** exactly when some label set `b` and none after it set or cleared
the value. -/
theorem latest_eq_some :
    latest eff h = some b ↔
      ∃ pre k post, h = pre ++ k :: post ∧ eff k = some (some b) ∧ ∀ j ∈ post, eff j = none := by
  constructor
  · intro e
    induction h using List.reverseRecOn with
    | nil => cases e
    | append_singleton h k ih =>
        rw [latest_snoc] at e
        cases hk : eff k with
        | none =>
            rw [hk, Option.getD_none] at e
            obtain ⟨pre, k', post, rfl, hk', hp⟩ := ih e
            refine ⟨pre, k', post ++ [k], by simp, hk', fun j hj => ?_⟩
            rcases List.mem_append.mp hj with hj | hj
            · exact hp j hj
            · rw [List.mem_singleton.mp hj, hk]
        | some v =>
            rw [hk, Option.getD_some] at e
            exact ⟨h, k, [], rfl, by rw [hk, e], by simp⟩
  · rintro ⟨pre, k, post, rfl, hk, hp⟩
    have e : pre ++ k :: post = (pre ++ [k]) ++ post := by simp
    rw [e, latest_append_of_none hp, latest_snoc, hk, Option.getD_some]

/-- A value that is there after it was cleared was set since. -/
theorem exists_of_latest_after_clear {h' : List ℓ} (hl : eff l = some none)
    (hb : latest eff (h ++ l :: h') = some b) : ∃ k ∈ h', eff k = some (some b) := by
  induction h' using List.reverseRecOn with
  | nil =>
      rw [latest_snoc, hl, Option.getD_some] at hb
      cases hb
  | append_singleton h' k ih =>
      rw [← List.cons_append, ← List.append_assoc, latest_snoc] at hb
      cases hk : eff k with
      | none =>
          rw [hk, Option.getD_none] at hb
          obtain ⟨j, hj, he⟩ := ih hb
          exact ⟨j, List.mem_append_left _ hj, he⟩
      | some v =>
          rw [hk, Option.getD_some] at hb
          exact ⟨k, by simp, by rw [hk, hb]⟩

end latest

end Lts
