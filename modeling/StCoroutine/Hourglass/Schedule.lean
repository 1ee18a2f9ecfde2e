import StCoroutine.Hourglass.Dynamic
import StCoroutine.Lib.Progression
import StCoroutine.Lib.Visits

/-!
# Hourglass — when an hourglass notifies

The passes of a `SrsHourGlass` are at the multiples of its resolution, and an event is notified at
the passes its interval divides.

* `schedule`: what a pass notifies, and that an event that stays registered is notified once at
  each multiple of its interval.
* `first_notify_iff`: the first notification after a `tick` comes once the interval has elapsed, if
  and only if the event was ticked from inside the pass that its interval divides, when the
  iterator had come to it; otherwise it comes too early.  Every later one comes an interval after
  the one before.
-/

set_option autoImplicit false

namespace StCoroutine.Hourglass
open Kernel Lts Progression

/-! ### Reading a history -/

/-- The event ticks or unticks `event`. -/
def Event.Changes (event : Int) : Event → Prop
  | tick e _ | untick e => e = event
  | pass _ | notify .. | notified _ | usleep _ | quit => False

/-- The time at which `event` is notified. -/
def Event.notifiedAt (event : Int) : Event → Option Int
  | notify e _ now => if e = event then some now else none
  | tick .. | untick _ | pass _ | notified _ | usleep _ | quit => none

/-- The time of the pass that starts. -/
def Event.passes : Event → Option Int
  | pass now => some now
  | tick .. | untick _ | notify .. | notified _ | usleep _ | quit => none

/-- `event` is registered with `interval`: it was ticked so, and not changed since. -/
def Registered (tr : List Event) (event interval : Int) : Prop :=
  ∃ pre post : List Event, tr = pre ++ .tick event interval :: post ∧ ∀ x ∈ post, ¬ x.Changes event

/-- What the history of an hourglass is like. -/
structure Schedule (tr : List Event) : Prop where
  /-- A pass that ends has notified the registered events whose interval divides its time. -/
  notified : ∀ (pre mid post : List Event) (now us event interval time : Int),
    tr = pre ++ .pass now :: (mid ++ .usleep us :: post) → (∀ us, .usleep us ∉ mid) →
    (∀ x ∈ mid, ¬ x.Changes event) → 0 < interval →
    (.notify event interval time ∈ mid ↔
      Registered pre event interval ∧ interval ∣ now ∧ time = now)
  /-- A pass notifies in increasing order, so no event twice. -/
  increasing : ∀ (pre mid post : List Event) (now : Int),
    tr = pre ++ .pass now :: (mid ++ post) → (∀ us, .usleep us ∉ mid) →
    (mid.filterMap Event.notifies).Pairwise (· < ·)
  /-- An event that stays registered is notified once at each multiple of its interval. -/
  every : ∀ (pre seg post : List Event) (us first last event interval time : Int),
    tr = pre ++ (seg ++ .usleep us :: post) → seg.head? = some (.pass first) → InPass seg last →
    Registered pre event interval → (∀ x ∈ seg, ¬ x.Changes event) → 0 < interval →
    (seg.filterMap (Event.notifiedAt event)).count time =
      if first ≤ time ∧ time ≤ last ∧ interval ∣ time then 1 else 0

section history

variable {tr : List Event} {x : Event} {event interval : Int}

theorem touches_iff : x.toWalk.Touches event ↔ x.Changes event := by
  rcases x with _ | _ | _ | _ | (_ | _) | _ | _ <;>
    simp [Event.toWalk, Walk.Event.Touches, Event.Changes]

/-- Events that leave `event` alone leave its entry alone. -/
theorem not_touches_toWalk {tr : List Event} (hn : ∀ x ∈ tr, ¬ x.Changes event) :
    ∀ y ∈ tr.map Event.toWalk, ¬ y.Touches event := by
  intro y hy
  obtain ⟨x, hx, rfl⟩ := List.mem_map.mp hy
  exact fun ht => hn x hx (touches_iff.mp ht)

theorem visits_toWalk : Walk.Event.visits event ∘ Event.toWalk = Event.notifiedAt event := by
  funext x
  rcases x with _ | _ | _ | _ | (_ | _) | _ | _ <;> rfl

theorem starts_toWalk : Walk.Event.starts ∘ Event.toWalk = Event.passes := by
  funext x
  rcases x with _ | _ | _ | _ | (_ | _) | _ | _ <;> rfl

theorem assigns_eq_none_iff : Walk.Event.assigns event x.toWalk = none ↔ ¬ x.Changes event := by
  rcases x with _ | _ | _ | _ | (_ | _) | _ | _ <;>
    simp [Event.toWalk, Walk.Event.assigns, Event.Changes]

theorem assigns_eq_some_iff :
    Walk.Event.assigns event x.toWalk = some (some interval) ↔ x = .tick event interval := by
  rcases x with _ | _ | _ | _ | (_ | _) | _ | _ <;>
    simp [Event.toWalk, Walk.Event.assigns]

/-- What the map says of an interval is what the history says. -/
theorem latest_assigns_iff :
    latest (Walk.Event.assigns event) (tr.map Event.toWalk) = some interval ↔
      Registered tr event interval := by
  rw [latest_map, latest_eq_some]
  simp only [assigns_eq_some_iff, assigns_eq_none_iff]
  constructor
  · rintro ⟨p, k, q, e, rfl, hq⟩
    exact ⟨p, q, e, hq⟩
  · rintro ⟨p, q, e, hq⟩
    exact ⟨p, _, q, e, rfl, hq⟩

/-- What is registered, and has been for some events, was registered before them. -/
theorem Registered.of_append {post : List Event} (h : Registered (tr ++ post) event interval)
    (hn : ∀ x ∈ post, ¬ x.Changes event) : Registered tr event interval := by
  rw [← latest_assigns_iff, List.map_append, latest_append_of_none] at h
  · exact latest_assigns_iff.mp h
  · intro y hy
    obtain ⟨x, hx, rfl⟩ := List.mem_map.mp hy
    exact assigns_eq_none_iff.mpr (hn x hx)

end history

/-! ### The passes of an hourglass -/

/-- A pass is under way. -/
def Pc.Inside : Pc → Prop
  | iter _ | notify _ | lost => True
  | pull | returned _ => False

theorem next_ne_pull (ticks : NodeMap Int Int) (it : Cursor Int) : next ticks it ≠ .pull := by
  unfold next
  split <;> nofun

namespace SrsHourGlass

variable {resolution : Int} {mem : Nat} {ls : List Label} {t t' : SrsHourGlass}
  {pre mid post : List Event} {event interval time now : Int}

/-- What a step does to the elapsed time: nothing, or it begins a pass, or it ends one. -/
theorem elapse_of_step {l : Label} (h : t.step l = some t') :
    t'.resolution = t.resolution ∧
      (((t.obs l).filterMap Event.passes = [] ∧ t'.totalElapse = t.totalElapse ∧
          (t'.pc = .pull → t.pc = .pull) ∧ (t'.pc.Inside → t.pc.Inside)) ∨
        ((t.obs l).filterMap Event.passes = [t.totalElapse] ∧ t.pc = .pull ∧
          t'.totalElapse = t.totalElapse ∧ t'.pc.Inside) ∨
        ((t.obs l).filterMap Event.passes = [] ∧ t.pc.Inside ∧
          t'.totalElapse = t.totalElapse + t.resolution ∧ t'.pc = .pull)) := by
  obtain ⟨⟨es, t₁⟩, ha, rfl⟩ := Option.map_eq_some_iff.mp h
  have ho : t.obs l = es := by simp [obs, ha]
  rw [ho]
  obtain ⟨resolution, ticks, totalElapse, mem, pc⟩ := t
  cases l with
  | tick event interval =>
      obtain ⟨-, ha⟩ := Option.ite_none_right_eq_some.mp ha
      simp only [tick] at ha
      split_ifs at ha <;> cases ha <;> exact ⟨rfl, .inl ⟨rfl, rfl, id, id⟩⟩
  | untick event =>
      obtain ⟨-, ha⟩ := Option.ite_none_right_eq_some.mp ha
      cases ha
      exact ⟨rfl, .inl ⟨rfl, rfl, id, id⟩⟩
  | pull pulled clock =>
      cases pc with
      | pull =>
          cases pulled <;> cases ha
          · exact ⟨rfl, .inr (.inl ⟨rfl, rfl, rfl, trivial⟩)⟩
          · exact ⟨rfl, .inl ⟨rfl, rfl, fun _ => rfl, False.elim⟩⟩
      | _ => cases ha
  | iter =>
      cases pc with
      | iter it =>
          cases it with
          | none =>
              cases ha
              exact ⟨rfl, .inr (.inr ⟨rfl, trivial, rfl, rfl⟩)⟩
          | some it =>
              simp only [act] at ha
              split at ha
              · split_ifs at ha
                · cases ha
                  exact ⟨rfl, .inl ⟨rfl, rfl, fun e => absurd e (by simp), fun _ => trivial⟩⟩
                · cases ha
                  exact ⟨rfl, .inl ⟨rfl, rfl, fun e => absurd e (next_ne_pull ticks it),
                    fun _ => trivial⟩⟩
              · cases ha
                exact ⟨rfl, .inl ⟨rfl, rfl, fun e => absurd e (by simp), fun _ => trivial⟩⟩
      | _ => cases ha
  | notified err =>
      cases pc with
      | notify it =>
          cases err <;> cases ha
          · exact ⟨rfl, .inl ⟨rfl, rfl, fun e => absurd e (next_ne_pull ticks it),
              fun _ => trivial⟩⟩
          · exact ⟨rfl, .inl ⟨rfl, rfl, fun e => absurd e (by simp), False.elim⟩⟩
      | _ => cases ha

/-- The passes so far, and how far the hourglass has elapsed. -/
structure Elapsed (resolution : Int) (tr : List Event) (t : SrsHourGlass) : Prop where
  resolution_eq : t.resolution = resolution
  passes : tr.filterMap Event.passes = progression 0 resolution (tr.filterMap Event.passes).length
  pull : t.pc = .pull →
    t.totalElapse = (tr.filterMap Event.passes).length * resolution
  inside : t.pc.Inside →
    t.totalElapse + resolution = (tr.filterMap Event.passes).length * resolution

/-- **The passes are at the multiples of the resolution**, one after the other. -/
theorem elapsed_of_exec (h : exec step (new resolution mem) ls = some t) :
    Elapsed resolution (trace step obs (new resolution mem) ls) t := by
  refine trace_ind (P := Elapsed resolution) ⟨rfl, rfl, fun _ => ?_, False.elim⟩ ?_ h
  · simp [new]
  · intro tr t l t' hE hs
    obtain ⟨hr, hcase⟩ := elapse_of_step hs
    have hr' := hr.trans hE.resolution_eq
    rcases hcase with ⟨hp, ht, hpull, hin⟩ | ⟨hp, hpc, ht, hin⟩ | ⟨hp, hin, ht, hpc⟩
    · have hlist : (tr ++ t.obs l).filterMap Event.passes = tr.filterMap Event.passes := by
        rw [List.filterMap_append, hp, List.append_nil]
      refine ⟨hr', ?_, ?_, ?_⟩
      · rw [hlist]
        exact hE.passes
      · intro e
        rw [hlist, ht]
        exact hE.pull (hpull e)
      · intro e
        rw [hlist, ht]
        exact hE.inside (hin e)
    · -- a pass begins, at the time that is reached
      have hlist : (tr ++ t.obs l).filterMap Event.passes =
          tr.filterMap Event.passes ++ [t.totalElapse] := by
        rw [List.filterMap_append, hp]
      have hlen : ((tr ++ t.obs l).filterMap Event.passes).length =
          (tr.filterMap Event.passes).length + 1 := by rw [hlist, List.length_append]; rfl
      have hte := hE.pull hpc
      refine ⟨hr', ?_, ?_, ?_⟩
      · rw [hlen, progression_snoc, ← hE.passes, hlist, hte, Int.zero_add]
      · intro e
        rw [e] at hin
        exact hin.elim
      · intro _
        rw [hlen, ht, hte]
        push_cast
        ring
    · have hlist : (tr ++ t.obs l).filterMap Event.passes = tr.filterMap Event.passes := by
        rw [List.filterMap_append, hp, List.append_nil]
      refine ⟨hr', ?_, ?_, ?_⟩
      · rw [hlist]
        exact hE.passes
      · intro e
        rw [hlist, ht, hE.resolution_eq]
        exact hE.inside hin
      · rw [hpc]
        exact False.elim

/-- An interval that was accepted is a multiple of the resolution. -/
theorem dvd_of_tick {l : Label} (hr : 0 < t.resolution) (h : t.step l = some t')
    (ho : .tick event interval ∈ t.obs l) : t.resolution ∣ interval := by
  obtain ⟨⟨es, t₁⟩, ha, rfl⟩ := Option.map_eq_some_iff.mp h
  have hobs : t.obs l = es := by simp [obs, ha]
  rw [hobs] at ho
  obtain ⟨resolution, ticks, totalElapse, mem, pc⟩ := t
  cases l with
  | tick e i =>
      obtain ⟨-, ha⟩ := Option.ite_none_right_eq_some.mp ha
      simp only [tick] at ha
      split_ifs at ha with hmod
      · cases ha
        simp at ho
      · cases ha
        obtain ⟨rfl, rfl⟩ : event = e ∧ interval = i := by simpa using ho
        exact Int.dvd_of_tmod_eq_zero (not_not.mp fun hne => hmod ⟨hr, hne⟩)
  | untick e =>
      obtain ⟨-, ha⟩ := Option.ite_none_right_eq_some.mp ha
      cases ha
      simp at ho
  | pull pulled clock =>
      cases pc <;> cases pulled <;> cases ha <;> simp at ho
  | iter =>
      rcases pc with _ | _ | _ | _ | _
      case iter it =>
        cases it with
        | none =>
            cases ha
            simp at ho
        | some it =>
            simp only [act] at ha
            split at ha
            · split_ifs at ha <;> cases ha <;> simp at ho
            · cases ha
              simp at ho
      all_goals cases ha
  | notified err =>
      cases pc <;> cases err <;> cases ha <;> simp at ho

theorem dvd_of_exec (hr : 0 < resolution) (h : exec step (new resolution mem) ls = some t)
    (hm : .tick event interval ∈ trace step obs (new resolution mem) ls) :
    resolution ∣ interval := by
  refine trace_forall (I := fun t => t.resolution = resolution)
    (P := fun x => ∀ event interval, x = .tick event interval → resolution ∣ interval) rfl ?_ h _
    hm event interval rfl
  intro t l t' hI hs
  refine ⟨(elapse_of_step hs).1.trans hI, ?_⟩
  rintro x hx event interval rfl
  rw [← hI]
  exact dvd_of_tick (hI ▸ hr) hs hx

/-! ### What an hourglass notifies -/

/-- A run of the hourglass from its construction on, as a walk. -/
theorem walk_of_new (h : exec step (new resolution mem) ls = some t) :
    ∃ ks, exec (Walk.step rule) .new ks = some t.walk ∧
      trace (Walk.step rule) (Walk.obs rule) .new ks =
        (trace step obs (new resolution mem) ls).map Event.toWalk :=
  walk_of_exec h

/-- The map of a walk that showed the history `pre` has what is registered in it. -/
theorem find_eq_some_iff {ks : List (Walk.Label Int Int Int)} {s : Walk.State Int Int Int}
    (h : exec (Walk.step rule) .new ks = some s)
    (htr : trace (Walk.step rule) (Walk.obs rule) .new ks = pre.map Event.toWalk) :
    s.map.find event = some interval ↔ Registered pre event interval := by
  rw [Walk.find_eq_latest_assigns (fun _ => rfl) h, htr]
  exact latest_assigns_iff

theorem notify_sound (hi : 0 < interval) (h : exec step (new resolution mem) ls = some t)
    (e : trace step obs (new resolution mem) ls =
      pre ++ .pass now :: (mid ++ .notify event interval time :: post))
    (hmid : ∀ us, .usleep us ∉ mid) (hn : ∀ x ∈ mid, ¬ x.Changes event) :
    Registered pre event interval ∧ interval ∣ now ∧ time = now := by
  obtain ⟨ks, hks, htr⟩ := walk_of_new h
  have hw : trace (Walk.step rule) (Walk.obs rule) Walk.State.new ks =
      pre.map Event.toWalk ++ .start now ::
        (mid.map Event.toWalk ++ .call time event interval :: post.map Event.toWalk) := by
    rw [htr, e]
    simp [Event.toWalk]
  obtain rfl : time = now := Walk.call_reading hks hw (SrsDynamicTimer.finish_not_mem hmid)
  rw [← List.cons_append, ← List.append_assoc] at hw
  obtain ⟨ks₁, m, hm, htr₁, hv, -, hdue⟩ := Walk.exec_at_call hks hw
  refine ⟨?_, ?_, rfl⟩
  · -- what the map holds at the notification was ticked before the pass
    have hreg : Registered (pre ++ .pass time :: mid) event interval :=
      (find_eq_some_iff hm (by simp [htr₁, Event.toWalk])).mp hv
    exact hreg.of_append (List.forall_mem_cons.mpr ⟨id, hn⟩)
  · have hdue' : interval = 0 ∨ time.tmod interval = 0 := of_decide_eq_true hdue
    exact Int.dvd_of_tmod_eq_zero (hdue'.resolve_left hi.ne')

theorem notify_complete {us : Int} (h : exec step (new resolution mem) ls = some t)
    (e : trace step obs (new resolution mem) ls = pre ++ .pass now :: (mid ++ .usleep us :: post))
    (hmid : ∀ us, .usleep us ∉ mid) (hn : ∀ x ∈ mid, ¬ x.Changes event)
    (hreg : Registered pre event interval) (hd : interval ∣ now) :
    .notify event interval now ∈ mid := by
  obtain ⟨ks, hks, htr⟩ := walk_of_new h
  have hw : trace (Walk.step rule) (Walk.obs rule) Walk.State.new ks =
      pre.map Event.toWalk ++ .start now ::
        (mid.map Event.toWalk ++ .finish :: post.map Event.toWalk) := by
    rw [htr, e]
    simp [Event.toWalk]
  have hdue : rule.due now event interval = true :=
    decide_eq_true (.inr (Int.tmod_eq_zero_of_dvd hd))
  obtain ⟨ks₁, -, m, hm, htr₁, -, -⟩ := Walk.exec_at_start hks hw
  have hset : latest (Walk.Event.sets rule event) (pre.map Event.toWalk) = some interval := by
    rw [← htr₁, ← Walk.find_eq_latest hm]
    exact (find_eq_some_iff hm htr₁).mpr hreg
  have hcall := Walk.calls_complete hks hw (SrsDynamicTimer.finish_not_mem hmid) hset hdue
    (not_touches_toWalk hn)
  obtain ⟨x, hx, hxc⟩ := List.mem_map.mp hcall
  cases Event.toWalk_eq_call.mp hxc
  exact hx

theorem increasing (h : exec step (new resolution mem) ls = some t)
    (e : trace step obs (new resolution mem) ls = pre ++ .pass now :: (mid ++ post))
    (hmid : ∀ us, .usleep us ∉ mid) : (mid.filterMap Event.notifies).Pairwise (· < ·) := by
  obtain ⟨ks, hks, htr⟩ := walk_of_new h
  have hw : trace (Walk.step rule) (Walk.obs rule) Walk.State.new ks =
      pre.map Event.toWalk ++ .start now :: (mid.map Event.toWalk ++ post.map Event.toWalk) := by
    rw [htr, e]
    simp [Event.toWalk]
  have hs := Walk.calls_sorted hks hw (SrsDynamicTimer.finish_not_mem hmid)
  rwa [List.filterMap_map, SrsDynamicTimer.called_toWalk] at hs

theorem due_iff_dvd (hi : 0 < interval) :
    (fun t => due t interval) = fun t => decide (interval ∣ t) := by
  funext t
  refine decide_eq_decide.mpr ⟨?_, fun h => .inr (Int.tmod_eq_zero_of_dvd h)⟩
  rintro (h | h)
  · exact absurd h hi.ne'
  · exact Int.dvd_of_tmod_eq_zero h

/-- A part of a history has its passes at a progression of multiples of the resolution. -/
theorem passes_eq {seg : List Event} (h : exec step (new resolution mem) ls = some t)
    (e : trace step obs (new resolution mem) ls = pre ++ (seg ++ post)) :
    ∃ a, resolution ∣ a ∧
      seg.filterMap Event.passes =
        progression a resolution (seg.filterMap Event.passes).length := by
  have hp := (elapsed_of_exec h).passes.symm
  rw [e, List.filterMap_append, List.filterMap_append] at hp
  have hp' := (progression_eq_append (progression_eq_append hp).2.symm).1
  exact ⟨_, ⟨_, by rw [Int.zero_add, Int.mul_comm]⟩, hp'⟩

/-- The notifications of an event that stays registered are at the passes its interval divides. -/
theorem notified_eq {seg : List Event} {us first : Int}
    (h : exec step (new resolution mem) ls = some t)
    (e : trace step obs (new resolution mem) ls =
      pre ++ .pass first :: (seg ++ .usleep us :: post))
    (hreg : Registered pre event interval) (hn : ∀ x ∈ seg, ¬ x.Changes event) :
    seg.filterMap (Event.notifiedAt event) =
      (first :: seg.filterMap Event.passes).filter fun t => due t interval := by
  obtain ⟨ks, hks, htr⟩ := walk_of_new h
  have hw : trace (Walk.step rule) (Walk.obs rule) Walk.State.new ks =
      pre.map Event.toWalk ++ .start first ::
        (seg.map Event.toWalk ++ .finish :: post.map Event.toWalk) := by
    rw [htr, e]
    simp [Event.toWalk]
  obtain ⟨ks₁, ks₂, m, hm, htr₁, h₂, htr₂⟩ := Walk.exec_at_start hks hw
  obtain ⟨ks₃, l, -, ⟨m₁, p₁⟩, s₂, rfl, h₃, hl, -, htr₃, ho, -⟩ :=
    exec_at_event (Walk.obs_length_le rule) h₂ htr₂
  have hfind : m.find event = some interval := (find_eq_some_iff hm htr₁).mpr hreg
  -- the pass that ends has come to the end of the map, so nothing is pending
  have hhead : ∃ g, p₁ = .head g none := by
    have hmove := Walk.move_of_step hl
    rw [ho] at hmove
    generalize s₂.map = n, s₂.pos = p₂ at hmove
    cases hmove with
    | finish g => exact ⟨g, rfl⟩
  obtain ⟨g, rfl⟩ := hhead
  have hleft : ∀ x ∈ trace (Walk.step rule) (Walk.obs rule) ⟨m, .head first m.first⟩ ks₃,
      ¬ x.Touches event := by
    rw [htr₃]
    exact not_touches_toWalk hn
  have hv := Walk.visits_eq hfind rfl h₃ hleft (by simp) (by simp)
  rw [Walk.pending_first hfind, htr₃, List.filterMap_map, List.filterMap_map, starts_toWalk,
    visits_toWalk] at hv
  simpa [Walk.Pos.pending, rule] using hv.symm

theorem every {seg : List Event} {us first last : Int} (hr : 0 < resolution)
    (h : exec step (new resolution mem) ls = some t)
    (e : trace step obs (new resolution mem) ls = pre ++ (seg ++ .usleep us :: post))
    (hfirst : seg.head? = some (.pass first)) (hlast : InPass seg last)
    (hreg : Registered pre event interval) (hn : ∀ x ∈ seg, ¬ x.Changes event)
    (hi : 0 < interval) :
    (seg.filterMap (Event.notifiedAt event)).count time =
      if first ≤ time ∧ time ≤ last ∧ interval ∣ time then 1 else 0 := by
  have hri : resolution ∣ interval := by
    obtain ⟨p, q, rfl, -⟩ := hreg
    refine dvd_of_exec hr h (show Event.tick event interval ∈ _ from ?_)
    rw [e]
    simp
  obtain ⟨a, hra, hpasses⟩ := passes_eq h e
  obtain ⟨seg, rfl⟩ : ∃ seg', seg = .pass first :: seg' := by
    cases seg with
    | nil => cases hfirst
    | cons x seg =>
        cases hfirst
        exact ⟨seg, rfl⟩
  have hnotified : (Event.pass first :: seg).filterMap (Event.notifiedAt event) =
      ((Event.pass first :: seg).filterMap Event.passes).filter fun t => due t interval :=
    notified_eq h e hreg fun x hx => hn x (List.mem_cons_of_mem _ hx)
  obtain ⟨p, q, hpq, hq⟩ := hlast
  have hend : (Event.pass first :: seg).filterMap Event.passes =
      p.filterMap Event.passes ++ [last] := by
    have hnil : q.filterMap Event.passes = [] := by
      refine List.filterMap_eq_nil_iff.mpr fun x hx => ?_
      cases x with
      | pass now => exact absurd rfl ((hq _ hx).1 now)
      | _ => rfl
    rw [hpq, List.filterMap_append, List.filterMap_cons, hnil]
    rfl
  -- the passes begin at `first` and end at `last`
  have hbegin : (Event.pass first :: seg).filterMap Event.passes =
      first :: seg.filterMap Event.passes := rfl
  rw [hnotified, hpasses, due_iff_dvd hi]
  have hlen : ((Event.pass first :: seg).filterMap Event.passes).length =
      (p.filterMap Event.passes).length + 1 := by
    rw [hend, List.length_append]
    rfl
  rw [hlen] at hpasses ⊢
  obtain rfl : a = first := by
    rw [hbegin, progression_succ] at hpasses
    exact (List.cons_eq_cons.mp hpasses).1.symm
  obtain rfl : last = a + (p.filterMap Event.passes).length * resolution := by
    rw [hend, progression_snoc] at hpasses
    exact List.singleton_inj.mp (List.append_inj_right' hpasses rfl)
  rw [((nodup_progression hr _).filter _).count]
  refine if_congr ?_ rfl rfl
  rw [List.mem_filter, mem_progression_succ hr, decide_eq_true_iff]
  constructor
  · rintro ⟨⟨hle, hlt, -⟩, hd⟩
    exact ⟨hle, hlt, hd⟩
  · rintro ⟨hle, hlt, hd⟩
    exact ⟨⟨hle, hlt, Int.dvd_sub (Int.dvd_trans hri hd) hra⟩, hd⟩

/-- **The schedule of an hourglass**, in every run: `tick` and `untick` are called in any order,
between passes and, for other events, inside `notify`.  A pass goes on to its end, unless a
handler fails or unticks its own event (`pass_ends`). -/
theorem schedule (hr : 0 < resolution) (h : exec step (new resolution mem) ls = some t) :
    Schedule (trace step obs (new resolution mem) ls) where
  notified pre mid post now us event interval time e hmid hn hi := by
    constructor
    · intro hx
      obtain ⟨mid₁, mid₂, rfl⟩ := List.append_of_mem hx
      have e' : trace step obs (new resolution mem) ls = pre ++ .pass now ::
          (mid₁ ++ .notify event interval time :: (mid₂ ++ .usleep us :: post)) := by simp [e]
      exact notify_sound hi h e' (fun us hu => hmid us (List.mem_append_left _ hu))
        fun x hx => hn x (List.mem_append_left _ hx)
    · rintro ⟨hreg, hd, rfl⟩
      exact notify_complete h e hmid hn hreg hd
  increasing _ _ _ _ e hmid := increasing h e hmid
  every _ _ _ _ _ _ _ _ _ e hfirst hlast hreg hn hi := every hr h e hfirst hlast hreg hn hi

/-- The schedule of three events: a pass, and the next one after the second event was unticked. -/
theorem schedule_three :
    Schedule [.tick 1 3, .tick 2 6, .tick 3 9, .pass 0, .notify 1 3 0, .notified none,
      .notify 2 6 0, .notified none, .notify 3 9 0, .notified none, .usleep 3, .untick 2, .pass 3,
      .notify 1 3 3, .notified none, .usleep 3] := by
  have h : Schedule (trace step obs (new 3 0) [.tick 1 3, .tick 2 6, .tick 3 9, .tick 4 5,
    .pull none 0, .iter, .notified none, .iter, .notified none, .iter, .notified none, .iter,
    .untick 2, .pull none 0, .iter, .notified none, .iter, .iter]) := schedule (by decide) rfl
  exact h

/-! ### The first notification -/

/-- The first of the multiples of `i` among passes, and the distance between them. -/
theorem first_of_initial {r i a n : Int} {ns : List Int} {k : Nat} (hr : 0 < r) (hri : r ∣ i)
    (hi : 0 < i) (ha : r ∣ a)
    (h : (n :: ns) <+: (progression a r k).filter fun t => decide (i ∣ t)) :
    n = nextMultiple i a ∧ (n :: ns).IsChain fun x y => y = x + i := by
  obtain ⟨m, hm⟩ := filter_dvd_progression hr hri hi k ha
  rw [hm] at h
  refine ⟨?_, List.IsChain.prefix (isChain_progression m _) h⟩
  cases m with
  | zero => simp [progression] at h
  | succ m =>
      rw [progression_succ] at h
      exact (List.cons_prefix_cons.mp h).1

/-- The first multiple from `a` on is less than a whole `i` away. -/
theorem not_le_of_initial {r i a n : Int} {ns : List Int} {k : Nat} (hr : 0 < r) (hri : r ∣ i)
    (hi : 0 < i) (ha : r ∣ a)
    (h : (n :: ns) <+: (progression a r k).filter fun t => decide (i ∣ t)) : ¬ a + i ≤ n := by
  rw [(first_of_initial hr hri hi ha h).1, not_le]
  exact nextMultiple_lt hi

/-- The event is ticked from inside a pass, by the handler of an event that is not before it. -/
def TickedBehind (t : SrsHourGlass) (event : Int) : Prop :=
  ∃ it, t.pc = .notify it ∧ event ≤ it.key

theorem of_act_tick {s s₁ : SrsHourGlass} (hr : 0 < s.resolution)
    (h : s.act (.tick event interval) = some ([.tick event interval], s₁)) :
    s.pc.yields = true ∧ s₁ = { s with ticks := s.ticks.set event interval } ∧
      s.resolution ∣ interval := by
  obtain ⟨hy, h⟩ := Option.ite_none_right_eq_some.mp h
  simp only [tick] at h
  split_ifs at h with hmod
  · cases h
  · cases h
    exact ⟨hy, rfl, Int.dvd_of_tmod_eq_zero (not_not.mp fun hne => hmod ⟨hr, hne⟩)⟩

/-- What the run behind a `tick` notifies, while the event is left alone: passes that the interval
divides, from the pass under way on if the iterator has still to come to the event. -/
theorem notified_behind {s s₁ : SrsHourGlass} {ks : List Label}
    (h : exec step (new resolution mem) ls = some s)
    (htick : s.act (.tick event interval) = some ([.tick event interval], s₁))
    (hr : 0 < s.resolution) (hi : 0 < interval) (hks : exec step s₁ ks = some t)
    (hn : ∀ x ∈ trace step obs s₁ ks, ¬ x.Changes event) :
    (trace step obs s₁ ks).filterMap (Event.notifiedAt event) <+:
      (s₁.walk.pos.pending event ++ progression
        (((trace step obs (new resolution mem) ls).filterMap Event.passes).length * resolution)
          resolution ((trace step obs s₁ ks).filterMap Event.passes).length).filter
        fun t => decide (interval ∣ t) := by
  have hfind : s₁.walk.map.find event = some interval := by
    rw [(of_act_tick hr htick).2.1]
    exact NodeMap.find_set
  obtain ⟨js, hjs, htr⟩ := walk_of_exec hks
  have hleft : ∀ x ∈ trace (Walk.step rule) (Walk.obs rule) s₁.walk js, ¬ x.Touches event := by
    rw [htr]
    exact not_touches_toWalk hn
  have hv := Walk.visits_initial hfind rfl hjs hleft
  rw [htr, List.filterMap_map, List.filterMap_map, starts_toWalk, visits_toWalk] at hv
  -- the passes go on where those before the `tick` ended
  have hstep : step s (.tick event interval) = some s₁ := congrArg (Option.map Prod.snd) htick
  have hall := exec_append.mpr ⟨s, h, exec_cons.mpr ⟨_, hstep, hks⟩⟩
  have hpasses := (elapsed_of_exec hall).passes.symm
  rw [trace_append h, List.filterMap_append] at hpasses
  have hrest := (progression_eq_append hpasses).2
  have hcons : (trace step obs s (.tick event interval :: ks)).filterMap Event.passes =
      (trace step obs s₁ ks).filterMap Event.passes := by
    simp only [trace, obs, htick, hstep, Option.map_some, Option.getD_some]
    rfl
  rw [hcons, Int.zero_add] at hrest
  rw [← hrest, ← due_iff_dvd hi]
  exact hv

/-- An hourglass whose `cycle` is over makes no pass. -/
theorem passes_of_returned {s : SrsHourGlass} {ks : List Label} {err : SrsError}
    (hpc : s.pc = .returned err) (hks : exec step s ks = some t) :
    (trace step obs s ks).filterMap Event.passes = [] := by
  obtain ⟨js, hjs, htr⟩ := walk_of_exec hks
  have hw : s.walk = ⟨s.ticks, .stopped⟩ := by rw [walk, hpc, Pc.toPos]
  rw [hw] at hjs htr
  have hs := Walk.starts_of_stopped hjs
  rwa [htr, List.filterMap_map, starts_toWalk] at hs

/-- **The first notification after a `tick`.**  Whatever the run, an event that is ticked, and
notified before it is changed, is notified first when its interval has elapsed, if and only if its
interval divides the time of the pass it was ticked in, behind the iterator.  Each notification
comes an interval after the one before it. -/
theorem first_notify_iff {s s₁ : SrsHourGlass} {ks : List Label} {n : Int} {ns : List Int}
    (hr : 0 < resolution) (h : exec step (new resolution mem) ls = some s)
    (htick : s.act (.tick event interval) = some ([.tick event interval], s₁)) (hi : 0 < interval)
    (hks : exec step s₁ ks = some t) (hn : ∀ x ∈ trace step obs s₁ ks, ¬ x.Changes event)
    (hns : (trace step obs s₁ ks).filterMap (Event.notifiedAt event) = n :: ns) :
    (s.totalElapse + interval ≤ n ∧ (n :: ns).IsChain fun x y => y = x + interval) ↔
      interval ∣ s.totalElapse ∧ s.TickedBehind event := by
  have hE := elapsed_of_exec h
  obtain rfl := hE.resolution_eq
  obtain ⟨hy, hs₁, hri⟩ := of_act_tick hr htick
  have hk := notified_behind h htick hr hi hks hn
  have hreturned : ∀ err, s₁.pc = .returned err →
      (trace step obs s₁ ks).filterMap Event.passes = [] := fun _ e => passes_of_returned e hks
  have hpos : s₁.walk.pos = s.pc.toPos s.totalElapse := by rw [hs₁, walk]
  rw [hns, hpos] at hk
  generalize (trace step obs s₁ ks).filterMap Event.passes = ps at *
  have hpull := hE.pull
  have hin := hE.inside
  generalize ((trace step obs (new s.resolution mem) ls).filterMap Event.passes).length = p at *
  have hdvd : s.resolution ∣ (p : Int) * s.resolution := ⟨p, Int.mul_comm _ _⟩
  cases hpc : s.pc with
  | pull =>
      have hte := hpull hpc
      have hk' : (n :: ns) <+: (progression s.totalElapse s.resolution ps.length).filter
          fun t => decide (interval ∣ t) := by
        rw [hte]
        simpa [hpc, Pc.toPos, Walk.Pos.pending] using hk
      refine iff_of_false (fun hl => not_le_of_initial hr hri hi (hte ▸ hdvd) hk' hl.1) ?_
      rintro ⟨-, it, hit, -⟩
      rw [hpc] at hit
      cases hit
  | notify it =>
      have hte : s.totalElapse + s.resolution = p * s.resolution := hin (by rw [hpc]; trivial)
      have hd : s.resolution ∣ s.totalElapse := by
        have := Int.dvd_sub hdvd (Int.dvd_refl s.resolution)
        rwa [← hte, Int.add_sub_cancel] at this
      by_cases hkey : it.key < event
      · -- the pass under way has still to come to the event
        have hk' : (n :: ns) <+: (progression s.totalElapse s.resolution (ps.length + 1)).filter
            fun t => decide (interval ∣ t) := by
          rw [progression_succ, hte]
          simpa [hpc, Pc.toPos, Walk.Pos.pending, hkey] using hk
        refine iff_of_false (fun hl => not_le_of_initial hr hri hi hd hk' hl.1) ?_
        rintro ⟨-, c, hc, hle⟩
        rw [hpc] at hc
        cases hc
        exact absurd hkey (not_lt.mpr hle)
      · have hk' : (n :: ns) <+:
            (progression (s.totalElapse + s.resolution) s.resolution ps.length).filter
            fun t => decide (interval ∣ t) := by
          rw [hte]
          simpa [hpc, Pc.toPos, Walk.Pos.pending, hkey] using hk
        obtain ⟨hfirst, hchain⟩ := first_of_initial hr hri hi (hte ▸ hdvd) hk'
        -- the pass under way has come to the event, so the next multiple is behind this time
        rw [and_iff_left hchain, hfirst, and_iff_left ⟨it, hpc, not_lt.mp hkey⟩]
        exact le_nextMultiple_add_iff hr hri hi hd
  | returned err =>
      rw [hreturned err (by rw [hs₁]; exact hpc)] at hk
      simp [hpc, Pc.toPos, Walk.Pos.pending, progression] at hk
  | iter | lost =>
      rw [hpc] at hy
      exact absurd hy Bool.false_ne_true

/-- An event that is ticked again while it is notified, at a multiple of its interval. -/
theorem first_notify_iff_again :
    3 ∣ (0 : Int) ∧ TickedBehind ⟨3, NodeMap.empty.set 1 3, 0, 0, .notify ⟨1, 0⟩⟩ 1 := by
  have h : exec step (new 3 0) [.tick 1 3, .pull none 0, .iter] =
      some ⟨3, NodeMap.empty.set 1 3, 0, 0, .notify ⟨1, 0⟩⟩ := rfl
  have hks : exec step ⟨3, (NodeMap.empty.set 1 3).set 1 3, 0, 0, .notify ⟨1, 0⟩⟩
      [.notified none, .iter, .pull none 0, .iter, .notified none, .iter, .pull none 0, .iter] =
        some ⟨3, (NodeMap.empty.set 1 3).set 1 3, 6, 0, .notify ⟨1, 0⟩⟩ := rfl
  have htr : trace step obs ⟨3, (NodeMap.empty.set 1 3).set 1 3, 0, 0, .notify ⟨1, 0⟩⟩
      [.notified none, .iter, .pull none 0, .iter, .notified none, .iter, .pull none 0, .iter] =
        [.notified none, .usleep 3, .pass 3, .notify 1 3 3, .notified none, .usleep 3, .pass 6,
          .notify 1 3 6] := rfl
  have hn : ∀ x ∈ trace step obs ⟨3, (NodeMap.empty.set 1 3).set 1 3, 0, 0, .notify ⟨1, 0⟩⟩
      [.notified none, .iter, .pull none 0, .iter, .notified none, .iter, .pull none 0, .iter],
      ¬ x.Changes 1 := by
    rw [htr]
    simp [Event.Changes]
  have hns : [(3 : Int), 6].IsChain fun x y => y = x + 3 := by simp
  exact (first_notify_iff (by decide) h rfl (by decide) hks hn rfl).mp ⟨by decide, hns⟩

/-- An event of interval 3 that was registered at the beginning is notified at time 0. -/
theorem notify_at_zero :
    ¬ ∀ (resolution event interval n : Int) (mem : Nat) (ls ks : List Label)
      (s s₁ t : SrsHourGlass) (ns : List Int), 0 < resolution →
      exec step (new resolution mem) ls = some s →
      s.act (.tick event interval) = some ([.tick event interval], s₁) → 0 < interval →
      exec step s₁ ks = some t → (∀ x ∈ trace step obs s₁ ks, ¬ x.Changes event) →
      (trace step obs s₁ ks).filterMap (Event.notifiedAt event) = n :: ns →
      s.totalElapse + interval ≤ n ∧ (n :: ns).IsChain fun x y => y = x + interval := by
  intro H
  have htr : trace step obs ⟨1, NodeMap.empty.set 1 3, 0, 0, .pull⟩ [.pull none 0, .iter] =
      [.pass 0, .notify 1 3 0] := rfl
  have hn : ∀ x ∈ trace step obs ⟨1, NodeMap.empty.set 1 3, 0, 0, .pull⟩ [.pull none 0, .iter],
      ¬ x.Changes 1 := by
    rw [htr]
    simp [Event.Changes]
  have h := (H 1 1 3 0 0 [] [.pull none 0, .iter] (new 1 0) _ _ [] (by decide) rfl rfl (by decide)
    rfl hn rfl).1
  exact absurd h (by decide)

end SrsHourGlass

end StCoroutine.Hourglass
