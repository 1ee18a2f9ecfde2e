import StCoroutine.Hourglass.Walk

/-!
# Hourglass — what a dynamic timer fires

The events of a `SrsDynamicTimer` from its construction on, with `tick` and `untick` called between
passes and by the handler, and any readings of the clock.  `fires`: every notification is for the
deadline last set, which is positive and has come; it uses the deadline up, also when the handler
ticks the event again; and a pass notifies, in increasing order, exactly once every event that had
expired when it began and was left alone.
-/

set_option autoImplicit false

namespace StCoroutine.Hourglass
open Lts

/-! ### Reading a history -/

/-- The event sets, removes or uses up the deadline of `event`. -/
def Event.Touches (event : Int) : Event → Prop
  | tick e _ | untick e | notify e _ _ => e = event
  | pass _ | notified _ | usleep _ | quit => False

/-- The event of a notification. -/
def Event.notifies : Event → Option Int
  | notify e _ _ => some e
  | tick .. | untick _ | pass _ | notified _ | usleep _ | quit => none

/-- `event` has the deadline `time`: it was ticked so, and not touched since. -/
def Armed (tr : List Event) (event time : Int) : Prop :=
  ∃ pre post : List Event, tr = pre ++ .tick event time :: post ∧ ∀ x ∈ post, ¬ x.Touches event

/-- The pass under way has the reading `now`. -/
def InPass (tr : List Event) (now : Int) : Prop :=
  ∃ pre post : List Event, tr = pre ++ .pass now :: post ∧
    ∀ x ∈ post, (∀ n, x ≠ .pass n) ∧ ∀ us, x ≠ .usleep us

/-- What the history of a dynamic timer is like. -/
structure Fires (tr : List Event) : Prop where
  /-- A notification is for the deadline last set, positive and not after the reading. -/
  armed : ∀ (pre post : List Event) (event time now : Int),
    tr = pre ++ .notify event time now :: post →
    Armed pre event time ∧ InPass pre now ∧ 0 < time ∧ time ≤ now
  /-- After an `untick` or a notification, the next notification comes after another `tick`. -/
  spent : ∀ (pre mid post : List Event) (x : Event) (event time now : Int),
    tr = pre ++ x :: (mid ++ .notify event time now :: post) →
    x = .untick event ∨ x.notifies = some event → ∃ t, .tick event t ∈ mid
  /-- A `tick` leads to at most one notification before the next `tick` of the event. -/
  once : ∀ (pre mid post : List Event) (event time : Int),
    tr = pre ++ .tick event time :: (mid ++ post) → (∀ t, .tick event t ∉ mid) →
    (mid.countP fun x => x.notifies = some event) ≤ 1
  /-- A pass notifies in increasing order. -/
  increasing : ∀ (pre mid post : List Event) (now : Int),
    tr = pre ++ .pass now :: (mid ++ post) → (∀ us, .usleep us ∉ mid) →
    (mid.filterMap Event.notifies).Pairwise (· < ·)
  /-- A pass that ends has notified what had expired at its start and was not touched, once. -/
  all : ∀ (pre mid post : List Event) (now us event time : Int),
    tr = pre ++ .pass now :: (mid ++ .usleep us :: post) → (∀ us, .usleep us ∉ mid) →
    Armed pre event time → 0 < time → time ≤ now →
    (∀ t, .tick event t ∉ mid) → .untick event ∉ mid →
    .notify event time now ∈ mid ∧ (mid.countP fun x => x.notifies = some event) = 1

section history

variable {tr pre mid : List Event} {x : Event} {event time now : Int}

theorem sets_eq_none_iff :
    Walk.Event.sets SrsDynamicTimer.rule event x.toWalk = none ↔ ¬ x.Touches event := by
  rcases x with _ | _ | _ | _ | (_ | _) | _ | _ <;>
    simp [Event.toWalk, Walk.Event.sets, Event.Touches]

theorem sets_eq_some_iff (ht : 0 < time) :
    Walk.Event.sets SrsDynamicTimer.rule event x.toWalk = some (some time) ↔
      x = .tick event time := by
  have hmark : (-1 : Int) ≠ time := by omega
  rcases x with _ | _ | _ | _ | (_ | _) | _ | _ <;>
    simp [Event.toWalk, Walk.Event.sets, SrsDynamicTimer.rule, hmark]

/-- What the map says of a positive deadline is what the history says. -/
theorem latest_sets_iff (ht : 0 < time) :
    latest (Walk.Event.sets SrsDynamicTimer.rule event) (tr.map Event.toWalk) = some time ↔
      Armed tr event time := by
  rw [latest_map, latest_eq_some]
  simp only [sets_eq_some_iff ht, sets_eq_none_iff]
  constructor
  · rintro ⟨p, k, q, e, rfl, hq⟩
    exact ⟨p, q, e, hq⟩
  · rintro ⟨p, q, e, hq⟩
    exact ⟨p, _, q, e, rfl, hq⟩

theorem reads_eq_some_iff : Walk.Event.reads x.toWalk = some (some now) ↔ x = .pass now := by
  rcases x with _ | _ | _ | _ | (_ | _) | _ | _ <;> simp [Event.toWalk, Walk.Event.reads]

theorem reads_eq_none_iff : Walk.Event.reads x.toWalk = none ↔
    (∀ n, x ≠ .pass n) ∧ ∀ us, x ≠ .usleep us := by
  rcases x with _ | _ | _ | _ | (_ | _) | _ | _ <;> simp [Event.toWalk, Walk.Event.reads]

theorem inPass_of_latest (h : latest Walk.Event.reads (tr.map Event.toWalk) = some now) :
    InPass tr now := by
  rw [latest_map, latest_eq_some] at h
  simp only [reads_eq_some_iff, reads_eq_none_iff] at h
  obtain ⟨p, k, q, e, rfl, hq⟩ := h
  exact ⟨p, q, e, hq⟩

/-- A deadline that is set after an event that touches it was set after that. -/
theorem Armed.tick_mem (h : Armed (pre ++ x :: mid) event time) (hx : x.Touches event)
    (hn : x ≠ .tick event time) : .tick event time ∈ mid := by
  obtain ⟨p, q, e, hq⟩ := h
  rcases List.append_eq_append_iff.mp e with ⟨t, rfl, e'⟩ | ⟨t, rfl, e'⟩
  · cases t with
    | nil => exact absurd (List.cons_eq_cons.mp e').1 hn
    | cons y t =>
        rw [(List.cons_eq_cons.mp e').2]
        exact List.mem_append_right _ (by simp)
  · cases t with
    | nil => exact absurd (List.cons_eq_cons.mp e').1.symm hn
    | cons y t =>
        rw [(List.cons_eq_cons.mp e').2] at hq
        exact absurd hx (hq x (by simp))

end history

/-! ### The runs of a dynamic timer -/

namespace SrsDynamicTimer

variable {resolution : Int} {mem : Nat} {ls : List Label} {t : SrsDynamicTimer}
  {pre mid post : List Event} {event time now : Int}

theorem notify_sound (h : exec step (new resolution mem) ls = some t)
    (e : trace step obs (new resolution mem) ls = pre ++ .notify event time now :: post) :
    Armed pre event time ∧ InPass pre now ∧ 0 < time ∧ time ≤ now := by
  obtain ⟨ks, hks, htr⟩ := walk_of_exec h
  have hw : trace (Walk.step rule) (Walk.obs rule) (new resolution mem).walk ks =
      pre.map Event.toWalk ++ .call now event time :: post.map Event.toWalk := by
    rw [htr, e]
    simp [Event.toWalk]
  obtain ⟨hset, hread, hdue⟩ := Walk.call_sound hks hw
  have hdue' : 0 < time ∧ time ≤ now := of_decide_eq_true hdue
  exact ⟨(latest_sets_iff hdue'.1).mp hset, inPass_of_latest hread, hdue'⟩

theorem spent (h : exec step (new resolution mem) ls = some t) {x : Event}
    (e : trace step obs (new resolution mem) ls =
      pre ++ x :: (mid ++ .notify event time now :: post))
    (hx : x = .untick event ∨ x.notifies = some event) : .tick event time ∈ mid := by
  rw [← List.cons_append, ← List.append_assoc] at e
  refine (notify_sound h e).1.tick_mem ?_ ?_
  · rcases hx with rfl | hx
    · rfl
    · cases x <;> simp_all [Event.notifies, Event.Touches]
  · rintro rfl
    simp [Event.notifies] at hx

/-- The pass of the walk. -/
theorem finish_not_mem (hmid : ∀ us, .usleep us ∉ mid) : .finish ∉ mid.map Event.toWalk := by
  intro hf
  obtain ⟨x, hx, hxf⟩ := List.mem_map.mp hf
  obtain ⟨us, rfl⟩ := Event.toWalk_eq_finish.mp hxf
  exact hmid us hx

theorem called_toWalk : Walk.Event.called ∘ Event.toWalk = Event.notifies := by
  funext x
  rcases x with _ | _ | _ | _ | (_ | _) | _ | _ <;> rfl

theorem increasing (h : exec step (new resolution mem) ls = some t)
    (e : trace step obs (new resolution mem) ls = pre ++ .pass now :: (mid ++ post))
    (hmid : ∀ us, .usleep us ∉ mid) : (mid.filterMap Event.notifies).Pairwise (· < ·) := by
  obtain ⟨ks, hks, htr⟩ := walk_of_exec h
  have hw : trace (Walk.step rule) (Walk.obs rule) (new resolution mem).walk ks =
      pre.map Event.toWalk ++ .start now :: (mid.map Event.toWalk ++ post.map Event.toWalk) := by
    rw [htr, e]
    simp [Event.toWalk]
  have hs := Walk.calls_sorted hks hw (finish_not_mem hmid)
  rwa [List.filterMap_map, called_toWalk] at hs

theorem once (h : exec step (new resolution mem) ls = some t)
    (e : trace step obs (new resolution mem) ls = pre ++ .tick event time :: (mid ++ post))
    (hmid : ∀ t, .tick event t ∉ mid) :
    (mid.countP fun x => x.notifies = some event) ≤ 1 := by
  refine countP_le_one fun h₁ d h₂ x h₃ hm hd hx => ?_
  subst hm
  have hx' := of_decide_eq_true hx
  cases x with
  | notify j t n =>
      obtain rfl : j = event := by simpa [Event.notifies] using hx'
      have e' : trace step obs (new resolution mem) ls = (pre ++ .tick j time :: h₁) ++
          d :: (h₂ ++ .notify j t n :: (h₃ ++ post)) := by simp [e]
      exact hmid t (by simp [spent h e' (.inr (of_decide_eq_true hd))])
  | _ => exact nomatch hx'

theorem all (h : exec step (new resolution mem) ls = some t) {us : Int}
    (e : trace step obs (new resolution mem) ls = pre ++ .pass now :: (mid ++ .usleep us :: post))
    (hmid : ∀ us, .usleep us ∉ mid) (ha : Armed pre event time) (hpos : 0 < time)
    (hle : time ≤ now) (htick : ∀ t, .tick event t ∉ mid) (huntick : .untick event ∉ mid) :
    .notify event time now ∈ mid ∧ (mid.countP fun x => x.notifies = some event) = 1 := by
  obtain ⟨ks, hks, htr⟩ := walk_of_exec h
  have hw : trace (Walk.step rule) (Walk.obs rule) (new resolution mem).walk ks =
      pre.map Event.toWalk ++ .start now ::
        (mid.map Event.toWalk ++ .finish :: post.map Event.toWalk) := by
    rw [htr, e]
    simp [Event.toWalk]
  have hdue : rule.due now event time = true := decide_eq_true ⟨hpos, hle⟩
  have hleft : ∀ e ∈ mid.map Event.toWalk, ¬ e.Touches event := by
    intro y hy
    obtain ⟨x, hx, rfl⟩ := List.mem_map.mp hy
    rintro ht
    rcases Event.touches_toWalk.mp ht with ⟨t, rfl⟩ | rfl
    · exact htick t hx
    · exact huntick hx
  have hcall := Walk.calls_complete hks hw (finish_not_mem hmid) ((latest_sets_iff hpos).mpr ha)
    hdue hleft
  obtain ⟨x, hx, hxc⟩ := List.mem_map.mp hcall
  cases Event.toWalk_eq_call.mp hxc
  refine ⟨hx, le_antisymm ?_ ?_⟩
  · -- the `tick` that set the deadline leads to no other notification
    obtain ⟨p, q, rfl, hq⟩ := ha
    have e' : trace step obs (new resolution mem) ls = p ++ .tick event time ::
        ((q ++ .pass now :: mid) ++ .usleep us :: post) := by simp [e]
    have hone := once h e' fun t ht => by
      rcases List.mem_append.mp ht with ht | ht
      · exact hq _ ht rfl
      · exact htick t (by simpa using ht)
    rw [List.countP_append, List.countP_cons] at hone
    omega
  · exact List.countP_pos_iff.mpr ⟨_, hx, decide_eq_true rfl⟩

/-- **What a dynamic timer fires**, in every run: `tick` and `untick` are called in any order
between passes and inside `notify`, whatever the clock says at each pass.  A pass goes on to
its end, unless a handler fails or unticks its own event (`pass_ends`). -/
theorem fires (h : exec step (new resolution mem) ls = some t) :
    Fires (trace step obs (new resolution mem) ls) where
  armed _ _ _ _ _ e := notify_sound h e
  spent _ _ _ _ _ time _ e hx := ⟨time, spent h e hx⟩
  once _ _ _ _ _ e hmid := once h e hmid
  increasing _ _ _ _ e hmid := increasing h e hmid
  all _ _ _ _ _ _ _ e hmid ha hpos hle htick huntick := all h e hmid ha hpos hle htick huntick

/-- Two passes, with a handler that ticks its own event again, and events before and after it. -/
theorem fires_rearmed :
    Fires [.tick 3 5, .tick 4 7, .pass 6, .notify 3 5 6, .tick 3 8, .tick 1 2, .notified none,
      .usleep 10, .pass 9, .notify 1 2 9, .untick 4, .notified none, .notify 3 8 9,
      .notified none, .usleep 10] := by
  have h : Fires (trace step obs (new 10 0) [.tick 3 5, .tick 4 7, .pull none 6, .iter, .tick 3 8,
    .tick 1 2, .notified none, .iter, .iter, .pull none 9, .iter, .untick 4, .notified none, .iter,
    .notified none, .iter]) := fires rfl
  exact h

end SrsDynamicTimer

end StCoroutine.Hourglass
