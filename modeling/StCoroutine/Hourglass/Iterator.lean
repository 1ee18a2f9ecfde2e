import StCoroutine.Hourglass.Walk

/-!
# Hourglass — the iterator over `ticks`

`cycle` holds an iterator of `ticks` while the handler runs, and steps from it when `notify`
returns success.  `entry_present_iff`: the entry is there whenever the iterator is used, exactly
when no handler that returned success has unticked the event it was called for; ticking the event
again does not help, since that makes another entry.  `pass_ends`: otherwise every pass goes on to
its end, when the handlers that it still calls return success.
-/

set_option autoImplicit false

namespace StCoroutine.Hourglass
open Kernel Lts

/-- While `notify` ran, which then returned success, the event it was called for was unticked. -/
def UnticksCurrent (tr : List Event) : Prop :=
  ∃ (pre mid post : List Event) (event time now : Int),
    tr = pre ++ .notify event time now :: (mid ++ .notified none :: post) ∧
      (∀ x ∈ mid, x.IsCall) ∧ .untick event ∈ mid

/-- The entry at the iterator is in `ticks`, if the step that shows `es` steps from it. -/
def EntryPresent (ticks : NodeMap Int Int) : Pc → List Event → Prop
  | .iter (some it), _ | .notify it, [.notified none] => ticks.Valid it
  | _, _ => True

/-! ### The iterator of the walk -/

theorem erasesCurrent_map_iff {tr : List Event} :
    Walk.ErasesCurrent (tr.map Event.toWalk) ↔ UnticksCurrent tr := by
  constructor
  · rintro ⟨pre, mid, post, now, event, time, e, hmid, hk⟩
    obtain ⟨pre, tr₁, rfl, rfl, e₁⟩ := List.map_eq_append_iff.mp e
    obtain ⟨c, tr₂, rfl, hc, e₂⟩ := List.map_eq_cons_iff.mp e₁
    obtain ⟨mid, tr₃, rfl, rfl, e₃⟩ := List.map_eq_append_iff.mp e₂
    obtain ⟨b, post, rfl, hb, rfl⟩ := List.map_eq_cons_iff.mp e₃
    obtain ⟨x, hx, hxk⟩ := List.mem_map.mp hk
    cases Event.toWalk_eq_call.mp hc
    cases Event.toWalk_eq_back.mp hb
    cases Event.toWalk_eq_erase.mp hxk
    refine ⟨pre, mid, post, event, time, now, rfl, fun y hy => ?_, hx⟩
    exact Event.isEdit_toWalk.mp (hmid _ (List.mem_map_of_mem hy))
  · rintro ⟨pre, mid, post, event, time, now, rfl, hmid, hk⟩
    refine ⟨pre.map Event.toWalk, mid.map Event.toWalk, post.map Event.toWalk, now, event, time,
      ?_, ?_, ?_⟩
    · simp only [List.map_append, List.map_cons, Event.toWalk]
    · intro y hy
      obtain ⟨x, hx, rfl⟩ := List.mem_map.mp hy
      exact Event.isEdit_toWalk.mpr (hmid x hx)
    · exact List.mem_map.mpr ⟨_, hk, rfl⟩

theorem toPos_eq_lost (now : Int) {pc : Pc} : pc.toPos now = .lost ↔ pc = .lost := by
  cases pc <;> simp [Pc.toPos]

theorem eq_iter_of_toPos {now g : Int} {pc : Pc} {it : Option (Cursor Int)}
    (h : pc.toPos now = .head g it) : pc = .iter it := by
  cases pc <;> cases h
  rfl

theorem eq_notify_of_toPos {now g : Int} {pc : Pc} {it : Cursor Int}
    (h : pc.toPos now = .calling g it) : pc = .notify it := by
  cases pc <;> cases h
  rfl

theorem eq_pull_of_toPos {now : Int} {pc : Pc} (h : pc.toPos now = .idle) : pc = .pull := by
  cases pc <;> cases h
  rfl

theorem entryPresent_iff {ticks : NodeMap Int Int} {pc : Pc} {es : List Event} (now : Int) :
    EntryPresent ticks pc es ↔ Walk.Present ticks (pc.toPos now) (es.map Event.toWalk) := by
  cases pc with
  | iter it => cases it <;> rfl
  | notify it =>
      rcases es with _ | ⟨_ | _ | _ | _ | (_ | _) | _ | _, _ | _⟩ <;> rfl
  | pull | lost | returned => rfl

namespace SrsHourGlass

variable {t t' : SrsHourGlass}

/-- `cycle` is lost by the steps from an entry that is gone, and ends there. -/
theorem lost_iff_of_step {l : Label} (h : t.step l = some t') :
    (t'.pc = .lost ↔ ¬ EntryPresent t.ticks t.pc (t.obs l)) ∧ t.pc ≠ .lost := by
  obtain ⟨⟨es, t₁⟩, ha, rfl⟩ := Option.map_eq_some_iff.mp h
  have ho : t.obs l = es := by simp [obs, ha]
  rw [ho, entryPresent_iff t.totalElapse, ← toPos_eq_lost t₁.totalElapse,
    ne_eq, ← toPos_eq_lost t.totalElapse]
  rcases act_walk ha with ⟨rfl, hw, hy⟩ | ⟨k, hk⟩
  · -- a `tick` that was refused
    have hpos : t₁.pc.toPos t₁.totalElapse = t.pc.toPos t.totalElapse :=
      congrArg Walk.State.pos hw
    rw [hpos]
    revert hy
    rcases t.pc with _ | it | it | _ | err
    all_goals simp [Pc.yields, Pc.toPos, Walk.Present]
  · exact ⟨(Walk.move_of_act hk).lost_iff, (Walk.move_of_act hk).ne_lost⟩

/-- A run from between two passes is that of a walk that begins there. -/
theorem walk_of_pull {ls : List Label} (ht : t.pc = .pull) (h : exec step t ls = some t') :
    ∃ ks, exec (Walk.step rule) ⟨t.ticks, .idle⟩ ks = some t'.walk ∧
      trace (Walk.step rule) (Walk.obs rule) ⟨t.ticks, .idle⟩ ks =
        (trace step obs t ls).map Event.toWalk := by
  have hw : t.walk = ⟨t.ticks, .idle⟩ := by rw [walk, ht, Pc.toPos]
  rw [← hw]
  exact walk_of_exec h

theorem lost_iff {ls : List Label} (ht : t.pc = .pull) (h : exec step t ls = some t') :
    t'.pc = .lost ↔ UnticksCurrent (trace step obs t ls) := by
  obtain ⟨ks, hks, htr⟩ := walk_of_pull ht h
  rw [← erasesCurrent_map_iff, ← htr, ← Walk.lost_iff hks]
  exact (toPos_eq_lost _).symm

theorem entry_present_iff {ls : List Label} (ht : t.pc = .pull) (h : exec step t ls = some t') :
    AllSteps step (fun t l => EntryPresent t.ticks t.pc (t.obs l)) t ls ↔
      ¬ UnticksCurrent (trace step obs t ls) := by
  have hlost := allSteps_iff (fun t => t.pc = .lost) (by simp [ht])
    (fun _ _ _ hs => (lost_iff_of_step hs).1) (fun _ _ _ hs => (lost_iff_of_step hs).2) h
  exact hlost.trans (not_congr (lost_iff ht h))

/-- A turn of the loop can be taken. -/
theorem iter_total {it : Option (Cursor Int)} (h : t.pc = .iter it) :
    ∃ es t', t.act .iter = some (es, t') := by
  obtain ⟨resolution, ticks, totalElapse, mem, pc⟩ := t
  subst h
  cases it with
  | none => exact ⟨_, _, rfl⟩
  | some it =>
      simp only [act]
      split
      · split <;> exact ⟨_, _, rfl⟩
      · exact ⟨_, _, rfl⟩

theorem notified_total {it : Cursor Int} (h : t.pc = .notify it) :
    ∃ es t', t.act (.notified none) = some (es, t') := by
  obtain ⟨resolution, ticks, totalElapse, mem, pc⟩ := t
  subst h
  exact ⟨_, _, rfl⟩

/-- What the walk can do, the loop does. -/
theorem visit_of_walk {s' : Walk.State Int Int Int} {now : Int} {it : Option (Cursor Int)}
    (hp : t.walk.pos = .head now it) (hs : Walk.step rule t.walk .visit = some s') :
    ∃ t', t.step .iter = some t' ∧ t'.walk = s' := by
  obtain ⟨es, t₁, ha⟩ := iter_total (eq_iter_of_toPos hp)
  rw [Walk.step, iter_walk ha] at hs
  exact ⟨t₁, by rw [step, ha, Option.map_some], Option.some.inj hs⟩

theorem back_of_walk {s' : Walk.State Int Int Int} {now : Int} {it : Cursor Int}
    (hp : t.walk.pos = .calling now it) (hs : Walk.step rule t.walk .back = some s') :
    ∃ t', t.step (.notified none) = some t' ∧ t'.walk = s' := by
  obtain ⟨es, t₁, ha⟩ := notified_total (eq_notify_of_toPos hp)
  rw [Walk.step, notified_walk ha] at hs
  exact ⟨t₁, by rw [step, ha, Option.map_some], Option.some.inj hs⟩

/-- **A pass goes on to its end**: where no handler that returned success has unticked its own
event, `cycle` is not lost; and from the head of the loop it comes to the end of the pass, when the
handlers that it still calls return success and leave `ticks` alone. -/
theorem pass_ends {ls : List Label} (ht : t.pc = .pull) (h : exec step t ls = some t')
    (hu : ¬ UnticksCurrent (trace step obs t ls)) :
    t'.pc ≠ .lost ∧ ∀ it, t'.pc = .iter it →
      ∃ ks t'', (∀ k ∈ ks, k = .iter ∨ k = .notified none) ∧ exec step t' ks = some t'' ∧
        t''.pc = .pull := by
  refine ⟨fun hl => hu ((lost_iff ht h).mp hl), fun it hit => ?_⟩
  obtain ⟨ks, hks, -⟩ := walk_of_pull ht h
  have hp : t'.walk.pos = .head t'.totalElapse it := by rw [walk, hit, Pc.toPos]
  obtain ⟨ls', t'', hls, he, hidle⟩ := Walk.pass_ends step walk .iter (.notified none)
    (fun _ _ _ _ => visit_of_walk) (fun _ _ _ _ => back_of_walk) t'
    (.inr (Walk.holds_of_exec hks hp))
  exact ⟨ls', t'', hls, he, eq_pull_of_toPos hidle⟩

end SrsHourGlass

namespace SrsDynamicTimer

variable {t t' : SrsDynamicTimer}

/-- `cycle` is lost by the steps from an entry that is gone, and ends there. -/
theorem lost_iff_of_step {l : Label} (h : t.step l = some t') :
    (t'.pc = .lost ↔ ¬ EntryPresent t.ticks t.pc (t.obs l)) ∧ t.pc ≠ .lost := by
  obtain ⟨⟨es, t₁⟩, ha, rfl⟩ := Option.map_eq_some_iff.mp h
  have ho : t.obs l = es := by simp [obs, ha]
  rw [ho, entryPresent_iff t.nowTime, ← toPos_eq_lost t₁.nowTime,
    ne_eq, ← toPos_eq_lost t.nowTime]
  obtain ⟨k, hk⟩ := act_walk ha
  exact ⟨(Walk.move_of_act hk).lost_iff, (Walk.move_of_act hk).ne_lost⟩

/-- A run from between two passes is that of a walk that begins there. -/
theorem walk_of_pull {ls : List Label} (ht : t.pc = .pull) (h : exec step t ls = some t') :
    ∃ ks, exec (Walk.step rule) ⟨t.ticks, .idle⟩ ks = some t'.walk ∧
      trace (Walk.step rule) (Walk.obs rule) ⟨t.ticks, .idle⟩ ks =
        (trace step obs t ls).map Event.toWalk := by
  have hw : t.walk = ⟨t.ticks, .idle⟩ := by rw [walk, ht, Pc.toPos]
  rw [← hw]
  exact walk_of_exec h

theorem lost_iff {ls : List Label} (ht : t.pc = .pull) (h : exec step t ls = some t') :
    t'.pc = .lost ↔ UnticksCurrent (trace step obs t ls) := by
  obtain ⟨ks, hks, htr⟩ := walk_of_pull ht h
  rw [← erasesCurrent_map_iff, ← htr, ← Walk.lost_iff hks]
  exact (toPos_eq_lost _).symm

theorem entry_present_iff {ls : List Label} (ht : t.pc = .pull) (h : exec step t ls = some t') :
    AllSteps step (fun t l => EntryPresent t.ticks t.pc (t.obs l)) t ls ↔
      ¬ UnticksCurrent (trace step obs t ls) := by
  have hlost := allSteps_iff (fun t => t.pc = .lost) (by simp [ht])
    (fun _ _ _ hs => (lost_iff_of_step hs).1) (fun _ _ _ hs => (lost_iff_of_step hs).2) h
  exact hlost.trans (not_congr (lost_iff ht h))

/-- A turn of the loop can be taken. -/
theorem iter_total {it : Option (Cursor Int)} (h : t.pc = .iter it) :
    ∃ es t', t.act .iter = some (es, t') := by
  obtain ⟨resolution, ticks, nowTime, mem, pc⟩ := t
  subst h
  cases it with
  | none => exact ⟨_, _, rfl⟩
  | some it =>
      simp only [act]
      split
      · split <;> exact ⟨_, _, rfl⟩
      · exact ⟨_, _, rfl⟩

theorem notified_total {it : Cursor Int} (h : t.pc = .notify it) :
    ∃ es t', t.act (.notified none) = some (es, t') := by
  obtain ⟨resolution, ticks, nowTime, mem, pc⟩ := t
  subst h
  exact ⟨_, _, rfl⟩

/-- What the walk can do, the loop does. -/
theorem visit_of_walk {s' : Walk.State Int Int Int} {now : Int} {it : Option (Cursor Int)}
    (hp : t.walk.pos = .head now it) (hs : Walk.step rule t.walk .visit = some s') :
    ∃ t', t.step .iter = some t' ∧ t'.walk = s' := by
  obtain ⟨es, t₁, ha⟩ := iter_total (eq_iter_of_toPos hp)
  rw [Walk.step, iter_walk ha] at hs
  exact ⟨t₁, by rw [step, ha, Option.map_some], Option.some.inj hs⟩

theorem back_of_walk {s' : Walk.State Int Int Int} {now : Int} {it : Cursor Int}
    (hp : t.walk.pos = .calling now it) (hs : Walk.step rule t.walk .back = some s') :
    ∃ t', t.step (.notified none) = some t' ∧ t'.walk = s' := by
  obtain ⟨es, t₁, ha⟩ := notified_total (eq_notify_of_toPos hp)
  rw [Walk.step, notified_walk ha] at hs
  exact ⟨t₁, by rw [step, ha, Option.map_some], Option.some.inj hs⟩

/-- **A pass goes on to its end**: where no handler that returned success has unticked its own
event, `cycle` is not lost; and from the head of the loop it comes to the end of the pass, when the
handlers that it still calls return success and leave `ticks` alone. -/
theorem pass_ends {ls : List Label} (ht : t.pc = .pull) (h : exec step t ls = some t')
    (hu : ¬ UnticksCurrent (trace step obs t ls)) :
    t'.pc ≠ .lost ∧ ∀ it, t'.pc = .iter it →
      ∃ ks t'', (∀ k ∈ ks, k = .iter ∨ k = .notified none) ∧ exec step t' ks = some t'' ∧
        t''.pc = .pull := by
  refine ⟨fun hl => hu ((lost_iff ht h).mp hl), fun it hit => ?_⟩
  obtain ⟨ks, hks, -⟩ := walk_of_pull ht h
  have hp : t'.walk.pos = .head t'.nowTime it := by rw [walk, hit, Pc.toPos]
  obtain ⟨ls', t'', hls, he, hidle⟩ := Walk.pass_ends step walk .iter (.notified none)
    (fun _ _ _ _ => visit_of_walk) (fun _ _ _ _ => back_of_walk) t'
    (.inr (Walk.holds_of_exec hks hp))
  exact ⟨ls', t'', hls, he, eq_pull_of_toPos hidle⟩

end SrsDynamicTimer

/-! ### Every run of the timers -/

/-- **The iterator of the timers.**  For every sequence of calls and results, and from every state
between two passes, whatever is in `ticks`, of an hourglass or of a dynamic timer: every step of
a pass from an entry finds the entry in `ticks`, if and only if no handler that returned success
has unticked the event it was called for, even if it ticked the event again. -/
theorem steps_find_entry_iff (ls : List Label) :
    (∀ t t' : SrsHourGlass, t.pc = .pull → exec SrsHourGlass.step t ls = some t' →
      (AllSteps SrsHourGlass.step (fun t l => EntryPresent t.ticks t.pc (t.obs l)) t ls ↔
        ¬ UnticksCurrent (trace SrsHourGlass.step SrsHourGlass.obs t ls))) ∧
    ∀ t t' : SrsDynamicTimer, t.pc = .pull → exec SrsDynamicTimer.step t ls = some t' →
      (AllSteps SrsDynamicTimer.step (fun t l => EntryPresent t.ticks t.pc (t.obs l)) t ls ↔
        ¬ UnticksCurrent (trace SrsDynamicTimer.step SrsDynamicTimer.obs t ls)) :=
  ⟨fun _ _ ht h => SrsHourGlass.entry_present_iff ht h,
    fun _ _ ht h => SrsDynamicTimer.entry_present_iff ht h⟩

/-- Where no event is both notified and unticked, no handler unticks its own event. -/
theorem not_unticksCurrent {tr : List Event}
    (h : ∀ event time now, .notify event time now ∈ tr → .untick event ∉ tr) :
    ¬ UnticksCurrent tr := by
  rintro ⟨pre, mid, post, event, time, now, rfl, -, hk⟩
  exact h event time now (by simp) (by simp [hk])

/-- The handler unticks another event and ticks its own again. -/
def rearming : List Label :=
  [.tick 1 5, .tick 2 5, .pull none 10, .iter, .untick 2, .tick 1 20, .notified none, .iter]

theorem steps_find_entry_iff_rearming :
    AllSteps SrsHourGlass.step (fun t l => EntryPresent t.ticks t.pc (t.obs l)) (.new 5 0)
      rearming ∧
    AllSteps SrsDynamicTimer.step (fun t l => EntryPresent t.ticks t.pc (t.obs l)) (.new 5 0)
      rearming := by
  have hg : trace SrsHourGlass.step SrsHourGlass.obs (.new 5 0) rearming =
      [.tick 1 5, .tick 2 5, .pass 0, .notify 1 5 0, .untick 2, .tick 1 20, .notified none,
        .usleep 5] := rfl
  have dyn : trace SrsDynamicTimer.step SrsDynamicTimer.obs (.new 5 0) rearming =
      [.tick 1 5, .tick 2 5, .pass 10, .notify 1 5 10, .untick 2, .tick 1 20, .notified none,
        .usleep 5] := rfl
  constructor
  · refine ((steps_find_entry_iff rearming).1 (.new 5 0) _ rfl rfl).mpr ?_
    rw [hg]
    exact not_unticksCurrent (by simp +contextual)
  · refine ((steps_find_entry_iff rearming).2 (.new 5 0) _ rfl rfl).mpr ?_
    rw [dyn]
    exact not_unticksCurrent (by simp +contextual)

/-- The handler unticks its own event, and ticks it again before it returns. -/
def unticking : List Label :=
  [.tick 1 5, .pull none 10, .iter, .untick 1, .tick 1 20, .notified none]

/-- An event that is unticked in its own handler. -/
theorem untick_in_notify :
    (¬ ∀ (t t' : SrsHourGlass) (ls : List Label), t.pc = .pull →
      exec SrsHourGlass.step t ls = some t' →
      AllSteps SrsHourGlass.step (fun t l => EntryPresent t.ticks t.pc (t.obs l)) t ls) ∧
    ¬ ∀ (t t' : SrsDynamicTimer) (ls : List Label), t.pc = .pull →
      exec SrsDynamicTimer.step t ls = some t' →
      AllSteps SrsDynamicTimer.step (fun t l => EntryPresent t.ticks t.pc (t.obs l)) t ls := by
  constructor
  · intro H
    have h := H (.new 5 0) _ unticking rfl rfl (unticking.take 5) (.notified none) [] _ rfl rfl
    exact absurd (show NodeMap.Valid _ _ from h) (by decide)
  · intro H
    have h := H (.new 5 0) _ unticking rfl rfl (unticking.take 5) (.notified none) [] _ rfl rfl
    exact absurd (show NodeMap.Valid _ _ from h) (by decide)

end StCoroutine.Hourglass
