import StCoroutine.Hourglass.Model
import StCoroutine.Lib.Walk

/-!
# Hourglass — the loops are walks

`cycle` of both timers goes through `ticks` as a `Walk`: the hourglass visits the entries whose
interval divides the total elapsed time, the dynamic timer those that have expired, which it marks
`-1` before it calls the handler.  Every run of a timer is a run of its walk that shows the same
events (`SrsHourGlass.walk_of_exec`, `SrsDynamicTimer.walk_of_exec`).
-/

set_option autoImplicit false

namespace StCoroutine.Hourglass
open Lts

/-- Where the walk is, in a pass with the reading `now`. -/
def Pc.toPos (now : Int) : Pc → Walk.Pos Int Int
  | pull => .idle
  | iter it => .head now it
  | notify it => .calling now it
  | lost => .lost
  | returned _ => .stopped

/-- What an event of a timer is to the walk. -/
def Event.toWalk : Event → Walk.Event Int Int Int
  | tick event time => .set event time
  | untick event => .erase event
  | pass now => .start now
  | notify event time now => .call now event time
  | notified none => .back
  | usleep _ => .finish
  | notified (some _) | quit => .stop

/-- The event is a call of `tick` or `untick`. -/
def Event.IsCall : Event → Prop
  | tick .. | untick _ => True
  | pass _ | notify .. | notified _ | usleep _ | quit => False

namespace Event

variable {x : Event}

theorem toWalk_eq_call {event time now : Int} :
    x.toWalk = .call now event time ↔ x = .notify event time now := by
  rcases x with _ | _ | _ | _ | (_ | _) | _ | _ <;> simp [toWalk, and_comm, and_assoc]

theorem toWalk_eq_back : x.toWalk = .back ↔ x = .notified none := by
  rcases x with _ | _ | _ | _ | (_ | _) | _ | _ <;> simp [toWalk]

theorem toWalk_eq_finish : x.toWalk = .finish ↔ ∃ us, x = .usleep us := by
  rcases x with _ | _ | _ | _ | (_ | _) | _ | _ <;> simp [toWalk]

theorem toWalk_eq_erase {event : Int} : x.toWalk = .erase event ↔ x = .untick event := by
  rcases x with _ | _ | _ | _ | (_ | _) | _ | _ <;> simp [toWalk]

theorem isEdit_toWalk : x.toWalk.IsEdit ↔ x.IsCall := by
  rcases x with _ | _ | _ | _ | (_ | _) | _ | _ <;> simp [toWalk, IsCall, Walk.Event.IsEdit]

theorem touches_toWalk {event : Int} :
    x.toWalk.Touches event ↔ (∃ time, x = .tick event time) ∨ x = .untick event := by
  rcases x with _ | _ | _ | _ | (_ | _) | _ | _ <;> simp [toWalk, Walk.Event.Touches]

end Event

theorem Pc.editable_toPos (now : Int) (pc : Pc) :
    (pc.toPos now).Editable ↔ pc.yields = true := by
  cases pc <;> simp [toPos, Walk.Pos.Editable, yields]

theorem toPos_next (now : Int) (ticks : NodeMap Int Int) (it : Cursor Int) :
    (next ticks it).toPos now = Walk.advance ticks now it := by
  unfold next Walk.advance
  split <;> rfl

namespace SrsHourGlass

/-- Due are the entries whose interval divides the elapsed time, and a visit leaves them as they
are. -/
def rule : Walk.Rule Int Int Int := ⟨fun now _ interval => due now interval, id⟩

/-- The hourglass as a walk. -/
def walk (t : SrsHourGlass) : Walk.State Int Int Int := ⟨t.ticks, t.pc.toPos t.totalElapse⟩

/-- A turn of the loop is a visit. -/
theorem iter_walk {t t' : SrsHourGlass} {es : List Event} (h : t.act .iter = some (es, t')) :
    Walk.act rule t.walk .visit = some (es.map Event.toWalk, t'.walk) := by
  obtain ⟨resolution, ticks, totalElapse, mem, pc⟩ := t
  cases pc with
  | iter it =>
      cases it with
      | none =>
          cases h
          rfl
      | some it =>
          show Walk.act rule ⟨ticks, .head totalElapse (some it)⟩ .visit = _
          simp only [act] at h
          split at h
          · next interval hd =>
              split at h
              · next hdue =>
                  cases h
                  -- the hourglass does not write to the entry, the walk writes what is there
                  have hset := NodeMap.set_find (NodeMap.deref_eq_some.mp hd).2
                  simp [Walk.act, hd, rule, hdue, hset, walk, Pc.toPos, Event.toWalk]
              · next hdue =>
                  cases h
                  simp [Walk.act, hd, rule, hdue, walk, toPos_next]
          · next hd =>
              cases h
              simp [Walk.act, hd, walk, Pc.toPos]
  | _ => cases h

/-- A handler that returns success is a visitor that comes back. -/
theorem notified_walk {t t' : SrsHourGlass} {es : List Event}
    (h : t.act (.notified none) = some (es, t')) :
    Walk.act rule t.walk .back = some (es.map Event.toWalk, t'.walk) := by
  obtain ⟨resolution, ticks, totalElapse, mem, pc⟩ := t
  cases pc with
  | notify it =>
      cases h
      rw [walk, walk, toPos_next]
      rfl
  | _ => cases h

theorem act_walk {t t' : SrsHourGlass} {l : Label} {es : List Event} (h : t.act l = some (es, t')) :
    (es = [] ∧ t'.walk = t.walk ∧ t.pc.yields = true) ∨
      ∃ k, Walk.act rule t.walk k = some (es.map Event.toWalk, t'.walk) := by
  obtain ⟨resolution, ticks, totalElapse, mem, pc⟩ := t
  cases l with
  | tick event interval =>
      obtain ⟨hy, h⟩ := Option.ite_none_right_eq_some.mp h
      simp only [tick] at h
      split at h
      · next heq =>
          split at heq
          · exact nomatch heq
          · cases heq
            cases h
            exact .inr ⟨.set event interval, if_pos ((Pc.editable_toPos _ _).mpr hy)⟩
      · next heq =>
          split at heq
          · cases heq
            cases h
            exact .inl ⟨rfl, rfl, hy⟩
          · exact nomatch heq
  | untick event =>
      obtain ⟨hy, h⟩ := Option.ite_none_right_eq_some.mp h
      cases h
      exact .inr ⟨.erase event, if_pos ((Pc.editable_toPos _ _).mpr hy)⟩
  | pull pulled clock =>
      cases pc with
      | pull =>
          cases pulled with
          | some p =>
              cases h
              exact .inr ⟨.stop, rfl⟩
          | none =>
              cases h
              exact .inr ⟨.start totalElapse, rfl⟩
      | _ => cases h
  | iter => exact .inr ⟨.visit, iter_walk h⟩
  | notified err =>
      cases err with
      | none => exact .inr ⟨.back, notified_walk h⟩
      | some p =>
          cases pc <;> cases h
          exact .inr ⟨.stop, rfl⟩

/-- **The loop of `SrsHourGlass::cycle` is a walk**, in every run of the hourglass. -/
theorem walk_of_exec {t t' : SrsHourGlass} {ls : List Label} (h : exec step t ls = some t') :
    ∃ ks, exec (Walk.step rule) t.walk ks = some t'.walk ∧
      trace (Walk.step rule) (Walk.obs rule) t.walk ks =
        (trace step obs t ls).map Event.toWalk := by
  refine exec_sim (fun t l t' hs => ?_) h
  obtain ⟨⟨es, t₁⟩, ha, rfl⟩ := Option.map_eq_some_iff.mp hs
  have ho : t.obs l = es := by simp [obs, ha]
  rw [ho]
  rcases act_walk ha with ⟨rfl, hw, -⟩ | ⟨k, hk⟩
  · exact ⟨[], by rw [exec_nil, hw], rfl⟩
  · exact ⟨[k], Walk.exec_of_act hk⟩

end SrsHourGlass

namespace SrsDynamicTimer

/-- Due are the entries that have expired, and a visit marks them `-1`, which never expires. -/
def rule : Walk.Rule Int Int Int := ⟨fun now _ expiredTime => due now expiredTime, fun _ => -1⟩

/-- The timer as a walk. -/
def walk (t : SrsDynamicTimer) : Walk.State Int Int Int := ⟨t.ticks, t.pc.toPos t.nowTime⟩

/-- A turn of the loop is a visit. -/
theorem iter_walk {t t' : SrsDynamicTimer} {es : List Event} (h : t.act .iter = some (es, t')) :
    Walk.act rule t.walk .visit = some (es.map Event.toWalk, t'.walk) := by
  obtain ⟨resolution, ticks, nowTime, mem, pc⟩ := t
  cases pc with
  | iter it =>
      cases it with
      | none =>
          cases h
          rfl
      | some it =>
          show Walk.act rule ⟨ticks, .head nowTime (some it)⟩ .visit = _
          simp only [act] at h
          split at h
          · next expiredTime hd =>
              split at h
              · next hdue =>
                  cases h
                  simp [Walk.act, hd, rule, hdue, walk, Pc.toPos, Event.toWalk]
              · next hdue =>
                  cases h
                  simp [Walk.act, hd, rule, hdue, walk, toPos_next]
          · next hd =>
              cases h
              simp [Walk.act, hd, walk, Pc.toPos]
  | _ => cases h

/-- A handler that returns success is a visitor that comes back. -/
theorem notified_walk {t t' : SrsDynamicTimer} {es : List Event}
    (h : t.act (.notified none) = some (es, t')) :
    Walk.act rule t.walk .back = some (es.map Event.toWalk, t'.walk) := by
  obtain ⟨resolution, ticks, nowTime, mem, pc⟩ := t
  cases pc with
  | notify it =>
      cases h
      rw [walk, walk, toPos_next]
      rfl
  | _ => cases h

theorem act_walk {t t' : SrsDynamicTimer} {l : Label} {es : List Event}
    (h : t.act l = some (es, t')) :
    ∃ k, Walk.act rule t.walk k = some (es.map Event.toWalk, t'.walk) := by
  obtain ⟨resolution, ticks, nowTime, mem, pc⟩ := t
  cases l with
  | tick event expiredTime =>
      obtain ⟨hy, h⟩ := Option.ite_none_right_eq_some.mp h
      cases h
      exact ⟨.set event expiredTime, if_pos ((Pc.editable_toPos _ _).mpr hy)⟩
  | untick event =>
      obtain ⟨hy, h⟩ := Option.ite_none_right_eq_some.mp h
      cases h
      exact ⟨.erase event, if_pos ((Pc.editable_toPos _ _).mpr hy)⟩
  | pull pulled clock =>
      cases pc with
      | pull =>
          cases pulled with
          | some p =>
              cases h
              exact ⟨.stop, rfl⟩
          | none =>
              cases h
              exact ⟨.start clock, rfl⟩
      | _ => cases h
  | iter => exact ⟨.visit, iter_walk h⟩
  | notified err =>
      cases err with
      | none => exact ⟨.back, notified_walk h⟩
      | some p =>
          cases pc <;> cases h
          exact ⟨.stop, rfl⟩

/-- **The loop of `SrsDynamicTimer::cycle` is a walk**, in every run of the timer. -/
theorem walk_of_exec {t t' : SrsDynamicTimer} {ls : List Label} (h : exec step t ls = some t') :
    ∃ ks, exec (Walk.step rule) t.walk ks = some t'.walk ∧
      trace (Walk.step rule) (Walk.obs rule) t.walk ks =
        (trace step obs t ls).map Event.toWalk := by
  refine exec_sim (fun t l t' hs => ?_) h
  obtain ⟨⟨es, t₁⟩, ha, rfl⟩ := Option.map_eq_some_iff.mp hs
  have ho : t.obs l = es := by simp [obs, ha]
  rw [ho]
  obtain ⟨k, hk⟩ := act_walk ha
  exact ⟨[k], Walk.exec_of_act hk⟩

end SrsDynamicTimer

end StCoroutine.Hourglass
