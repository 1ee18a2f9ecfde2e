import StCoroutine.Kernel.Clock
import StCoroutine.Kernel.Error
import StCoroutine.Lib.Lts
import StCoroutine.Lib.NodeMap

/-!
# Hourglass — the timers

`SrsHourGlass` and `SrsDynamicTimer` of `srs_app_hourglass.cpp`: `tick`, `untick` and `cycle`.
`ticks` is a `std::map`, so a `NodeMap`, and the iterator of the loop is a cursor; `none` is
`ticks.end()`.  A step is a call of `tick` or `untick`, or what `cycle` does up to the next moment
at which other code can run: it gives up the thread in `trd->pull()`, in `srs_usleep` and inside
the handler.  What the calls return, and the clock, are part of the label.

Times are integers: `srs_utime_t` does not wrap in what follows.  An iterator whose entry is gone
may do anything when it is used, and the model ends there (`Pc.lost`).
-/

set_option autoImplicit false

namespace StCoroutine.Hourglass
open Kernel

/-- Where `cycle` is: before `trd->pull()` or asleep, at the head of the loop over `ticks`, in
`handler->notify`, past an iterator whose entry was gone, or back with a result. -/
inductive Pc where
  | pull
  | iter (it : Option (Cursor Int))
  | notify (it : Cursor Int)
  | lost
  | returned (err : SrsError)

/-- Other code can run. -/
def Pc.yields : Pc → Bool
  | pull | notify _ | returned _ => true
  | iter _ | lost => false

/-- `++it`. -/
def next (ticks : NodeMap Int Int) (it : Cursor Int) : Pc :=
  if ticks.Valid it then .iter (ticks.after it.key) else .lost

/-- A call of `tick` or `untick`, or a step of `cycle`: past `trd->pull()`, which returned
`pulled`, while the clock says `clock`; once round the loop over `ticks`; past `notify`, which
returned `err`. -/
inductive Label where
  | tick (event time : Int)
  | untick (event : Int)
  | pull (pulled : SrsError) (clock : Int)
  | iter
  | notified (err : SrsError)

/-- What a timer shows: `ticks` changed by `tick` or `untick`; a pass with the reading `now`; the
handler called for `event`, whose entry holds `time`, and its result; the end of a pass; and the
end of `cycle` after a `pull` that failed. -/
inductive Event where
  | tick (event time : Int)
  | untick (event : Int)
  | pass (now : Int)
  | notify (event time now : Int)
  | notified (err : SrsError)
  | usleep (us : Int)
  | quit

/-! ### `SrsHourGlass` -/

/-- An hourglass, with `mem` the address the allocator returns next. -/
structure SrsHourGlass where
  resolution : Int
  ticks : NodeMap Int Int
  totalElapse : Int
  mem : Nat
  pc : Pc

namespace SrsHourGlass

/-- A new hourglass whose `cycle` has been called. -/
def new (resolution : Int) (mem : Nat) : SrsHourGlass := ⟨resolution, .empty, 0, mem, .pull⟩

/-- `SrsHourGlass::tick`. -/
def tick (t : SrsHourGlass) (event interval : Int) : SrsError × SrsHourGlass :=
  if t.resolution > 0 ∧ interval.tmod t.resolution ≠ 0 then
    (SrsError.new t.mem ERROR_SYSTEM_HOURGLASS_RESOLUTION
      s!"invalid interval={srsu2msi interval}ms, resolution={srsu2msi t.resolution}ms", t)
  else (none, { t with ticks := t.ticks.set event interval })

/-- `SrsHourGlass::untick`. -/
def untick (t : SrsHourGlass) (event : Int) : SrsHourGlass :=
  { t with ticks := t.ticks.erase event }

/-- The condition of the loop. -/
def due (totalElapse interval : Int) : Bool := interval = 0 ∨ totalElapse.tmod interval = 0

/-- A step of the system. -/
def act (t : SrsHourGlass) : Label → Option (List Event × SrsHourGlass)
  | .tick event interval =>
    if t.pc.yields then
      match t.tick event interval with
      | (none, t') => some ([.tick event interval], t')
      | (some _, t') => some ([], t')
    else none
  | .untick event => if t.pc.yields then some ([.untick event], t.untick event) else none
  | .pull pulled _ =>
    match t.pc with
    | .pull =>
      if pulled ≠ none then
        some ([.quit], { t with pc := .returned (SrsError.wrap t.mem pulled "quit") })
      else some ([.pass t.totalElapse], { t with pc := .iter t.ticks.first })
    | _ => none
  | .iter =>
    match t.pc with
    | .iter (some it) =>
      match t.ticks.deref it with
      | some interval =>
        if due t.totalElapse interval then
          some ([.notify it.key interval t.totalElapse], { t with pc := .notify it })
        else some ([], { t with pc := next t.ticks it })
      | none => some ([], { t with pc := .lost })
    | .iter none =>
      some ([.usleep t.resolution],
        { t with totalElapse := t.totalElapse + t.resolution, pc := .pull })
    | _ => none
  | .notified err =>
    match t.pc with
    | .notify it =>
      if err ≠ none then
        some ([.notified err], { t with pc := .returned (SrsError.wrap t.mem err "notify") })
      else some ([.notified err], { t with pc := next t.ticks it })
    | _ => none

def step (t : SrsHourGlass) (l : Label) : Option SrsHourGlass := (t.act l).map Prod.snd

def obs (t : SrsHourGlass) (l : Label) : List Event := ((t.act l).map Prod.fst).getD []

end SrsHourGlass

/-! ### `SrsDynamicTimer` -/

/-- A dynamic timer, with `nowTime` the local variable of `cycle` and `mem` the address the
allocator returns next. -/
structure SrsDynamicTimer where
  resolution : Int
  ticks : NodeMap Int Int
  nowTime : Int
  mem : Nat
  pc : Pc

namespace SrsDynamicTimer

/-- A new timer whose `cycle` has been called. -/
def new (resolution : Int) (mem : Nat) : SrsDynamicTimer := ⟨resolution, .empty, 0, mem, .pull⟩

/-- `SrsDynamicTimer::tick`. -/
def tick (t : SrsDynamicTimer) (event expiredTime : Int) : SrsDynamicTimer :=
  { t with ticks := t.ticks.set event expiredTime }

/-- `SrsDynamicTimer::untick`. -/
def untick (t : SrsDynamicTimer) (event : Int) : SrsDynamicTimer :=
  { t with ticks := t.ticks.erase event }

/-- The condition of the loop. -/
def due (nowTime expiredTime : Int) : Bool := expiredTime > 0 ∧ nowTime ≥ expiredTime

/-- A step of the system. -/
def act (t : SrsDynamicTimer) : Label → Option (List Event × SrsDynamicTimer)
  | .tick event expiredTime =>
    if t.pc.yields then some ([.tick event expiredTime], t.tick event expiredTime) else none
  | .untick event => if t.pc.yields then some ([.untick event], t.untick event) else none
  | .pull pulled clock =>
    match t.pc with
    | .pull =>
      if pulled ≠ none then
        some ([.quit], { t with pc := .returned (SrsError.wrap t.mem pulled "quit") })
      else some ([.pass clock], { t with nowTime := clock, pc := .iter t.ticks.first })
    | _ => none
  | .iter =>
    match t.pc with
    | .iter (some it) =>
      match t.ticks.deref it with
      | some expiredTime =>
        if due t.nowTime expiredTime then
          some ([.notify it.key expiredTime t.nowTime],
            { t with ticks := t.ticks.set it.key (-1), pc := .notify it })
        else some ([], { t with pc := next t.ticks it })
      | none => some ([], { t with pc := .lost })
    | .iter none => some ([.usleep t.resolution], { t with pc := .pull })
    | _ => none
  | .notified err =>
    match t.pc with
    | .notify it =>
      if err ≠ none then
        some ([.notified err], { t with pc := .returned (SrsError.wrap t.mem err "notify") })
      else some ([.notified err], { t with pc := next t.ticks it })
    | _ => none

def step (t : SrsDynamicTimer) (l : Label) : Option SrsDynamicTimer := (t.act l).map Prod.snd

def obs (t : SrsDynamicTimer) (l : Label) : List Event := ((t.act l).map Prod.fst).getD []

end SrsDynamicTimer

end StCoroutine.Hourglass
