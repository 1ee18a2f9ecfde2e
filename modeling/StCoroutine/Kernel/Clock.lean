import Mathlib.Algebra.Group.Nat.Defs
import Mathlib.Order.Lattice

/-!
# Kernel — the system time

The cached clock of `srs_kernel_utility.cpp`: the time of the last update, and the start-up time,
which is moved along when the clock jumps, so that what has passed since then stays what it was.
What `_srs_gettimeofday` answers is an input, `none` where it fails; a `srs_utime_t` is an `Int`,
which the texts of errors have in milliseconds (`srsu2msi`).
-/

set_option autoImplicit false

namespace StCoroutine.Kernel

/-- `srsu2msi`: microseconds as milliseconds, in an `int`. -/
def srsu2msi (us : Int) : Int := (us.tdiv 1000).bmod (2 ^ 32)

/-- A `timeval`. -/
structure Timeval where
  sec : Int
  usec : Int

/-- In microseconds. -/
def Timeval.us (now : Timeval) : Int := now.sec * 1000 * 1000 + now.usec

/-- `_srs_system_time_us_cache` and `_srs_system_time_startup_time`. -/
structure SystemTime where
  cache : Int
  startup : Int

def srsUpdateSystemTime (t : SystemTime) (now : Option Timeval) : Int × SystemTime :=
  match now with
  | none => (-1, t)
  | some now =>
    if t.cache ≤ 0 then (now.us, ⟨now.us, now.us⟩)
    else
      let diff := max 0 (now.us - t.cache)
      let startup := if diff < 0 ∨ diff > 1000 * 300 * 1000 then t.startup + diff else t.startup
      (now.us, ⟨now.us, startup⟩)

def srsGetSystemTime (t : SystemTime) (now : Option Timeval) : Int × SystemTime :=
  let t := if t.cache ≤ 0 then (srsUpdateSystemTime t now).2 else t
  (t.cache, t)

def srsGetSystemStartupTime (t : SystemTime) (now : Option Timeval) : Int × SystemTime :=
  let t := if t.startup ≤ 0 then (srsUpdateSystemTime t now).2 else t
  (t.startup, t)

namespace SystemTime

/-- How far an update moves the start-up time: to the time itself, when the clock is not set yet,
and then by every step of more than 300 seconds. -/
def jump (t : SystemTime) (now : Option Timeval) : Int :=
  match now with
  | none => 0
  | some now =>
    if t.cache ≤ 0 then now.us - t.startup
    else if now.us - t.cache > 1000 * 300 * 1000 then now.us - t.cache else 0

theorem startup_update (t : SystemTime) (now : Option Timeval) :
    (srsUpdateSystemTime t now).2.startup = t.startup + t.jump now := by
  cases now with
  | none => simp [srsUpdateSystemTime, jump]
  | some now =>
      rw [srsUpdateSystemTime, jump]
      by_cases hset : t.cache ≤ 0
      · simp only [if_pos hset]
        omega
      · simp only [if_neg hset]
        split
        · next h =>
            rw [if_pos (by omega)]
            omega
        · next h =>
            rw [if_neg (by omega)]
            omega

end SystemTime

end StCoroutine.Kernel
