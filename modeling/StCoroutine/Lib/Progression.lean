import Mathlib.Data.List.Nodup
import Mathlib.Tactic.Ring

/-!
# Progression — the multiples in an arithmetic progression

A clock that goes in steps of `r` passes the multiples of an interval `i` that `r` divides.

* `nextMultiple`: the least multiple of `i` from `a` on.
* `filter_dvd_progression`: the multiples of `i` in a progression with the step `r` are a
  progression with the step `i`, from the next multiple on.
-/

set_option autoImplicit false

namespace Progression

/-- The least multiple of `i` that is not below `a`. -/
def nextMultiple (i a : Int) : Int := a + -a % i

variable {r i a : Int}

theorem nextMultiple_of_dvd (h : i ∣ a) : nextMultiple i a = a := by
  rw [nextMultiple, Int.emod_eq_zero_of_dvd ((Int.dvd_neg).mpr h), Int.add_zero]

theorem nextMultiple_lt (hi : 0 < i) : nextMultiple i a < a + i := by
  have h := Int.emod_lt_of_pos (-a) hi
  unfold nextMultiple
  omega

/-- One step on from a multiple. -/
theorem nextMultiple_add_of_dvd (hr : 0 < r) (hri : r ∣ i) (hi : 0 < i) (h : i ∣ a) :
    nextMultiple i (a + r) = a + i := by
  have hle := Int.le_of_dvd hi hri
  obtain ⟨q, rfl⟩ := h
  have he : -(i * q + r) = (i - r) + i * (-q - 1) := by ring
  rw [nextMultiple, he, Int.add_mul_emod_self_left, Int.emod_eq_of_lt (by omega) (by omega)]
  ring

/-- One step on from what is no multiple. -/
theorem nextMultiple_add_of_not_dvd (hr : 0 < r) (hri : r ∣ i) (hi : 0 < i) (hra : r ∣ a)
    (h : ¬ i ∣ a) : nextMultiple i (a + r) = nextMultiple i a := by
  have hne : -a % i ≠ 0 := fun e => h ((Int.dvd_neg).mp (Int.dvd_of_emod_eq_zero e))
  have hnn := Int.emod_nonneg (-a) hi.ne'
  have hlt := Int.emod_lt_of_pos (-a) hi
  -- the distance to the next multiple is a multiple of the step
  have hdvd : r ∣ -a % i := Int.dvd_of_emod_eq_zero (by
    rw [Int.emod_emod_of_dvd _ hri, Int.emod_eq_zero_of_dvd ((Int.dvd_neg).mpr hra)])
  have hle := Int.le_of_dvd (by omega) hdvd
  have he : -(a + r) = (-a % i - r) + i * (-a / i) := by
    have := Int.emod_add_mul_ediv (-a) i
    omega
  rw [nextMultiple, nextMultiple, he, Int.add_mul_emod_self_left,
    Int.emod_eq_of_lt (by omega) (by omega)]
  ring

/-- Behind `a` the least multiple is a whole `i` away exactly when `a` is one itself. -/
theorem le_nextMultiple_add_iff (hr : 0 < r) (hri : r ∣ i) (hi : 0 < i) (hra : r ∣ a) :
    a + i ≤ nextMultiple i (a + r) ↔ i ∣ a := by
  constructor
  · intro hle
    by_contra hno
    rw [nextMultiple_add_of_not_dvd hr hri hi hra hno] at hle
    exact absurd (nextMultiple_lt hi) (not_lt.mpr hle)
  · intro hd
    rw [nextMultiple_add_of_dvd hr hri hi hd]

/-- `n` numbers from `a` on, `r` apart. -/
def progression (a r : Int) (n : Nat) : List Int := (List.range n).map fun j : Nat => a + j * r

theorem progression_succ (a r : Int) (n : Nat) :
    progression a r (n + 1) = a :: progression (a + r) r n := by
  simp only [progression, List.range_succ_eq_map, List.map_cons, List.map_map]
  congr 1
  · simp
  · refine List.map_congr_left fun j _ => ?_
    simp
    ring

theorem progression_snoc (a r : Int) (n : Nat) :
    progression a r (n + 1) = progression a r n ++ [a + n * r] := by
  simp [progression, List.range_succ]

@[simp] theorem length_progression (a r : Int) (n : Nat) : (progression a r n).length = n := by
  simp [progression]

theorem progression_add (a r : Int) (m n : Nat) :
    progression a r (m + n) = progression a r m ++ progression (a + m * r) r n := by
  induction m generalizing a with
  | zero => simp [progression]
  | succ m ih =>
      rw [Nat.succ_add, progression_succ, progression_succ, ih, List.cons_append]
      congr 3
      push_cast
      ring

/-- The parts of a progression are progressions. -/
theorem progression_eq_append {n : Nat} {xs ys : List Int} (h : progression a r n = xs ++ ys) :
    xs = progression a r xs.length ∧ ys = progression (a + xs.length * r) r ys.length := by
  have hn : n = xs.length + ys.length := by
    rw [← List.length_append, ← h, length_progression]
  rw [hn, progression_add] at h
  obtain ⟨h₁, h₂⟩ := List.append_inj h (by simp)
  exact ⟨h₁.symm, h₂.symm⟩

/-- The members of a progression, between the first and the last. -/
theorem mem_progression_succ (hr : 0 < r) {n : Nat} {t : Int} :
    t ∈ progression a r (n + 1) ↔ a ≤ t ∧ t ≤ a + n * r ∧ r ∣ t - a := by
  rw [progression, List.mem_map]
  constructor
  · rintro ⟨j, hj, rfl⟩
    have hle : (j : Int) ≤ n := by exact_mod_cast Nat.le_of_lt_succ (List.mem_range.mp hj)
    have hmul := Int.mul_le_mul_of_nonneg_right hle hr.le
    have hnn : 0 ≤ (j : Int) * r := Int.mul_nonneg (Int.natCast_nonneg j) hr.le
    exact ⟨by omega, by omega, j, by ring⟩
  · rintro ⟨hle, hlt, q, hq⟩
    have hq0 : 0 ≤ q := by
      by_contra hneg
      have := Int.mul_neg_of_pos_of_neg hr (not_le.mp hneg)
      omega
    have hqn : q ≤ n := by
      by_contra hge
      have := Int.mul_lt_mul_of_pos_left (not_le.mp hge) hr
      have hc : r * (n : Int) = n * r := Int.mul_comm _ _
      omega
    refine ⟨q.toNat, List.mem_range.mpr (by omega), ?_⟩
    rw [Int.toNat_of_nonneg hq0, Int.mul_comm q r]
    omega

theorem nodup_progression (hr : 0 < r) (n : Nat) : (progression a r n).Nodup := by
  refine (List.nodup_map_iff fun j k h => ?_).mpr List.nodup_range
  have h' : (j : Int) * r = k * r := by omega
  exact_mod_cast Int.eq_of_mul_eq_mul_right hr.ne' h'

theorem isChain_progression (n : Nat) :
    ∀ a : Int, (progression a r n).IsChain fun x y => y = x + r := by
  induction n with
  | zero => exact fun _ => .nil
  | succ n ih =>
      intro a
      cases n with
      | zero => exact .singleton _
      | succ n =>
          have h := ih (a + r)
          rw [progression_succ] at h
          rw [progression_succ, progression_succ]
          exact .cons_cons rfl h

/-- **The multiples in a progression** are a progression. -/
theorem filter_dvd_progression (hr : 0 < r) (hri : r ∣ i) (hi : 0 < i) (n : Nat) :
    ∀ {a}, r ∣ a → ∃ m, (progression a r n).filter (fun t => decide (i ∣ t)) =
      progression (nextMultiple i a) i m := by
  induction n with
  | zero => exact fun _ => ⟨0, rfl⟩
  | succ n ih =>
      intro a ha
      obtain ⟨m, hm⟩ := ih (Int.dvd_add ha (Int.dvd_refl r))
      rw [progression_succ]
      by_cases h : i ∣ a
      · refine ⟨m + 1, ?_⟩
        rw [List.filter_cons_of_pos (by simpa using h), hm, nextMultiple_add_of_dvd hr hri hi h,
          nextMultiple_of_dvd h, progression_succ]
      · refine ⟨m, ?_⟩
        rw [List.filter_cons_of_neg (by simpa using h), hm,
          nextMultiple_add_of_not_dvd hr hri hi ha h]

end Progression
