import Mathlib.Logic.Function.Basic
import Mathlib.Order.Lattice

/-!
# BinaryHeap — elements at the positions 1, …, n, ordered by a key

A heap of `n` elements is a function `h` read at the positions `1, …, n`: the children of the
position `i` are `2 * i` and `2 * i + 1`, and its parent is `i / 2`.

* `Ordered`: no element comes before its parent; `Ordered.root_le`: nor before the first.
* `Carry`: an element on its way down to a place, which is exchanged with those it comes before.
* `Sifting`: an element that may come after its children, on its way down.
* `Holds`: what is in the heap, and what an exchange or a new place does to it.
-/

set_option autoImplicit false

namespace BinaryHeap

variable {α κ : Type*} [LinearOrder κ] {key : α → κ} {n j c : Nat} {h : Nat → α} {x y : α}

/-- No element comes before its parent. -/
def Ordered (key : α → κ) (n : Nat) (h : Nat → α) : Prop :=
  ∀ i, 2 ≤ i → i ≤ n → key (h (i / 2)) ≤ key (h i)

/-- **The first element comes before all.** -/
theorem Ordered.root_le (H : Ordered key n h) {i : Nat} (hi : 1 ≤ i) (hn : i ≤ n) :
    key (h 1) ≤ key (h i) := by
  induction i using Nat.strongRecOn with
  | _ i ih =>
      rcases Nat.lt_or_ge i 2 with hlt | hge
      · have e : i = 1 := by omega
        rw [e]
      · have hup : key (h 1) ≤ key (h (i / 2)) := ih (i / 2) (by omega) (by omega) (by omega)
        exact le_trans hup (H i hge hn)

/-- The part of a heap up to a position is one. -/
theorem Ordered.shrink (H : Ordered key n h) {m : Nat} (hm : m ≤ n) : Ordered key m h :=
  fun i hi hle => H i hi (Nat.le_trans hle hm)

/-! ### An element on its way down to a place -/

/-- The heap is ordered, and `x` does not come before the parent of the position `j`. -/
structure Carry (key : α → κ) (n : Nat) (h : Nat → α) (j : Nat) (x : α) : Prop where
  ordered : Ordered key n h
  above : 2 ≤ j → key (h (j / 2)) ≤ key x

theorem Carry.start (H : Ordered key n h) : Carry key n h 1 x :=
  ⟨H, fun h2 => absurd h2 (by decide)⟩

/-- `x` takes the place of an element it comes before, and that one goes on. -/
theorem Carry.swap (H : Carry key n h j x) (hj : 1 ≤ j) (hlt : key x < key (h j))
    (hc : c / 2 = j) : Carry key n (Function.update h j x) c (h j) := by
  refine ⟨fun i hi hn => ?_, fun _ => ?_⟩
  · have hne : i / 2 ≠ i := by omega
    by_cases hij : i = j
    · subst hij
      rw [Function.update_self, Function.update_of_ne hne]
      exact H.above hi
    · rw [Function.update_of_ne hij]
      by_cases hpj : i / 2 = j
      · rw [hpj, Function.update_self]
        have hch : key (h j) ≤ key (h i) := hpj ▸ H.ordered i hi hn
        exact le_trans (le_of_lt hlt) hch
      · rw [Function.update_of_ne hpj]
        exact H.ordered i hi hn
  · rw [hc, Function.update_self]
    exact le_of_lt hlt

/-- `x` passes an element it does not come before. -/
theorem Carry.pass (H : Carry key n h j x) (hle : ¬ key x < key (h j)) (hc : c / 2 = j) :
    Carry key n h c x :=
  ⟨H.ordered, fun _ => hc ▸ le_of_not_gt hle⟩

/-- The place after the last one. -/
theorem Carry.last (H : Carry key n h (n + 1) x) :
    Ordered key (n + 1) (Function.update h (n + 1) x) := by
  intro i hi hn
  have hne : i / 2 ≠ n + 1 := by omega
  rw [Function.update_of_ne hne]
  by_cases hin : i = n + 1
  · subst hin
    rw [Function.update_self]
    exact H.above hi
  · rw [Function.update_of_ne hin]
    exact H.ordered i hi (by omega)

/-! ### An element that may come after its children -/

/-- The heap is ordered but for the element at `j` and its children, and these do not come before
the parent of `j`. -/
structure Sifting (key : α → κ) (n : Nat) (h : Nat → α) (j : Nat) : Prop where
  except : ∀ i, 2 ≤ i → i ≤ n → i / 2 ≠ j → key (h (i / 2)) ≤ key (h i)
  grand : ∀ i, i ≤ n → i / 2 = j → 2 ≤ j → key (h (j / 2)) ≤ key (h i)

/-- `x` in the place of another. -/
theorem Carry.place (H : Carry key n h j x) (hj : 1 ≤ j) (hjn : j ≤ n) :
    Sifting key n (Function.update h j x) j := by
  refine ⟨fun i hi hn hp => ?_, fun i hn hp h2 => ?_⟩
  · rw [Function.update_of_ne hp]
    by_cases hij : i = j
    · subst hij
      rw [Function.update_self]
      exact H.above hi
    · rw [Function.update_of_ne hij]
      exact H.ordered i hi hn
  · have hne : j / 2 ≠ j := by omega
    have hij : i ≠ j := by omega
    rw [Function.update_of_ne hne, Function.update_of_ne hij]
    have hup : key (h (j / 2)) ≤ key (h j) := H.ordered j h2 hjn
    have hdown : key (h j) ≤ key (h i) := hp ▸ H.ordered i (by omega) hn
    exact le_trans hup hdown

/-- The elements at two positions change places. -/
def exchange (h : Nat → α) (j c : Nat) : Nat → α :=
  Function.update (Function.update h j (h c)) c (h j)

@[simp] theorem exchange_right : exchange h j c c = h j := Function.update_self _ _ _

theorem exchange_left (hne : j ≠ c) : exchange h j c j = h c := by
  rw [exchange, Function.update_of_ne hne, Function.update_self]

theorem exchange_of_ne {i : Nat} (hj : i ≠ j) (hc : i ≠ c) : exchange h j c i = h i := by
  rw [exchange, Function.update_of_ne hc, Function.update_of_ne hj]

/-- The element goes down below the child that comes first. -/
theorem Sifting.swap (H : Sifting key n h j) (hj : 1 ≤ j) (hc : c / 2 = j) (hcn : c ≤ n)
    (hlt : key (h c) < key (h j)) (hmin : ∀ i, i ≤ n → i / 2 = j → key (h c) ≤ key (h i)) :
    Sifting key n (exchange h j c) c := by
  have hjc : j ≠ c := by omega
  refine ⟨fun i hi hn hp => ?_, fun i hn hp _ => ?_⟩
  · by_cases hij : i = j
    · subst hij
      rw [exchange_left hjc, exchange_of_ne (by omega) hp]
      exact H.grand c hcn hc hi
    · by_cases hic : i = c
      · subst hic
        rw [hc, exchange_left hjc, exchange_right]
        exact le_of_lt hlt
      · rw [exchange_of_ne hij hic]
        by_cases hpj : i / 2 = j
        · rw [hpj, exchange_left hjc]
          exact hmin i hn hpj
        · rw [exchange_of_ne hpj hp]
          exact H.except i hi hn hpj
  · have hij : i ≠ j := by omega
    have hic : i ≠ c := by omega
    rw [hc, exchange_left hjc, exchange_of_ne hij hic]
    have hdown : key (h (i / 2)) ≤ key (h i) := H.except i (by omega) hn (by omega)
    rwa [hp] at hdown

/-- The element has come to its place. -/
theorem Sifting.done (H : Sifting key n h j)
    (hmin : ∀ i, 2 ≤ i → i ≤ n → i / 2 = j → key (h j) ≤ key (h i)) : Ordered key n h := by
  intro i hi hn
  by_cases hp : i / 2 = j
  · rw [hp]
    exact hmin i hi hn hp
  · exact H.except i hi hn hp

/-! ### What is in the heap -/

/-- `x` is at some position of the heap. -/
def Holds (n : Nat) (h : Nat → α) (x : α) : Prop :=
  ∃ i, 1 ≤ i ∧ i ≤ n ∧ h i = x

theorem holds_zero : ¬ Holds 0 h x := by
  rintro ⟨i, h1, h0, -⟩
  omega

theorem holds_at {i : Nat} (hi : 1 ≤ i) (hn : i ≤ n) : Holds n h (h i) := ⟨i, hi, hn, rfl⟩

/-- A new element at the place after the last one. -/
theorem holds_last : Holds (n + 1) (Function.update h (n + 1) x) y ↔ Holds n h y ∨ y = x := by
  constructor
  · rintro ⟨i, h1, hn, rfl⟩
    by_cases hi : i = n + 1
    · subst hi
      exact .inr (Function.update_self _ _ _)
    · rw [Function.update_of_ne hi]
      exact .inl (holds_at h1 (by omega))
  · rintro (⟨i, h1, hn, rfl⟩ | rfl)
    · exact ⟨i, h1, by omega, Function.update_of_ne (by omega) _ _⟩
    · exact ⟨n + 1, by omega, Nat.le_refl _, Function.update_self _ _ _⟩

/-- The last element is taken off a heap without repetition. -/
theorem holds_pred (hinj : ∀ i, 1 ≤ i → i ≤ n + 1 → h i = h (n + 1) → i = n + 1) :
    Holds n h y ↔ Holds (n + 1) h y ∧ y ≠ h (n + 1) := by
  constructor
  · rintro ⟨i, h1, hn, rfl⟩
    refine ⟨⟨i, h1, by omega, rfl⟩, fun e => ?_⟩
    have hi : i = n + 1 := hinj i h1 (by omega) e
    omega
  · rintro ⟨⟨i, h1, hn, rfl⟩, hne⟩
    have hi : i ≠ n + 1 := fun e => hne (by rw [e])
    exact ⟨i, h1, by omega, rfl⟩

/-- One element takes the place of another, in a heap without repetition. -/
theorem holds_update (hj : 1 ≤ j) (hjn : j ≤ n)
    (hinj : ∀ i, 1 ≤ i → i ≤ n → h i = h j → i = j) :
    Holds n (Function.update h j x) y ↔ (Holds n h y ∧ y ≠ h j) ∨ y = x := by
  constructor
  · rintro ⟨i, h1, hn, rfl⟩
    by_cases hi : i = j
    · subst hi
      exact .inr (Function.update_self _ _ _)
    · rw [Function.update_of_ne hi]
      exact .inl ⟨holds_at h1 hn, fun e => hi (hinj i h1 hn e)⟩
  · rintro (⟨⟨i, h1, hn, rfl⟩, hne⟩ | rfl)
    · exact ⟨i, h1, hn, Function.update_of_ne (fun e => hne (by rw [e])) _ _⟩
    · exact ⟨j, hj, hjn, Function.update_self _ _ _⟩

theorem holds_exchange (hj : 1 ≤ j) (hjn : j ≤ n) (hc : 1 ≤ c) (hcn : c ≤ n) (hne : j ≠ c) :
    Holds n (exchange h j c) y ↔ Holds n h y := by
  constructor
  · rintro ⟨i, h1, hn, rfl⟩
    by_cases hic : i = c
    · rw [hic, exchange_right]
      exact holds_at hj hjn
    · by_cases hij : i = j
      · rw [hij, exchange_left hne]
        exact holds_at hc hcn
      · rw [exchange_of_ne hij hic]
        exact holds_at h1 hn
  · rintro ⟨i, h1, hn, rfl⟩
    by_cases hic : i = c
    · exact ⟨j, hj, hjn, by rw [exchange_left hne, hic]⟩
    · by_cases hij : i = j
      · exact ⟨c, hc, hcn, by rw [exchange_right, hij]⟩
      · exact ⟨i, h1, hn, exchange_of_ne hij hic⟩

end BinaryHeap
