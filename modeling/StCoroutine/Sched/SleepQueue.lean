import StCoroutine.Lib.Lts
import StCoroutine.Sched.TimeoutHeap

/-!
# SleepQueue — what the timeout heap does to the set of sleeping threads

`heap_insert` and `heap_delete` are followed along the array `h` that the pointers stand for.  On
the way down a thread is carried that is not in the heap: where it comes before the thread at the
place it takes that place, and the other is carried on.  The heap stands for an array at every
step (`Rep.swapIn`), so the loop never reads through `NULL`, and at its end the carried thread is
put in the place the index names.  `heap_delete` then lets it sink (`siftDown_spec`).
-/

set_option autoImplicit false

namespace StCoroutine.Sched.SleepQ

open BinaryHeap

variable {q q' : SleepQ} {n j i : Nat} {h : Nat → Tid} {x t y : Tid} {s p : Slot}
  {v l r : Option Tid}

/-! ### Reading and writing the fields -/

@[simp] theorem deref_store_self : (q.store p v).deref p = v := by
  cases p <;> simp [store, deref]

theorem deref_store_of_ne (hne : s ≠ p) : (q.store p v).deref s = q.deref s := by
  cases p <;> cases s <;> simp_all [store, deref, Function.update_of_ne]

theorem deref_setChildren :
    (q.setChildren t l r).deref s =
      if s = .left t then l else if s = .right t then r else q.deref s := by
  cases s <;> simp [setChildren, deref, Function.update_apply]

@[simp] theorem deref_setIndex : (q.setIndex t i).deref s = q.deref s := by cases s <;> rfl

@[simp] theorem heapIndex_store : (q.store p v).heapIndex = q.heapIndex := by cases p <;> rfl

@[simp] theorem due_store : (q.store p v).due = q.due := by cases p <;> rfl

@[simp] theorem size_store : (q.store p v).size = q.size := by cases p <;> rfl

@[simp] theorem left_eq : q.left t = q.deref (.left t) := rfl

@[simp] theorem right_eq : q.right t = q.deref (.right t) := rfl

/-! ### Places -/

theorem slot_even : slot h (2 * j) = .left (h j) := by
  have h1 : 2 * j ≠ 1 := by omega
  have h2 : 2 * j % 2 = 0 := by omega
  have h3 : 2 * j / 2 = j := by omega
  simp only [slot, h1, h2, h3, if_false, if_true]

theorem slot_odd (hj : 1 ≤ j) : slot h (2 * j + 1) = .right (h j) := by
  have h1 : 2 * j + 1 ≠ 1 := by omega
  have h2 : (2 * j + 1) % 2 ≠ 0 := by omega
  have h3 : (2 * j + 1) / 2 = j := by omega
  simp only [slot, h1, h2, h3, if_false]

/-- A place is the left or the right child of its parent. -/
theorem child_cases (i : Nat) : i = 2 * (i / 2) ∨ i = 2 * (i / 2) + 1 := by omega

/-- The pointer to a place depends on its parent only. -/
theorem slot_congr {h' : Nat → Tid} (hp : h (i / 2) = h' (i / 2)) : slot h i = slot h' i := by
  simp only [slot, hp]

theorem at?_of_le (hn : i ≤ n) : at? n h i = some (h i) := if_pos hn

theorem at?_of_gt (hn : n < i) : at? n h i = none := if_neg (Nat.not_le.mpr hn)

theorem at?_congr {h' : Nat → Tid} (hp : h i = h' i) : at? n h i = at? n h' i := by
  simp only [at?, hp]

/-- The pointers of a thread that is not in the heap lead to no place of it. -/
theorem slot_ne_of_fresh (hx : ¬ Holds n h x) (hi : 1 ≤ i) (hn : i / 2 ≤ n) :
    slot h i ≠ .left x ∧ slot h i ≠ .right x := by
  have hne : 2 ≤ i → h (i / 2) ≠ x := fun h2 e => hx ⟨i / 2, by omega, hn, e⟩
  rcases Nat.lt_or_ge i 2 with hlt | h2
  · have e : i = 1 := by omega
    subst e
    exact ⟨by simp [slot], by simp [slot]⟩
  · rcases child_cases i with e | e
    · rw [e, slot_even]
      exact ⟨fun hs => hne h2 (Slot.left.inj hs), by simp⟩
    · rw [e, slot_odd (by omega)]
      exact ⟨by simp, fun hs => hne h2 (Slot.right.inj hs)⟩

theorem Rep.inj (R : q.Rep n h) {k : Nat} (hi : 1 ≤ i) (hn : i ≤ n) (hk : 1 ≤ k) (hkn : k ≤ n)
    (e : h i = h k) : i = k := by
  rw [← R.index i hi hn, e, R.index k hk hkn]

/-- Different places are reached through different pointers. -/
theorem Rep.slot_inj (R : q.Rep n h) {k : Nat} (hi : 1 ≤ i) (hn : i / 2 ≤ n) (hk : 1 ≤ k)
    (hkn : k / 2 ≤ n) (e : slot h i = slot h k) : i = k := by
  rcases Nat.lt_or_ge i 2 with hlt | h2 <;> rcases Nat.lt_or_ge k 2 with hlt' | h2'
  · omega
  · obtain rfl : i = 1 := by omega
    rcases child_cases k with e' | e' <;> rw [e'] at e
    · rw [slot_even] at e
      simp [slot] at e
    · rw [slot_odd (by omega)] at e
      simp [slot] at e
  · obtain rfl : k = 1 := by omega
    rcases child_cases i with e' | e' <;> rw [e'] at e
    · rw [slot_even] at e
      simp [slot] at e
    · rw [slot_odd (by omega)] at e
      simp [slot] at e
  · have hpar : h (i / 2) = h (k / 2) → i / 2 = k / 2 :=
      R.inj (by omega) hn (by omega) hkn
    rcases child_cases i with e₁ | e₁ <;> rcases child_cases k with e₂ | e₂ <;>
      rw [e₁, e₂] at e
    · rw [slot_even, slot_even] at e
      have := hpar (Slot.left.inj e)
      omega
    · rw [slot_even, slot_odd (by omega)] at e
      cases e
    · rw [slot_odd (by omega), slot_even] at e
      cases e
    · rw [slot_odd (by omega), slot_odd (by omega)] at e
      have := hpar (Slot.right.inj e)
      omega

theorem Rep.deref_slot (R : q.Rep n h) (hi : 1 ≤ i) (hn : i ≤ n) :
    q.deref (slot h i) = some (h i) := by
  rw [R.ptr i hi (by omega), at?_of_le hn]

theorem childIndex_div (target bit : Nat) : childIndex target bit j / 2 = j := by
  rw [childIndex]
  split <;> omega

theorem childSlot_eq (target bit : Nat) (hj : 1 ≤ j) :
    childSlot target bit (h j) = slot h (childIndex target bit j) := by
  rw [childSlot, childIndex]
  split
  · rw [slot_odd hj]
  · rw [slot_even]

/-- The digits of an index, read from the first on, lead from the root to its place. -/
theorem childIndex_eq {target bit : Nat} (hj : target / 2 ^ (bit + 1) = j) :
    childIndex target bit j = target / 2 ^ bit := by
  have hb : target / 2 ^ bit = 2 * j + target / 2 ^ bit % 2 := by
    rw [← hj, Nat.pow_succ, ← Nat.div_div_eq_div_mul]
    omega
  simp only [childIndex, Nat.testBit_eq_decide_div_mod_eq, decide_eq_true_eq]
  split <;> omega

theorem countBits_spec (fuel : Nat) : ∀ s b, s ≤ fuel → s ≠ 0 →
    ∃ k, countBits fuel s b = b + k + 1 ∧ s / 2 ^ k = 1 := by
  induction fuel with
  | zero =>
      intro s b hs h0
      omega
  | succ fuel ih =>
      intro s b hs h0
      rw [countBits, if_neg h0]
      by_cases h1 : s / 2 = 0
      · refine ⟨0, ?_, by omega⟩
        rw [h1]
        cases fuel <;> simp [countBits]
      · obtain ⟨k, hk, hd⟩ := ih (s / 2) (b + 1) (by omega) h1
        refine ⟨k + 1, by omega, ?_⟩
        rwa [Nat.pow_succ, Nat.mul_comm, ← Nat.div_div_eq_div_mul]

/-- The way to a place starts at the root. -/
theorem depth_spec (hi : i ≠ 0) : i / 2 ^ depth i = 1 := by
  obtain ⟨k, hk, hd⟩ := countBits_spec i i 0 (Nat.le_refl i) hi
  have e : depth i = k := by rw [depth, hk]; omega
  rwa [e]

/-! ### What a change of the pointers does to the array -/

/-- `x`, from outside the heap, in the place `j` with the children of the thread there. -/
theorem Rep.place (R : q.Rep n h) (hj : 1 ≤ j) (hjn : j ≤ n) (hx : ¬ Holds n h x)
    (hptr : ∀ s, q'.deref s = if s = slot h j then some x
      else if s = .left x then q.deref (.left (h j))
      else if s = .right x then q.deref (.right (h j)) else q.deref s)
    (hidx : q'.heapIndex = Function.update q.heapIndex x j) :
    q'.Rep n (Function.update h j x) := by
  have hfresh := fun i hi hn => slot_ne_of_fresh (i := i) hx hi hn
  refine ⟨fun i hi hn => ?_, fun i hi hn => ?_⟩
  · by_cases hpj : i / 2 = j
    · -- a child of the place: `x` points to it
      have hij : i ≠ j := by omega
      have hne : slot (Function.update h j x) i ≠ slot h j := by
        have hxj := hfresh j hj (by omega)
        rcases child_cases i with e | e <;> rw [e, hpj]
        · rw [slot_even, Function.update_self]
          exact hxj.1.symm
        · rw [slot_odd hj, Function.update_self]
          exact hxj.2.symm
      rw [hptr, if_neg hne, at?_congr (Function.update_of_ne hij x h), ← R.ptr i hi hn]
      rcases child_cases i with e | e <;> rw [e, hpj]
      · rw [slot_even, slot_even, Function.update_self, if_pos rfl]
      · rw [slot_odd hj, slot_odd hj, Function.update_self, if_neg (by simp), if_pos rfl]
    · have hs : slot (Function.update h j x) i = slot h i :=
        slot_congr (Function.update_of_ne hpj x h)
      by_cases hij : i = j
      · subst hij
        rw [hptr, hs, if_pos rfl, at?_of_le hjn, Function.update_self]
      · obtain ⟨hl, hr⟩ := hfresh i hi hn
        have hne : slot h i ≠ slot h j := fun e => hij (R.slot_inj hi hn hj (by omega) e)
        rw [hptr, hs, if_neg hne, if_neg hl, if_neg hr, R.ptr i hi hn,
          at?_congr (Function.update_of_ne hij x h)]
  · by_cases hij : i = j
    · subst hij
      rw [hidx, Function.update_self, Function.update_self]
    · have hne : h i ≠ x := fun e => hx ⟨i, hi, hn, e⟩
      rw [hidx, Function.update_of_ne hij, Function.update_of_ne hne]
      exact R.index i hi hn

/-- `x`, from outside the heap, as a leaf in the place after the last one. -/
theorem Rep.leaf (R : q.Rep n h) (hx : ¬ Holds n h x)
    (hptr : ∀ s, q'.deref s = if s = .left x then none else if s = .right x then none
      else if s = slot h (n + 1) then some x else q.deref s)
    (hidx : q'.heapIndex = Function.update q.heapIndex x (n + 1)) :
    q'.Rep (n + 1) (Function.update h (n + 1) x) := by
  refine ⟨fun i hi hn => ?_, fun i hi hn => ?_⟩
  · by_cases hpn : i / 2 = n + 1
    · rw [hptr, at?_of_gt (by omega)]
      rcases child_cases i with e | e <;> rw [e, hpn]
      · rw [slot_even, Function.update_self, if_pos rfl]
      · rw [slot_odd (by omega), Function.update_self, if_neg (by simp), if_pos rfl]
    · have hn' : i / 2 ≤ n := by omega
      have hs : slot (Function.update h (n + 1) x) i = slot h i :=
        slot_congr (Function.update_of_ne hpn x h)
      obtain ⟨hl, hr⟩ := slot_ne_of_fresh hx hi hn'
      rw [hptr, hs, if_neg hl, if_neg hr]
      by_cases hin : i = n + 1
      · subst hin
        rw [if_pos rfl, at?_of_le (Nat.le_refl _), Function.update_self]
      · have hne : slot h i ≠ slot h (n + 1) :=
          fun e => hin (R.slot_inj hi hn' (by omega) (by omega) e)
        rw [if_neg hne, R.ptr i hi hn', at?, at?, Function.update_of_ne hin]
        have hiff : i ≤ n ↔ i ≤ n + 1 := by omega
        simp only [hiff]
  · by_cases hin : i = n + 1
    · subst hin
      rw [hidx, Function.update_self, Function.update_self]
    · have hne : h i ≠ x := fun e => hx ⟨i, hi, by omega, e⟩
      rw [hidx, Function.update_of_ne hin, Function.update_of_ne hne]
      exact R.index i hi (by omega)

/-- The last thread is unlinked. -/
theorem Rep.unlink (R : q.Rep (n + 1) h) : (q.unlink (slot h (n + 1))).Rep n h := by
  have hptr : ∀ s, (q.unlink (slot h (n + 1))).deref s =
      (q.store (slot h (n + 1)) none).deref s := by
    intro s
    cases s <;> rfl
  refine ⟨fun i hi hn => ?_, fun i hi hn => ?_⟩
  · rw [hptr]
    by_cases hin : i = n + 1
    · subst hin
      rw [deref_store_self, at?_of_gt (by omega)]
    · have hne : slot h i ≠ slot h (n + 1) :=
        fun e => hin (R.slot_inj hi (by omega) (by omega) (by omega) e)
      rw [deref_store_of_ne hne, R.ptr i hi (by omega), at?, at?]
      have hiff : i ≤ n ↔ i ≤ n + 1 := by omega
      simp only [hiff]
  · show (q.store (slot h (n + 1)) none).heapIndex (h i) = i
    rw [heapIndex_store]
    exact R.index i hi (by omega)

/-- The pointers after `t` and its child `y` changed places. -/
theorem deref_sink :
    (q.sink p t y).deref s = if s = .left t then q.left y else if s = .right t then q.right y
      else if q.left t = some y then
        (if s = .left y then some t else if s = .right y then q.right t
          else (q.store p (some y)).deref s)
      else if s = .left y then q.left t else if s = .right y then some t
        else (q.store p (some y)).deref s := by
  rw [sink, deref_setIndex, deref_setIndex, deref_setChildren]
  by_cases hy : q.left t = some y
  · simp only [hy, if_true, deref_setChildren]
  · simp only [hy, if_false, deref_setChildren]

theorem heapIndex_sink :
    (q.sink p t y).heapIndex =
      Function.update (Function.update q.heapIndex t (q.heapIndex y)) y (q.heapIndex t) := by
  rw [sink]
  split <;> simp [setIndex, setChildren]

@[simp] theorem due_sink : (q.sink p t y).due = q.due := by
  rw [sink]
  split <;> simp [setIndex, setChildren]

@[simp] theorem size_sink : (q.sink p t y).size = q.size := by
  rw [sink]
  split <;> simp [setIndex, setChildren]

/-- A thread and its child change places. -/
theorem Rep.sink {c : Nat} (R : q.Rep n h) (hj : 1 ≤ j) (hc : c / 2 = j) (hcn : c ≤ n) :
    (q.sink (slot h j) (h j) (h c)).Rep n (exchange h j c) ∧
      (if q.left (h j) = some (h c) then Slot.left (h c) else .right (h c)) =
        slot (exchange h j c) c := by
  have hjc : j ≠ c := by omega
  have hjn : j ≤ n := by omega
  have hty : h j ≠ h c := fun e => hjc (R.inj hj hjn (by omega) hcn e)
  have hleft : q.left (h j) = at? n h (2 * j) := by
    rw [left_eq, ← R.ptr (2 * j) (by omega) (by omega), slot_even]
  have hright : q.right (h j) = at? n h (2 * j + 1) := by
    rw [right_eq, ← R.ptr (2 * j + 1) (by omega) (by omega), slot_odd hj]
  -- the child is the left one exactly when its place says so
  have hside : q.left (h j) = some (h c) ↔ c = 2 * j := by
    rw [hleft]
    constructor
    · intro e
      rcases child_cases c with e' | e'
      · omega
      · rw [at?_of_le (by omega), Option.some.injEq] at e
        have := R.inj (by omega) (by omega) (by omega) hcn e
        omega
    · rintro rfl
      exact at?_of_le hcn
  have hxj : exchange h j c j = h c := exchange_left hjc
  refine ⟨⟨fun i hi hn => ?_, fun i hi hn => ?_⟩, ?_⟩
  · rw [deref_sink]
    by_cases hpc : i / 2 = c
    · -- a child of the child goes to `t`
      have hij : i ≠ j := by omega
      have hic : i ≠ c := by omega
      rw [at?_congr (exchange_of_ne hij hic), ← R.ptr i hi hn]
      rcases child_cases i with e | e <;> rw [e, hpc]
      · rw [slot_even, slot_even, exchange_right, if_pos rfl]
        rfl
      · rw [slot_odd (by omega), slot_odd (by omega), exchange_right, if_neg (by simp),
          if_pos rfl]
        rfl
    · by_cases hpj : i / 2 = j
      · -- a child of `t` goes to `y`, but for `y` itself
        have hij : i ≠ j := by omega
        rcases child_cases i with e | e <;> rw [e, hpj]
        · rw [slot_even, hxj, if_neg (by simpa using hty.symm), if_neg (by simp)]
          by_cases hc2 : c = 2 * j
          · rw [if_pos (hside.mpr hc2), if_pos rfl, at?_of_le (by omega), ← hc2, exchange_right]
          · rw [if_neg (mt hside.mp hc2), if_pos rfl, hleft,
              at?_congr (exchange_of_ne (by omega) (Ne.symm hc2))]
        · rw [slot_odd hj, hxj, if_neg (by simp), if_neg (by simpa using hty.symm)]
          by_cases hc2 : c = 2 * j
          · rw [if_pos (hside.mpr hc2), if_neg (by simp), if_pos rfl, hright,
              at?_congr (exchange_of_ne (by omega) (by omega))]
          · have hc3 : c = 2 * j + 1 := by omega
            rw [if_neg (mt hside.mp hc2), if_neg (by simp), if_pos rfl, at?_of_le (by omega),
              ← hc3, exchange_right]
      · -- the other pointers are left alone, but for the one to the place of `t`
        have hsi : slot (exchange h j c) i = slot h i :=
          slot_congr (exchange_of_ne hpj hpc)
        have hnt : slot h i ≠ .left (h j) ∧ slot h i ≠ .right (h j) := by
          rw [← slot_even, ← slot_odd hj]
          exact ⟨fun e => hpj (by have := R.slot_inj hi hn (by omega) (by omega) e; omega),
            fun e => hpj (by have := R.slot_inj hi hn (by omega) (by omega) e; omega)⟩
        have hny : slot h i ≠ .left (h c) ∧ slot h i ≠ .right (h c) := by
          rw [← slot_even, ← slot_odd (by omega)]
          exact ⟨fun e => hpc (by have := R.slot_inj hi hn (by omega) (by omega) e; omega),
            fun e => hpc (by have := R.slot_inj hi hn (by omega) (by omega) e; omega)⟩
        rw [hsi]
        simp only [hnt.1, hnt.2, hny.1, hny.2, if_false, ite_self]
        by_cases hij : i = j
        · subst hij
          rw [deref_store_self, at?_of_le hjn, hxj]
        · have hic : i ≠ c := fun e => hpj (e ▸ hc)
          have hne : slot h i ≠ slot h j := fun e => hij (R.slot_inj hi hn hj (by omega) e)
          rw [deref_store_of_ne hne, R.ptr i hi hn, at?_congr (exchange_of_ne hij hic)]
  · rw [heapIndex_sink]
    by_cases hic : i = c
    · subst hic
      rw [exchange_right, Function.update_of_ne hty, Function.update_self]
      exact R.index i hi hn
    · by_cases hij : i = j
      · subst hij
        rw [hxj, Function.update_self]
        exact R.index i hj hjn
      · have hit : h i ≠ h j := fun e => hij (R.inj hi hn hj hjn e)
        have hiy : h i ≠ h c := fun e => hic (R.inj hi hn (by omega) hcn e)
        rw [exchange_of_ne hij hic, Function.update_of_ne hiy, Function.update_of_ne hit]
        exact R.index i hi hn
  · by_cases hc2 : c = 2 * j
    · rw [if_pos (hside.mpr hc2), hc2, slot_even, ← hc2, hxj]
    · have hc3 : c = 2 * j + 1 := by omega
      rw [if_neg (mt hside.mp hc2), hc3, slot_odd hj, ← hc3, hxj]

/-! ### `heap_insert` -/

theorem Rep.swapIn (R : q.Rep n h) (hj : 1 ≤ j) (hjn : j ≤ n) (hx : ¬ Holds n h x) :
    (q.swapIn x (slot h j) (h j) j).Rep n (Function.update h j x) := by
  refine R.place hj hjn hx (fun s => ?_) ?_
  · rw [SleepQ.swapIn, deref_setIndex]
    by_cases hs : s = slot h j
    · rw [hs, deref_store_self, if_pos rfl]
    · rw [deref_store_of_ne hs, deref_setChildren, if_neg hs]
      rfl
  · simp [SleepQ.swapIn, setIndex, setChildren]

/-- The heap `q` of the array `h`, with `x` to be put in it, was changed to one of `h₁`, with `x₁`
to be put in the place `target`. -/
structure Placing (q q₁ : SleepQ) (n : Nat) (h h₁ : Nat → Tid) (x x₁ : Tid) (target : Nat) :
    Prop where
  rep : q₁.Rep n h₁
  carry : Carry q.due n h₁ target x₁
  fresh : ¬ Holds n h₁ x₁
  holds : ∀ y, Holds n h₁ y ∨ y = x₁ ↔ Holds n h y ∨ y = x
  below : ∀ i, target ≤ i → h₁ i = h i
  due : q₁.due = q.due
  size : q₁.size = q.size

/-- The last statements of `heap_insert`. -/
def finish (q : SleepQ) (x : Tid) (target : Nat) (p : Slot) : SleepQ :=
  ((q.setIndex x target).store p (some x)).setChildren x none none

/-- **The loop of `heap_insert`** puts a thread in the place it was sent to. -/
theorem heapInsertLoop_spec {target : Nat} (ht : target ≤ n + 1) (bit : Nat) :
    ∀ {q : SleepQ} {h : Nat → Tid} {x : Tid} {j : Nat}, q.Rep n h → Carry q.due n h j x →
      ¬ Holds n h x → 1 ≤ j → target / 2 ^ bit = j →
      ∃ q₁ h₁ x₁, q.heapInsertLoop target bit x (slot h j) j =
        some (q₁.finish x₁ target (slot h₁ target), slot h₁ target) ∧
        Placing q q₁ n h h₁ x x₁ target := by
  induction bit with
  | zero =>
      intro q h x j R C hx hj hb
      obtain rfl : target = j := by simpa using hb
      exact ⟨q, h, x, rfl, R, C, hx, fun _ => Iff.rfl, fun _ _ => rfl, rfl, rfl⟩
  | succ bit ih =>
      intro q h x j R C hx hj hb
      have hlt : j ≤ target / 2 := by
        rw [← hb, Nat.pow_succ, Nat.mul_comm, ← Nat.div_div_eq_div_mul]
        exact Nat.div_le_self _ _
      have hjn : j ≤ n := by omega
      have hnext := childIndex_eq hb
      have hdiv := childIndex_div (j := j) target bit
      rw [heapInsertLoop, R.deref_slot hj hjn, Option.bind_some]
      by_cases hd : q.due x < q.due (h j)
      · rw [if_pos hd]
        have hinj : ∀ i, 1 ≤ i → i ≤ n → h i = h j → i = j := fun i hi hn e =>
          R.inj hi hn hj hjn e
        have hxj : x ≠ h j := fun e => hx (e ▸ holds_at hj hjn)
        have hslot : childSlot target bit x =
            slot (Function.update h j x) (childIndex target bit j) := by
          rw [← childSlot_eq target bit hj, Function.update_self]
        have hdue : (q.swapIn x (slot h j) (h j) j).due = q.due := by
          simp [SleepQ.swapIn, setIndex, setChildren]
        have hold : ∀ y, Holds n (Function.update h j x) y ↔ (Holds n h y ∧ y ≠ h j) ∨ y = x :=
          fun y => holds_update hj hjn hinj
        obtain ⟨q₁, h₁, x₁, hrun, P⟩ := ih (R.swapIn hj hjn hx) (hdue ▸ C.swap hj hd hdiv)
          (by rw [hold]; rintro (⟨-, hne⟩ | e); exacts [hne rfl, hxj e.symm]) (by omega)
          hnext.symm
        rw [hslot, hrun]
        refine ⟨q₁, h₁, x₁, rfl, P.rep, hdue ▸ P.carry, P.fresh, fun y => ?_, fun i hi => ?_,
          P.due.trans hdue, P.size.trans (by simp [SleepQ.swapIn, setIndex, setChildren])⟩
        · rw [P.holds, hold]
          by_cases hy : y = h j
          · exact iff_of_true (.inr hy) (.inl (hy ▸ holds_at hj hjn))
          · simp only [hy, ne_eq, not_false_eq_true, and_true, or_false]
        · rw [P.below i hi, Function.update_of_ne (by omega)]
      · rw [if_neg hd, childSlot_eq target bit hj]
        exact ih R (C.pass hd hdiv) hx (by omega) hnext.symm

/-- From the root on. -/
theorem heapInsert_spec {target : Nat} (R : q.Rep n h) (ho : Ordered q.due n h)
    (hx : ¬ Holds n h x) (hi : q.heapIndex x = target) (h1 : 1 ≤ target) (ht : target ≤ n + 1) :
    ∃ q₁ h₁ x₁, q.heapInsert x =
      some (q₁.finish x₁ target (slot h₁ target), slot h₁ target) ∧
      Placing q q₁ n h h₁ x x₁ target := by
  rw [heapInsert, hi]
  exact heapInsertLoop_spec ht (depth target) R (Carry.start ho) hx (Nat.le_refl 1)
    (depth_spec (by omega))

/-! ### `heap_delete` -/

theorem lastSlot_spec (R : q.Rep q.size h) (bit : Nat) : ∀ {j}, 1 ≤ j →
    q.size / 2 ^ bit = j → q.lastSlot bit (slot h j) = some (slot h q.size) := by
  induction bit with
  | zero =>
      intro j _ hb
      obtain rfl : q.size = j := by simpa using hb
      rfl
  | succ bit ih =>
      intro j hj hb
      have hjn : j ≤ q.size := by
        rw [← hb]
        exact Nat.div_le_self _ _
      have hdiv := childIndex_div (j := j) q.size bit
      rw [lastSlot, R.deref_slot hj hjn, Option.bind_some, childSlot_eq q.size bit hj]
      exact ih (by omega) (childIndex_eq hb).symm

/-- The younger child is one that comes first. -/
theorem younger_spec (R : q.Rep n h) (hj : 1 ≤ j) (hjn : j ≤ n) :
    (q.younger (h j) = none ∧ n < 2 * j) ∨
      ∃ c, c / 2 = j ∧ c ≤ n ∧ q.younger (h j) = some (h c) ∧
        ∀ i, i ≤ n → i / 2 = j → q.due (h c) ≤ q.due (h i) := by
  have hleft : q.left (h j) = at? n h (2 * j) := by
    rw [left_eq, ← R.ptr (2 * j) (by omega) (by omega), slot_even]
  have hright : q.right (h j) = at? n h (2 * j + 1) := by
    rw [right_eq, ← R.ptr (2 * j + 1) (by omega) (by omega), slot_odd hj]
  rw [younger, hleft, hright]
  rcases Nat.lt_or_ge n (2 * j) with h0 | h0
  · left
    rw [at?_of_gt h0]
    exact ⟨rfl, h0⟩
  · right
    rw [at?_of_le h0]
    rcases Nat.lt_or_ge n (2 * j + 1) with h1 | h1
    · rw [at?_of_gt h1]
      refine ⟨2 * j, by omega, h0, rfl, fun i hi hp => ?_⟩
      obtain rfl : i = 2 * j := by omega
      exact Nat.le_refl _
    · rw [at?_of_le h1]
      by_cases hd : q.due (h (2 * j)) < q.due (h (2 * j + 1))
      · refine ⟨2 * j, by omega, h0, by simp only [hd, if_true], fun i _ hp => ?_⟩
        rcases child_cases i with e | e <;> rw [e, hp]
        exact Nat.le_of_lt hd
      · refine ⟨2 * j + 1, by omega, h1, by simp only [hd, if_false], fun i _ hp => ?_⟩
        rcases child_cases i with e | e <;> rw [e, hp]
        exact Nat.not_lt.mp hd

/-- **The loop of `heap_delete`** lets a thread sink to its place. -/
theorem siftDown_spec (fuel : Nat) : ∀ {q : SleepQ} {h : Nat → Tid} {j : Nat}, q.Rep n h →
    Sifting q.due n h j → 1 ≤ j → j ≤ n → n < fuel + j →
    ∃ q' h', q.siftDown fuel (slot h j) (h j) = some q' ∧ q'.Rep n h' ∧ Ordered q.due n h' ∧
      (∀ y, Holds n h' y ↔ Holds n h y) ∧ q'.due = q.due ∧ q'.size = q.size := by
  induction fuel with
  | zero =>
      intro q h j _ _ _ hjn hfuel
      omega
  | succ fuel ih =>
      intro q h j R F hj hjn hfuel
      have hstop : ∀ q', q' = q → Ordered q.due n h → ∃ q'' h', some q' = some q'' ∧
          q''.Rep n h' ∧ Ordered q.due n h' ∧ (∀ y, Holds n h' y ↔ Holds n h y) ∧
          q''.due = q.due ∧ q''.size = q.size := by
        rintro q' rfl ho
        exact ⟨q', h, rfl, R, ho, fun _ => Iff.rfl, rfl, rfl⟩
      rw [siftDown]
      rcases younger_spec R hj hjn with ⟨hy, hleaf⟩ | ⟨c, hc, hcn, hy, hmin⟩
      · rw [hy]
        exact hstop q rfl (F.done fun i _ hi hp => by omega)
      · rw [hy]
        show ∃ q' h', (if q.due (h c) < q.due (h j) then _ else _) = some q' ∧ _
        by_cases hd : q.due (h c) < q.due (h j)
        · obtain ⟨R', hp⟩ := R.sink hj hc hcn
          have F' := F.swap hj hc hcn hd hmin
          rw [if_pos hd, hp]
          obtain ⟨q', h', hrun, R'', ho, hh, hdue, hsize⟩ :=
            ih R' (by rwa [due_sink]) (by omega) hcn (by omega)
          rw [exchange_right] at hrun
          refine ⟨q', h', hrun, R'', by rwa [due_sink] at ho, fun y => ?_, by rw [hdue, due_sink],
            by rw [hsize, size_sink]⟩
          rw [hh, holds_exchange hj hjn (by omega) hcn (by omega)]
        · rw [if_neg hd]
          refine hstop q rfl (F.done fun i _ hi hp => ?_)
          exact Nat.le_trans (Nat.not_lt.mp hd) (hmin i hi hp)

/-- Fields of threads that are not in the heap do not matter. -/
theorem Rep.congr (R : q.Rep n h) (hptr : ∀ i, 1 ≤ i → i / 2 ≤ n →
    q'.deref (slot h i) = q.deref (slot h i))
    (hidx : ∀ i, 1 ≤ i → i ≤ n → q'.heapIndex (h i) = q.heapIndex (h i)) : q'.Rep n h :=
  ⟨fun i hi hn => (hptr i hi hn).trans (R.ptr i hi hn),
    fun i hi hn => (hidx i hi hn).trans (R.index i hi hn)⟩

theorem Rep.setIndex (R : q.Rep n h) (hx : ¬ Holds n h x) (k : Nat) :
    (q.setIndex x k).Rep n h := by
  refine R.congr (fun _ _ _ => deref_setIndex) fun i hi hn => ?_
  exact Function.update_of_ne (fun e => hx ⟨i, hi, hn, e⟩) _ _

theorem Rep.setChildren (R : q.Rep n h) (hx : ¬ Holds n h x) (l r : Option Tid) :
    (q.setChildren x l r).Rep n h := by
  refine R.congr (fun i hi hn => ?_) fun _ _ _ => rfl
  obtain ⟨hl, hr⟩ := slot_ne_of_fresh hx hi hn
  rw [deref_setChildren, if_neg hl, if_neg hr]

theorem deref_finish {target : Nat} : (q.finish x target p).deref s =
    if s = .left x then none else if s = .right x then none
      else if s = p then some x else q.deref s := by
  rw [finish, deref_setChildren]
  by_cases hs : s = p
  · rw [hs, deref_store_self, if_pos rfl]
  · rw [deref_store_of_ne hs, deref_setIndex, if_neg hs]

/-- **The unlinked thread in the place of another**, and let sink. -/
theorem replace_spec (R : q.Rep n h) (ho : Ordered q.due n h) (hsize : q.size = n)
    (hj : 1 ≤ j) (hjn : j ≤ n) (ht : ¬ Holds n h t) :
    ∃ q' h', q.replace (h j) t = some q' ∧ q'.Rep n h' ∧ Ordered q.due n h' ∧
      (∀ y, Holds n h' y ↔ (Holds n h y ∧ y ≠ h j) ∨ y = t) ∧ q'.due = q.due ∧ q'.size = n := by
  obtain ⟨q₁, h₁, x₁, hrun, P⟩ := heapInsert_spec (R.setIndex ht j) ho ht
    (Function.update_self _ _ _) hj (by omega)
  have hfresh := fun i hi hn => slot_ne_of_fresh (i := i) P.fresh hi hn
  have hxj : h₁ j = h j := P.below j (Nat.le_refl j)
  have hne : h₁ j ≠ x₁ := fun e => P.fresh (e ▸ holds_at hj hjn)
  have hkids : Slot.left (h₁ j) ≠ slot h₁ j ∧ Slot.right (h₁ j) ≠ slot h₁ j := by
    rw [← slot_even, ← slot_odd hj]
    exact ⟨fun e => by have := P.rep.slot_inj (by omega) (by omega) hj (by omega) e; omega,
      fun e => by have := P.rep.slot_inj (by omega) (by omega) hj (by omega) e; omega⟩
  obtain ⟨hpl, hpr⟩ := hfresh j hj (by omega)
  have hnode : (q₁.finish x₁ j (slot h₁ j)).deref (slot h₁ j) = some x₁ := by
    rw [deref_finish, if_neg hpl, if_neg hpr, if_pos rfl]
  have hl : (q₁.finish x₁ j (slot h₁ j)).left (h j) = q₁.left (h₁ j) := by
    rw [left_eq, ← hxj, deref_finish, if_neg (by simpa using hne), if_neg (by simp),
      if_neg hkids.1]
    rfl
  have hr : (q₁.finish x₁ j (slot h₁ j)).right (h j) = q₁.right (h₁ j) := by
    rw [right_eq, ← hxj, deref_finish, if_neg (by simp), if_neg (by simpa using hne),
      if_neg hkids.2]
    rfl
  have hplace : ((q₁.finish x₁ j (slot h₁ j)).setChildren x₁ (q₁.left (h₁ j))
      (q₁.right (h₁ j))).Rep n (Function.update h₁ j x₁) := by
    refine P.rep.place hj hjn P.fresh (fun s => ?_) ?_
    · rw [deref_setChildren, deref_finish]
      by_cases hsp : s = slot h₁ j
      · rw [hsp, if_neg hpl, if_neg hpr, if_neg hpl, if_neg hpr, if_pos rfl, if_pos rfl]
      · simp only [hsp, if_false]
        by_cases hs1 : s = .left x₁
        · simp [hs1]
        · by_cases hs2 : s = .right x₁ <;> simp [hs1, hs2]
    · simp [finish, SleepQ.setChildren, SleepQ.setIndex]
  have hslot : slot h₁ j = slot (Function.update h₁ j x₁) j :=
    (slot_congr (Function.update_of_ne (by omega) _ _)).symm
  have hdue : ∀ l r, ((q₁.finish x₁ j (slot h₁ j)).setChildren x₁ l r).due = q.due := by
    intro l r
    rw [show q.due = q₁.due from P.due.symm]
    simp [finish, SleepQ.setChildren, SleepQ.setIndex]
  have hsz : (q₁.finish x₁ j (slot h₁ j)).size = n := by
    rw [← hsize, show q.size = q₁.size from P.size.symm]
    simp [finish, SleepQ.setChildren, SleepQ.setIndex]
  have hsift : Sifting q.due n (Function.update h₁ j x₁) j := P.carry.place hj hjn
  obtain ⟨q', h', hdone, R', ho', hh, hd, hs⟩ := siftDown_spec (n + 1) hplace
    (by rwa [hdue]) hj hjn (by omega)
  rw [Function.update_self, ← hslot] at hdone
  refine ⟨q', h', ?_, R', by rwa [hdue] at ho', fun y => ?_, hd.trans (hdue _ _), hs.trans hsz⟩
  · rw [replace, R.index j hj hjn, hrun, Option.bind_some]
    show ((q₁.finish x₁ j (slot h₁ j)).deref (slot h₁ j)).bind _ = _
    rw [hnode, Option.bind_some, hsz, hl, hr]
    exact hdone
  · rw [hh, holds_update hj hjn fun i hi hn e => P.rep.inj hi hn hj hjn e, hxj]
    have hy := P.holds y
    by_cases hyj : y = h j
    · -- the thread that was replaced is gone
      have hyt : y ≠ t := fun e => ht (by rw [← e, hyj]; exact holds_at hj hjn)
      have hyx : y ≠ x₁ := fun e => hne (by rw [hxj, ← hyj, e])
      simp [hyj ▸ hyt, hyj ▸ hyx, hyj]
    · simpa [hyj] using hy

/-! ### The set of sleeping threads -/

/-- `_st_add_sleep_q`, but for the flag: `thread` is due `timeout` after the last clock. -/
def add (q : SleepQ) (lastClock : Nat) (thread : Tid) (timeout : Nat) : Option SleepQ :=
  let q := { q with due := Function.update q.due thread ((lastClock + timeout) % 2 ^ 64) }
  let q := { q with size := q.size + 1 }
  ((q.setIndex thread q.size).heapInsert thread).map Prod.fst

variable {S : Tid → Prop}

theorem sleeps_init : init.Sleeps fun _ => False := by
  refine ⟨fun _ => 0, ⟨fun i hi hn => ?_, fun i hi hn => ?_⟩, fun i hi hn => ?_, fun t => ?_⟩
  · obtain rfl : i = 1 := by
      have : i / 2 ≤ 0 := hn
      omega
    rfl
  · exact absurd hn (by show ¬ i ≤ 0; omega)
  · exact absurd hn (by show ¬ i ≤ 0; omega)
  · exact iff_of_false not_false holds_zero

theorem Sleeps.congr {S' : Tid → Prop} (H : q.Sleeps S) (hS : ∀ t, S' t ↔ S t) : q.Sleeps S' := by
  obtain ⟨h, R, ho, hh⟩ := H
  exact ⟨h, R, ho, fun t => (hS t).trans (hh t)⟩

/-- **`_st_add_sleep_q`**: the thread is one of the sleeping threads. -/
theorem add_spec (H : q.Sleeps S) (hx : ¬ S x) (clock timeout : Nat) :
    ∃ q', q.add clock x timeout = some q' ∧ q'.Sleeps (fun t => S t ∨ t = x) ∧
      q'.due = Function.update q.due x ((clock + timeout) % 2 ^ 64) := by
  obtain ⟨h, R, ho, hh⟩ := H
  rw [hh] at hx
  let d := Function.update q.due x ((clock + timeout) % 2 ^ 64)
  let q₀ : SleepQ := { q with due := d, size := q.size + 1 }
  have hdue : ∀ i, 1 ≤ i → i ≤ q.size → d (h i) = q.due (h i) := fun i hi hn =>
    Function.update_of_ne (fun e => hx ⟨i, hi, hn, e⟩) _ _
  have ho₀ : Ordered d q.size h := by
    intro i hi hn
    rw [hdue _ (by omega) (by omega), hdue _ (by omega) hn]
    exact ho i hi hn
  have R₀ : q₀.Rep q.size h := R.congr (fun i _ _ => by cases slot h i <;> rfl) fun _ _ _ => rfl
  obtain ⟨q₁, h₁, x₁, hrun, P⟩ := heapInsert_spec (R₀.setIndex hx (q.size + 1)) ho₀ hx
    (Function.update_self _ _ _) (by omega) (Nat.le_refl _)
  have hsize : (q₁.finish x₁ (q.size + 1) (slot h₁ (q.size + 1))).size = q.size + 1 := by
    refine Eq.trans ?_ P.size
    simp [finish, SleepQ.setChildren, SleepQ.setIndex]
  have hd : (q₁.finish x₁ (q.size + 1) (slot h₁ (q.size + 1))).due = d := by
    refine Eq.trans ?_ P.due
    simp [finish, SleepQ.setChildren, SleepQ.setIndex]
  refine ⟨q₁.finish x₁ (q.size + 1) (slot h₁ (q.size + 1)), ?_,
    ⟨Function.update h₁ (q.size + 1) x₁, ?_, ?_, fun t => ?_⟩, hd⟩
  · show ((q₀.setIndex x (q.size + 1)).heapInsert x).map Prod.fst = _
    rw [hrun, Option.map_some]
  · rw [hsize]
    refine P.rep.leaf P.fresh (fun s => deref_finish) ?_
    simp [finish, SleepQ.setChildren, SleepQ.setIndex]
  · rw [hsize, hd]
    exact P.carry.last
  · show S t ∨ t = x ↔ _
    rw [hsize, holds_last, hh, P.holds]

/-- **`heap_delete`**: the thread is none of the sleeping threads any more. -/
theorem heapDelete_spec (H : q.Sleeps S) (hx : S x) :
    ∃ q', q.heapDelete x = some q' ∧ q'.Sleeps (fun t => S t ∧ t ≠ x) ∧ q'.due = q.due ∧
      q'.size + 1 = q.size := by
  obtain ⟨h, R, ho, hh⟩ := H
  obtain ⟨j, hj, hjn, rfl⟩ := (hh x).mp hx
  obtain ⟨n, hn⟩ := Nat.exists_eq_add_of_le' (Nat.le_trans hj hjn)
  have hlast := lastSlot_spec R (depth q.size) (Nat.le_refl 1) (depth_spec (by omega))
  have hder := R.deref_slot (i := q.size) (by omega) (Nat.le_refl _)
  rw [hn] at R ho hder hjn hh hlast
  have hunl := R.unlink
  have hd₀ : (q.unlink (slot h (n + 1))).due = q.due := due_store
  have hs₀ : (q.unlink (slot h (n + 1))).size = n := by
    show q.size - 1 = n
    omega
  have ho₀ : Ordered q.due n h := ho.shrink (Nat.le_succ n)
  have hpred : ∀ y, Holds n h y ↔ Holds (n + 1) h y ∧ y ≠ h (n + 1) := fun y =>
    holds_pred fun i hi hle e => R.inj hi hle (by omega) (Nat.le_refl _) e
  have hfresh : ¬ Holds n h (h (n + 1)) := fun e => ((hpred _).mp e).2 rfl
  -- what is left to show of the heap without the thread
  have hend : ∀ (q' : SleepQ) h', q'.Rep n h' → Ordered q.due n h' →
      (∀ y, Holds n h' y ↔ Holds (n + 1) h y ∧ y ≠ h j) → q'.due = q.due → q'.size = n →
      Sleeps (q'.setChildren (h j) none none) (fun t => S t ∧ t ≠ h j) := by
    intro q' h' R' ho' hh' hd' hs'
    have hout : ¬ Holds n h' (h j) := fun e => ((hh' _).mp e).2 rfl
    refine ⟨h', ?_, ?_, fun t => ?_⟩
    · show (q'.setChildren (h j) none none).Rep q'.size h'
      rw [hs']
      exact R'.setChildren hout none none
    · show Ordered q'.due q'.size h'
      rwa [hd', hs']
    · show S t ∧ t ≠ h j ↔ Holds q'.size h' t
      rw [hs', hh', hh]
  rw [heapDelete, show Slot.root = slot h 1 from rfl, hn, hlast, Option.bind_some, hder,
    Option.bind_some]
  by_cases hjl : j = n + 1
  · -- the thread is the last one
    subst hjl
    refine ⟨(q.unlink (slot h (n + 1))).setChildren (h (n + 1)) none none, ?_, ?_, hd₀,
      congrArg (· + 1) hs₀⟩
    · rw [if_neg (not_not.mpr rfl), Option.map_some]
    · exact hend _ h hunl ho₀ hpred hd₀ hs₀
  · have hne : h (n + 1) ≠ h j := fun e =>
      hjl (R.inj hj hjn (by omega) (Nat.le_refl _) e.symm)
    obtain ⟨q', h', hrun, R', ho', hh', hd', hs'⟩ :=
      replace_spec hunl (hd₀ ▸ ho₀) hs₀ hj (by omega) hfresh
    refine ⟨q'.setChildren (h j) none none, ?_, ?_, hd'.trans hd₀,
      congrArg (· + 1) hs'⟩
    · rw [if_pos hne, hrun, Option.map_some]
    · refine hend q' h' R' (hd₀ ▸ ho') (fun y => ?_) (hd'.trans hd₀) hs'
      rw [hh', hpred]
      by_cases hy : y = h (n + 1)
      · subst hy
        exact iff_of_true (.inr rfl) ⟨holds_at (by omega) (Nat.le_refl _), hne⟩
      · simp [hy]

/-- **The root**: no thread is due before it. -/
theorem Sleeps.root (H : q.Sleeps S) :
    (q.sleepq = none ∧ ∀ t, ¬ S t) ∨
      ∃ t, q.sleepq = some t ∧ S t ∧ ∀ u, S u → q.due t ≤ q.due u := by
  obtain ⟨h, R, ho, hh⟩ := H
  have hroot : q.sleepq = at? q.size h 1 := R.ptr 1 (Nat.le_refl 1) (Nat.zero_le _)
  rcases Nat.eq_zero_or_pos q.size with h0 | h0
  · left
    refine ⟨by rw [hroot, at?_of_gt (by omega)], fun t ht => ?_⟩
    rw [hh, h0] at ht
    exact holds_zero ht
  · right
    refine ⟨h 1, by rw [hroot, at?_of_le h0], (hh _).mpr (holds_at (Nat.le_refl 1) h0),
      fun u hu => ?_⟩
    obtain ⟨i, hi, hn, rfl⟩ := (hh u).mp hu
    exact ho.root_le hi hn

/-! ### Runs of the heap -/

/-- What is done to the timeout heap: `_ST_ADD_SLEEPQ` and `_ST_DEL_SLEEPQ`. -/
inductive Op where
  | add (lastClock : Nat) (thread : Tid) (timeout : Nat)
  | del (thread : Tid)
  deriving DecidableEq

/-- The threads that sleep, each with the time until which it does. -/
abbrev Dues := Tid → Option Nat

/-- A thread is added that does not sleep, or deleted that does. -/
def Op.Allowed (f : Dues) : Op → Prop
  | .add _ thread _ => f thread = none
  | .del thread => f thread ≠ none

instance (f : Dues) : (o : Op) → Decidable (o.Allowed f)
  | .add _ _ _ => inferInstanceAs (Decidable (_ = _))
  | .del _ => inferInstanceAs (Decidable (_ ≠ _))

def Op.apply (q : SleepQ) : Op → Option SleepQ
  | .add lastClock thread timeout => q.add lastClock thread timeout
  | .del thread => q.heapDelete thread

def Op.dues (f : Dues) : Op → Dues
  | .add lastClock thread timeout =>
      Function.update f thread (some ((lastClock + timeout) % 2 ^ 64))
  | .del thread => Function.update f thread none

/-- A step of the heap, beside the threads that sleep. -/
def opStep (s : SleepQ × Dues) (o : Op) : Option (SleepQ × Dues) :=
  if o.Allowed s.2 then (o.apply s.1).map fun q => (q, o.dues s.2) else none

/-- The heap is one of the threads that sleep, and has their times. -/
structure Refines (q : SleepQ) (f : Dues) : Prop where
  sleeps : q.Sleeps fun t => f t ≠ none
  due : ∀ t d, f t = some d → q.due t = d

theorem Refines.step {f : Dues} {o : Op} (R : q.Refines f) (ho : o.Allowed f) :
    ∃ q', o.apply q = some q' ∧ q'.Refines (o.dues f) := by
  cases o with
  | add lastClock x timeout =>
      obtain ⟨q', hq, hs, hdue⟩ := add_spec R.sleeps (not_not.mpr ho) lastClock timeout
      refine ⟨q', hq, hs.congr fun t => ?_, fun t d ht => ?_⟩ <;> by_cases hx : t = x
      · simp [Op.dues, hx]
      · simp [Op.dues, hx]
      · subst hx
        simpa [Op.dues, hdue] using ht
      · rw [hdue, Function.update_of_ne hx]
        exact R.due t d (by simpa [Op.dues, hx] using ht)
  | del x =>
      obtain ⟨q', hq, hs, hdue, -⟩ := heapDelete_spec R.sleeps ho
      refine ⟨q', hq, hs.congr fun t => ?_, fun t d ht => ?_⟩ <;> by_cases hx : t = x
      · simp [Op.dues, hx]
      · simp [Op.dues, hx]
      · simp [Op.dues, hx] at ht
      · rw [hdue]
        exact R.due t d (by simpa [Op.dues, hx] using ht)

theorem refines_of_exec {ops : List Op} {f : Dues}
    (h : Lts.exec opStep (init, fun _ => none) ops = some (q, f)) : q.Refines f := by
  have hinit : init.Refines fun _ => none := ⟨sleeps_init.congr (by simp), by simp⟩
  have hkeep : ∀ (s : SleepQ × Dues) o s', s.1.Refines s.2 → opStep s o = some s' →
      s'.1.Refines s'.2 := by
    intro s o s' R hs
    rw [opStep] at hs
    split at hs
    next ho =>
      obtain ⟨q', hq, R'⟩ := R.step ho
      rw [hq] at hs
      cases hs
      exact R'
    next => cases hs
  exact Lts.exec_inv (I := fun s => s.1.Refines s.2) hinit hkeep h

/-- **The timeout heap is a priority queue.**  After every run of additions and deletions its links
and indices are those of a complete heap of exactly the threads that sleep, its root is one that is
due first, and every operation that is allowed ends without reading through `NULL`. -/
theorem timeout_heap_refines {ops : List Op} {f : Dues}
    (h : Lts.exec opStep (init, fun _ => none) ops = some (q, f)) :
    (q.Sleeps fun t => f t ≠ none) ∧ (∀ t d, f t = some d → q.due t = d) ∧
      ((q.sleepq = none ∧ ∀ t, f t = none) ∨ ∃ t d, q.sleepq = some t ∧ f t = some d ∧
        ∀ u e, f u = some e → d ≤ e) ∧
      ∀ o : Op, o.Allowed f → (o.apply q).isSome = true := by
  have R := refines_of_exec h
  refine ⟨R.sleeps, R.due, ?_, fun o ho => ?_⟩
  · rcases R.sleeps.root with ⟨hroot, hn⟩ | ⟨t, hroot, ht, hmin⟩
    · exact .inl ⟨hroot, fun t => not_not.mp (hn t)⟩
    · obtain ⟨d, hd⟩ := Option.ne_none_iff_exists'.mp ht
      refine .inr ⟨t, d, hroot, hd, fun u e hu => ?_⟩
      have hle := hmin u (by rw [hu]; simp)
      rwa [R.due t d hd, R.due u e hu] at hle
  · obtain ⟨q', hq, -⟩ := R.step ho
    rw [hq]
    rfl

/-- Three threads that sleep, of which one is woken. -/
def sleepers : List Op := [.add 0 1 9, .add 0 2 5, .add 1 3 6, .del 2]

/-- The thread that is due at 7 is at the root, before the one that is due at 9. -/
theorem timeout_heap_refines_three :
    ∃ (q : SleepQ) (f : Dues),
      (Lts.exec opStep (init, fun _ => none) sleepers = some (q, f) ∧ q.sleepq = some 3 ∧
        f 3 = some 7 ∧ f 1 = some 9) ∧
      (q.Sleeps fun t => f t ≠ none) ∧ (∀ t d, f t = some d → q.due t = d) ∧
      ((q.sleepq = none ∧ ∀ t, f t = none) ∨ ∃ t d, q.sleepq = some t ∧ f t = some d ∧
        ∀ u e, f u = some e → d ≤ e) ∧
      ∀ o : Op, o.Allowed f → (o.apply q).isSome = true := by
  have hsome : (Lts.exec opStep (init, fun _ => none) sleepers).isSome = true := by decide
  obtain ⟨⟨q, f⟩, h⟩ := Option.isSome_iff_exists.mp hsome
  have hend : (Lts.exec opStep (init, fun _ => none) sleepers).map
      (fun s => (s.1.sleepq, s.2 3, s.2 1)) = some (some 3, some 7, some 9) := by decide
  rw [h] at hend
  simp only [Option.map_some, Option.some.injEq, Prod.mk.injEq] at hend
  exact ⟨q, f, ⟨h, hend⟩, timeout_heap_refines h⟩

end StCoroutine.Sched.SleepQ
