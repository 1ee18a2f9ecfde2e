import Mathlib.Algebra.Group.Nat.Defs
import Mathlib.Algebra.Ring.Int.Defs
import Mathlib.Data.Finset.Card
import Mathlib.Logic.Function.Basic

/-!
# Epoll — the epoll event system

The functions of `event.c` for epoll.  For each descriptor the library counts the requests of the
threads in `st_poll` by event (`ref`), and the kernel has the descriptors it watches (`registered`)
with their events (`mask`).  `epoll_ctl` fails for a descriptor that is watched, or is not; it may
refuse to add or to change one, and `realloc` may fail: `refuses n` says whether the `n`-th call
that can be refused is.  `none` is an access outside `fd_data`, or a loop that does not end.

`Watched` is what the library keeps of the kernel's list: it covers the events that are counted, has
no descriptor without a count, and `evtlist_cnt` is its length.
-/

set_option autoImplicit false

namespace StCoroutine.Sched

/-- The bits of `events` and `revents`; `other` is for all that the library does not use. -/
inductive Bit where
  | POLLIN
  | POLLPRI
  | POLLOUT
  | POLLERR
  | POLLHUP
  | other
  deriving DecidableEq, Repr

abbrev Mask := Finset Bit

/-- `POLLIN | POLLOUT | POLLPRI`. -/
def Mask.io : Mask := {.POLLIN, .POLLOUT, .POLLPRI}

/-- `struct pollfd`. -/
structure Pollfd where
  fd : Int
  events : Mask
  revents : Mask
  deriving DecidableEq

/-- The operations of `epoll_ctl`. -/
inductive CtlOp where
  | ADD
  | MOD
  | DEL
  deriving DecidableEq, Repr

/-- The errors of `_st_epoll_pollset_add`; `REFUSED` is any other of `epoll_ctl`. -/
inductive Errno where
  | EINVAL
  | ENOMEM
  | EEXIST
  | ENOENT
  | REFUSED
  deriving DecidableEq, Repr

/-- `_st_epoll_data`, and the kernel's side of it. -/
structure Epoll where
  ref : Nat → Bit → Int
  revents : Nat → Mask
  size : Nat
  evtlistCnt : Int
  evtlistSize : Nat
  registered : Finset Nat
  mask : Nat → Mask
  refuses : Nat → Bool
  asked : Nat

namespace Epoll

/-- The index of a descriptor in `fd_data`. -/
def index? (e : Epoll) (fd : Int) : Option Nat :=
  if 0 ≤ fd ∧ fd < e.size then some fd.toNat else none

/-- `_ST_EPOLL_EVENTS`. -/
def events (e : Epoll) (fd : Nat) : Mask := Mask.io.filter fun b => e.ref fd b ≠ 0

/-- The counts of the events `evs` of a descriptor change by `d`. -/
def count (e : Epoll) (fd : Nat) (evs : Mask) (d : Int) : Epoll :=
  { e with
    ref := Function.update e.ref fd fun b =>
      if b ∈ Mask.io ∧ b ∈ evs then e.ref fd b + d else e.ref fd b }

/-- `epoll_ctl`. -/
def ctl (e : Epoll) (op : CtlOp) (fd : Nat) (evs : Mask) : Epoll × Option Errno :=
  let e' := { e with asked := e.asked + 1 }
  match op with
  | .ADD =>
      if fd ∈ e.registered then (e, some .EEXIST)
      else if e.refuses e.asked then (e', some .REFUSED)
      else ({ e' with registered := insert fd e.registered, mask := Function.update e.mask fd evs },
        none)
  | .MOD =>
      if fd ∉ e.registered then (e, some .ENOENT)
      else if e.refuses e.asked then (e', some .REFUSED)
      else ({ e' with mask := Function.update e.mask fd evs }, none)
  | .DEL =>
      if fd ∉ e.registered then (e, some .ENOENT)
      else ({ e with registered := e.registered.erase fd }, none)

/-- `while (n < bound) n <<= 1;`, where `n` is an `int`. -/
def grow (bound : Int) : Nat → Int → Option Int
  | 0, _ => none
  | fuel + 1, n => if n < bound then grow bound fuel ((2 * n).bmod (2 ^ 32)) else some n

/-- `_st_epoll_fd_data_expand`, and whether there was memory.  After 32 doublings `n` is 0, and the
loop goes on for ever. -/
def fdDataExpand (e : Epoll) (maxfd : Nat) : Option (Epoll × Bool) :=
  (grow (maxfd + 1) 33 e.size).map fun n =>
    if e.refuses e.asked then ({ e with asked := e.asked + 1 }, false)
    else ({ e with
      ref := fun fd => if e.size ≤ fd ∧ fd < n.toNat then fun _ => 0 else e.ref fd
      revents := fun fd => if e.size ≤ fd ∧ fd < n.toNat then ∅ else e.revents fd
      size := n.toNat
      asked := e.asked + 1 }, true)

/-- `_st_epoll_evtlist_expand`. -/
def evtlistExpand (e : Epoll) : Option Epoll :=
  (grow e.evtlistCnt 33 e.evtlistSize).map fun n =>
    if e.refuses e.asked then { e with asked := e.asked + 1 }
    else { e with evtlistSize := n.toNat, asked := e.asked + 1 }

/-- `epoll_ctl` with the events that are left of a descriptor: it is changed or deleted. -/
def release (e : Epoll) (fd : Nat) : Epoll :=
  let evs := e.events fd
  let op := if evs ≠ ∅ then CtlOp.MOD else .DEL
  let r := e.ctl op fd evs
  if r.2 = none ∧ op = .DEL then { r.1 with evtlistCnt := r.1.evtlistCnt - 1 } else r.1

/-- A round of `_st_epoll_pollset_del`. -/
def delOne (e : Epoll) (pd : Pollfd) : Option Epoll :=
  (e.index? pd.fd).map fun fd =>
    let e' := e.count fd pd.events (-1)
    if e'.events fd ≠ e.events fd ∧ e'.revents fd = ∅ then e'.release fd else e'

/-- `_st_epoll_pollset_del`. -/
def pollsetDel : List Pollfd → Epoll → Option Epoll
  | [], e => some e
  | pd :: pds, e => (e.delOne pd).bind (pollsetDel pds)

/-- The checks of `_st_epoll_pollset_add`. -/
def addChecks : List Pollfd → Epoll → Option (Epoll × Option Errno)
  | [], e => some (e, none)
  | pd :: pds, e =>
      if pd.fd < 0 ∨ pd.events = ∅ ∨ ¬ pd.events ⊆ Mask.io then some (e, some .EINVAL)
      else if (e.size : Int) ≤ pd.fd then
        (e.fdDataExpand pd.fd.toNat).bind fun r =>
          if r.2 then addChecks pds r.1 else some (r.1, some .ENOMEM)
      else addChecks pds e

/-- A descriptor was added to the kernel's list. -/
def addedOne (e : Epoll) : Option Epoll :=
  let e' := { e with evtlistCnt := e.evtlistCnt + 1 }
  if (e'.evtlistSize : Int) < e'.evtlistCnt then e'.evtlistExpand else some e'

/-- A round of the second loop of `_st_epoll_pollset_add`, with the error that ends it. -/
def addOne (e : Epoll) (pd : Pollfd) : Option (Epoll × Option Errno) :=
  (e.index? pd.fd).bind fun fd =>
    let e' := e.count fd pd.events 1
    if e'.events fd ≠ e.events fd then
      let op := if e.events fd ≠ ∅ then CtlOp.MOD else .ADD
      let r := e'.ctl op fd (e'.events fd)
      if r.2 ≠ none ∧ (op ≠ .ADD ∨ r.2 ≠ some .EEXIST) then some r
      else if op = .ADD then r.1.addedOne.map fun e => (e, none)
      else some (r.1, none)
    else some (e', none)

/-- The second loop, from the index `i` on; it ends with the index of the round it broke in. -/
def addLoop : List Pollfd → Nat → Epoll → Option (Epoll × Nat × Option Errno)
  | [], i, e => some (e, i, none)
  | pd :: pds, i, e =>
      (e.addOne pd).bind fun r =>
        match r.2 with
        | some err => some (r.1, i, some err)
        | none => addLoop pds (i + 1) r.1

/-- `_st_epoll_pollset_add`, and its error. -/
def pollsetAdd (e : Epoll) (pds : List Pollfd) : Option (Epoll × Option Errno) :=
  (addChecks pds e).bind fun r =>
    match r.2 with
    | some err => some (r.1, some err)
    | none =>
        (addLoop pds 0 r.1).bind fun r =>
          match r.2.2 with
          | none => some (r.1, none)
          -- unroll the state
          | some err => (pollsetDel (pds.take (r.2.1 + 1)) r.1).map fun e => (e, some err)

/-- The first loop of `_st_epoll_dispatch`, over what `epoll_wait` found. -/
def mark : List (Nat × Mask) → Epoll → Option Epoll
  | [], e => some e
  | (fd, evs) :: fired, e =>
      if fd < e.size then
        mark fired { e with
          revents := Function.update e.revents fd
            (if .POLLERR ∈ evs ∨ .POLLHUP ∈ evs then evs ∪ e.events fd else evs) }
      else none

/-- The `revents` of a descriptor that has the events `r` in `fd_data`. -/
def found (r : Mask) (evs : Mask) : Mask :=
  if r = ∅ then ∅ else evs ∩ Mask.io ∩ r ∪ r ∩ {.POLLERR, .POLLHUP}

/-- What `_st_epoll_dispatch` writes to the descriptors of a poll queue. -/
def findAll (e : Epoll) (pds : List Pollfd) : Option (List Pollfd) :=
  pds.mapM fun pd => (e.index? pd.fd).map fun fd =>
    { pd with revents := found (e.revents fd) pd.events }

/-- The last loop of `_st_epoll_dispatch`. -/
def sweep : List (Nat × Mask) → Epoll → Option Epoll
  | [], e => some e
  | (fd, _) :: fired, e =>
      if fd < e.size then
        sweep fired (({ e with revents := Function.update e.revents fd ∅ } : Epoll).release fd)
      else none

/-- `_st_epoll_fd_new`, and whether there was memory. -/
def fdNew (e : Epoll) (osfd : Nat) : Option (Epoll × Bool) :=
  if e.size ≤ osfd then e.fdDataExpand osfd else some (e, true)

/-- `_st_epoll_fd_close` returns `0`. -/
def fdClose (e : Epoll) (osfd : Nat) : Option Bool :=
  (e.index? osfd).map fun fd => decide (e.ref fd .POLLIN = 0 ∧ e.ref fd .POLLOUT = 0 ∧
    e.ref fd .POLLPRI = 0)

/-- `_st_epoll_init`, where `fdlim` is `st_getfdlimit()`: nothing is watched. -/
def init (fdlim : Int) (refuses : Nat → Bool) : Epoll where
  ref _ _ := 0
  revents _ := ∅
  size := if 0 < fdlim ∧ fdlim < 4096 then fdlim.toNat else 4096
  evtlistCnt := 0
  evtlistSize := if 0 < fdlim ∧ fdlim < 4096 then fdlim.toNat else 4096
  registered := ∅
  mask _ := ∅
  refuses := refuses
  asked := 0

variable {e e' e'' : Epoll} {pd : Pollfd} {pds : List Pollfd} {fd x : Nat} {b : Bit} {evs : Mask}
  {op : CtlOp} {f g : Nat → Bit → Int} {base : Nat → Mask} {fired : List (Nat × Mask)}

/-! ### What is counted -/

/-- The descriptor of the request is `fd`, and `b` is one of its events. -/
def asks (pd : Pollfd) (fd : Nat) (b : Bit) : Int :=
  if pd.fd = fd ∧ b ∈ Mask.io ∧ b ∈ pd.events then 1 else 0

/-- How often the requests ask for `b` on `fd`. -/
def want (pds : List Pollfd) (fd : Nat) (b : Bit) : Int := (pds.map fun pd => asks pd fd b).sum

theorem asks_nonneg (pd : Pollfd) (fd : Nat) (b : Bit) : 0 ≤ asks pd fd b := by
  rw [asks]
  split <;> simp

theorem want_cons : want (pd :: pds) fd b = asks pd fd b + want pds fd b := by
  simp [want]

theorem want_nonneg (pds : List Pollfd) (fd : Nat) (b : Bit) : 0 ≤ want pds fd b := by
  induction pds with
  | nil => exact Int.le_refl 0
  | cons pd pds ih =>
      rw [want_cons]
      exact Int.add_nonneg (asks_nonneg pd fd b) ih

theorem asks_le_want (h : pd ∈ pds) : asks pd fd b ≤ want pds fd b := by
  induction pds with
  | nil => cases h
  | cons q pds ih =>
      rw [want_cons]
      rcases List.mem_cons.mp h with rfl | h
      · have := want_nonneg pds fd b
        omega
      · have := asks_nonneg q fd b
        have := ih h
        omega

/-- Nothing changes but the counts, by `f`; the event list may grow. -/
structure Counted (e e' : Epoll) (f : Nat → Bit → Int) : Prop where
  ref : ∀ fd b, e'.ref fd b = e.ref fd b + f fd b
  revents : e'.revents = e.revents
  size : e'.size = e.size
  evtlistSize : e.evtlistSize ≤ e'.evtlistSize

theorem Counted.refl (e : Epoll) : Counted e e fun _ _ => 0 :=
  ⟨fun _ _ => (Int.add_zero _).symm, rfl, rfl, Nat.le_refl _⟩

theorem Counted.trans (h : Counted e e' f) (h' : Counted e' e'' g) :
    Counted e e'' fun fd b => f fd b + g fd b :=
  ⟨fun fd b => by rw [h'.ref, h.ref, Int.add_assoc], h'.revents.trans h.revents,
    h'.size.trans h.size, Nat.le_trans h.evtlistSize h'.evtlistSize⟩

theorem Counted.congr (h : Counted e e' f) (hfg : ∀ fd b, f fd b = g fd b) : Counted e e' g :=
  ⟨fun fd b => by rw [h.ref, hfg], h.revents, h.size, h.evtlistSize⟩

theorem index?_of_lt (h : 0 ≤ pd.fd ∧ pd.fd < e.size) : e.index? pd.fd = some pd.fd.toNat :=
  if_pos h

theorem mem_events : b ∈ e.events fd ↔ b ∈ Mask.io ∧ e.ref fd b ≠ 0 := by
  rw [events, Finset.mem_filter]

theorem events_congr (h : e'.ref = e.ref) : e'.events = e.events := by
  funext fd
  rw [events, events, h]

/-- The counts of a request. -/
theorem count_counted (hfd : 0 ≤ pd.fd) (d : Int) :
    Counted e (e.count pd.fd.toNat pd.events d) fun fd b => d * asks pd fd b := by
  refine ⟨fun fd b => ?_, rfl, rfl, Nat.le_refl _⟩
  have hcast : (pd.fd.toNat : Int) = pd.fd := Int.toNat_of_nonneg hfd
  by_cases hx : fd = pd.fd.toNat
  · subst hx
    simp only [count, Function.update_self, asks, hcast, true_and]
    split <;> simp
  · have hne : ¬ pd.fd = (fd : Int) := by omega
    simp [count, asks, hx, hne]

theorem count_events_of_ne {d : Int} (h : fd ≠ x) : (e.count x evs d).events fd = e.events fd := by
  simp [events, count, h]

/-! ### The kernel's side -/

theorem ctl_counted : Counted e (e.ctl op fd evs).1 fun _ _ => 0 := by
  cases op <;> simp only [ctl] <;> split_ifs <;>
    exact ⟨fun _ _ => (Int.add_zero _).symm, rfl, rfl, Nat.le_refl _⟩

theorem release_counted : Counted e (e.release fd) fun _ _ => 0 := by
  have h : ∀ op, Counted e (e.ctl op fd (e.events fd)).1 fun _ _ => 0 := fun _ => ctl_counted
  simp only [release]
  generalize (if e.events fd ≠ ∅ then CtlOp.MOD else .DEL) = op
  split
  · exact ⟨(h op).ref, (h op).revents, (h op).size, (h op).evtlistSize⟩
  · exact h op

theorem Counted.events_eq (h : Counted e e' fun _ _ => 0) : e'.events = e.events :=
  events_congr (funext fun fd => funext fun b => by rw [h.ref, Int.add_zero])

/-- **What the library keeps of the kernel's list**: the events in `base` are watched, what is
watched is counted, but for descriptors that have just fired, and `evtlist_cnt` is its length. -/
structure Watched (base : Nat → Mask) (e : Epoll) : Prop where
  covers : ∀ fd, base fd ≠ ∅ → fd ∈ e.registered ∧ base fd ⊆ e.mask fd
  used : ∀ fd ∈ e.registered, e.revents fd = ∅ → e.events fd ≠ ∅
  inside : ∀ fd ∈ e.registered, fd < e.size
  counted : e.evtlistCnt = e.registered.card

/-- A call that is refused changes only the number of calls. -/
theorem Watched.refused (W : Watched base e) : Watched base { e with asked := e.asked + 1 } :=
  ⟨W.covers, W.used, W.inside, W.counted⟩

theorem Counted.refused (C : Counted e e' f) : Counted e { e' with asked := e'.asked + 1 } f :=
  ⟨C.ref, C.revents, C.size, C.evtlistSize⟩

theorem subset_update_mask (hb : base x ⊆ evs) (hc : fd ≠ x → base fd ⊆ e.mask fd) :
    base fd ⊆ Function.update e.mask x evs fd := by
  by_cases hfd : fd = x
  · subst hfd
    rw [Function.update_self]
    exact hb
  · rw [Function.update_of_ne hfd]
    exact hc hfd

/-- **A descriptor that is watched is changed** to the events that are counted. -/
theorem Watched.modified {stays : Nat → Mask} (W : Watched stays e) (hx : x ∈ e.registered)
    (hb : base x ⊆ e.events x)
    (hc : ∀ fd, fd ≠ x → base fd ≠ ∅ → fd ∈ e.registered ∧ base fd ⊆ e.mask fd) :
    Watched base { e with
      mask := Function.update e.mask x (e.events x), asked := e.asked + 1 } := by
  refine ⟨fun fd h => ⟨?_, subset_update_mask hb fun hfd => (hc fd hfd h).2⟩, W.used, W.inside,
    W.counted⟩
  by_cases hfd : fd = x
  · exact hfd ▸ hx
  · exact (hc fd hfd h).1

/-- **A descriptor is released**: the others need to be watched before. -/
theorem watched_release (hb : base x ⊆ e.events x)
    (hc : ∀ fd, base fd ≠ ∅ → fd ∈ e.registered ∧ base fd ⊆ e.mask fd)
    (hu : ∀ fd ∈ e.registered, fd ≠ x → e.revents fd = ∅ → e.events fd ≠ ∅)
    (hi : ∀ fd ∈ e.registered, fd < e.size) (hn : e.evtlistCnt = e.registered.card) :
    Watched base (e.release x) := by
  by_cases hev : e.events x = ∅
  · -- no event is left: the descriptor is deleted
    have hbase : base x = ∅ := Finset.subset_empty.mp (hev ▸ hb)
    by_cases hx : x ∈ e.registered
    · have he : e.release x =
          { e with registered := e.registered.erase x, evtlistCnt := e.evtlistCnt - 1 } := by
        simp [release, ctl, hev, hx]
      rw [he]
      refine ⟨fun fd h => ?_, fun fd h hr => ?_, fun fd h => hi fd (Finset.mem_of_mem_erase h), ?_⟩
      · have hne : fd ≠ x := fun e => h (e ▸ hbase)
        exact ⟨Finset.mem_erase.mpr ⟨hne, (hc fd h).1⟩, (hc fd h).2⟩
      · obtain ⟨hne, h⟩ := Finset.mem_erase.mp h
        exact hu fd h hne hr
      · have hpos : 0 < e.registered.card := Finset.card_pos.mpr ⟨x, hx⟩
        show e.evtlistCnt - 1 = ((e.registered.erase x).card : Int)
        rw [hn, Finset.card_erase_of_mem hx]
        omega
    · have he : e.release x = e := by simp [release, ctl, hev, hx]
      rw [he]
      exact ⟨hc, fun fd h => hu fd h fun e => hx (e ▸ h), hi, hn⟩
  · have hu' : ∀ fd ∈ e.registered, e.revents fd = ∅ → e.events fd ≠ ∅ := fun fd h => by
      by_cases hx : fd = x
      · exact fun _ => hx ▸ hev
      · exact hu fd h hx
    by_cases hx : x ∈ e.registered
    · by_cases hr : e.refuses e.asked = true
      · have he : e.release x = { e with asked := e.asked + 1 } := by
          simp [release, ctl, hev, hx, hr]
        rw [he]
        exact ⟨hc, hu', hi, hn⟩
      · have he : e.release x = { e with
            mask := Function.update e.mask x (e.events x), asked := e.asked + 1 } := by
          simp [release, ctl, hev, hx, hr]
        rw [he]
        have W : Watched base e := ⟨hc, hu', hi, hn⟩
        exact W.modified hx hb fun fd _ => hc fd
    · have he : e.release x = e := by simp [release, ctl, hev, hx]
      rw [he]
      exact ⟨hc, hu', hi, hn⟩

/-! ### `_st_epoll_pollset_del` -/

/-- **A request is taken back**, where what stays watched is still counted. -/
theorem delOne_spec (W : Watched base e) (hfd : 0 ≤ pd.fd ∧ pd.fd < e.size)
    (hb : ∀ e', Counted e e' (fun fd b => - asks pd fd b) → ∀ fd, base fd ⊆ e'.events fd) :
    ∃ e', e.delOne pd = some e' ∧ Counted e e' (fun fd b => - asks pd fd b) ∧ Watched base e' := by
  have hc : Counted e (e.count pd.fd.toNat pd.events (-1)) fun fd b => - asks pd fd b :=
    (count_counted hfd.1 (-1)).congr fun fd b => by rw [Int.neg_one_mul]
  have hne : ∀ {fd}, fd ≠ pd.fd.toNat →
      (e.count pd.fd.toNat pd.events (-1)).events fd = e.events fd := count_events_of_ne
  rw [delOne, index?_of_lt hfd]
  refine ⟨_, rfl, ?_⟩
  dsimp only
  split
  next h =>
    refine ⟨(hc.trans release_counted).congr fun fd b => Int.add_zero _, ?_⟩
    exact watched_release (hb _ hc _) W.covers
      (fun fd hr hx he => by rw [hne hx]; exact W.used fd hr he) W.inside W.counted
  next h =>
    refine ⟨hc, W.covers, fun fd hr he => ?_, W.inside, W.counted⟩
    by_cases hx : fd = pd.fd.toNat
    · subst hx
      have hsame := not_not.mp fun hn => h ⟨hn, he⟩
      rw [hsame]
      exact W.used _ hr he
    · rw [hne hx]
      exact W.used fd hr he

/-- **`_st_epoll_pollset_del`** takes the requests back. -/
theorem pollsetDel_spec (W : Watched base e) (hfd : ∀ pd ∈ pds, 0 ≤ pd.fd ∧ pd.fd < e.size)
    (hb : ∀ fd, ∀ b ∈ base fd, b ∈ Mask.io ∧ want pds fd b < e.ref fd b) :
    ∃ e', pollsetDel pds e = some e' ∧ Counted e e' (fun fd b => - want pds fd b) ∧
      Watched base e' := by
  induction pds generalizing e with
  | nil => exact ⟨e, rfl, (Counted.refl e).congr fun _ _ => by simp [want], W⟩
  | cons pd pds ih =>
      have hhead := hfd pd List.mem_cons_self
      obtain ⟨e₁, h₁, C₁, W₁⟩ := delOne_spec W hhead fun e' C fd b hm => by
        obtain ⟨hio, hlt⟩ := hb fd b hm
        rw [want_cons] at hlt
        have hpos := want_nonneg pds fd b
        rw [mem_events, C.ref]
        exact ⟨hio, by omega⟩
      obtain ⟨e₂, h₂, C₂, W₂⟩ := ih W₁ (fun q hq => by
          rw [C₁.size]
          exact hfd q (List.mem_cons_of_mem _ hq))
        (fun fd b hm => by
          obtain ⟨hio, hlt⟩ := hb fd b hm
          rw [want_cons] at hlt
          rw [C₁.ref]
          exact ⟨hio, by omega⟩)
      refine ⟨e₂, by rw [pollsetDel, h₁]; exact h₂, (C₁.trans C₂).congr fun fd b => ?_, W₂⟩
      rw [want_cons]
      omega

theorem Watched.mono {base' : Nat → Mask} (W : Watched base e) (h : ∀ fd, base' fd ⊆ base fd) :
    Watched base' e := by
  refine ⟨fun fd hne => ?_, W.used, W.inside, W.counted⟩
  have hbase : base fd ≠ ∅ := fun he => hne (Finset.subset_empty.mp (he ▸ h fd))
  obtain ⟨hr, hm⟩ := W.covers fd hbase
  exact ⟨hr, (h fd).trans hm⟩

/-- What is still counted after requests are taken back is still watched. -/
theorem pollsetDel_watched (W : Watched e.events e)
    (hfd : ∀ pd ∈ pds, 0 ≤ pd.fd ∧ pd.fd < e.size) (hle : ∀ fd b, want pds fd b ≤ e.ref fd b) :
    ∃ e', pollsetDel pds e = some e' ∧ Counted e e' (fun fd b => - want pds fd b) ∧
      Watched e'.events e' := by
  have hleft : ∀ fd, ∀ b ∈ Mask.io.filter (fun b => e.ref fd b + - want pds fd b ≠ 0),
      b ∈ Mask.io ∧ want pds fd b < e.ref fd b := fun fd b hm => by
    obtain ⟨hio, hne⟩ := Finset.mem_filter.mp hm
    have := hle fd b
    exact ⟨hio, by omega⟩
  obtain ⟨e', he, C, W'⟩ := pollsetDel_spec (W.mono fun fd b hm => by
    obtain ⟨hio, hlt⟩ := hleft fd b hm
    have := want_nonneg pds fd b
    exact mem_events.mpr ⟨hio, by omega⟩) hfd hleft
  refine ⟨e', he, C, ?_⟩
  have hev : e'.events = fun fd => Mask.io.filter fun b => e.ref fd b + - want pds fd b ≠ 0 :=
    funext fun fd => Finset.filter_congr fun b _ => by rw [C.ref]
  rw [hev]
  exact W'

/-! ### The arrays grow -/

/-- The loop ends with enough, and not with less than it begins with. -/
theorem grow_spec {bound n m : Int} {fuel : Nat} (h : grow bound fuel n = some m) :
    bound ≤ m ∧ n ≤ m := by
  induction fuel generalizing n with
  | zero => cases h
  | succ fuel ih =>
      rw [grow] at h
      split at h
      next hlt =>
        have := (ih h).1
        omega
      next hge =>
        cases h
        omega

/-- Up to `2 ^ 30` the loop ends, without an overflow. -/
theorem grow_total {bound n : Int} (hb : bound ≤ 2 ^ 30) (hn : 0 < n) :
    ∃ m, grow bound 33 n = some m := by
  have hloop : ∀ fuel n, 0 < n → bound ≤ n * 2 ^ fuel → ∃ m, grow bound (fuel + 1) n = some m := by
    intro fuel
    induction fuel with
    | zero =>
        intro n _ hle
        have hge : ¬ n < bound := by omega
        exact ⟨n, by rw [grow, if_neg hge]⟩
    | succ fuel ih =>
        intro n hn hle
        rw [grow]
        split
        next hlt =>
          have hmod : (2 * n).bmod (2 ^ 32) = 2 * n := Int.bmod_eq_of_le (by omega) (by omega)
          rw [hmod]
          refine ih (2 * n) (by omega) ?_
          rwa [Int.mul_comm 2 n, Int.mul_assoc, ← Int.pow_succ']
        next => exact ⟨n, rfl⟩
  exact hloop 32 n hn (by omega)

theorem grow_stuck_of_dvd {bound n : Int} (j : Nat) (hj : j ≤ 32) (hint : n.bmod (2 ^ 32) = n)
    (hdvd : 2 ^ (32 - j) ∣ n) (h : grow bound (j + 1) n = none) (fuel : Nat) :
    grow bound fuel n = none := by
  induction j generalizing n fuel with
  | zero =>
      have hzero : n = 0 := by
        rw [← hint]
        exact Int.bmod_eq_zero_of_dvd hdvd
      subst hzero
      have hlt : 0 < bound := by
        by_contra hge
        rw [grow, if_neg hge] at h
        cases h
      induction fuel with
      | zero => rfl
      | succ fuel ih => rw [grow, if_pos hlt, Int.mul_zero, Int.zero_bmod, ih]
  | succ j ih =>
      rw [grow] at h
      split at h
      next hlt =>
        cases fuel with
        | zero => rfl
        | succ fuel =>
            rw [grow, if_pos hlt]
            have htwo : (2 : Int) ^ (32 - j) ∣ 2 * n := by
              rw [show 32 - j = 32 - (j + 1) + 1 by omega, Int.pow_succ']
              exact Int.mul_dvd_mul_left 2 hdvd
            have hall : (2 : Int) ^ (32 - j) ∣ 2 ^ 32 :=
              Int.natCast_dvd_natCast.mpr (Nat.pow_dvd_pow 2 (Nat.sub_le 32 j))
            refine ih (by omega) Int.bmod_bmod ?_ h fuel
            rw [Int.bmod_eq_self_sub_mul_bdiv]
            exact Int.dvd_sub htwo (Int.dvd_mul_of_dvd_left hall)
      next => cases h

/-- **A loop that does not end in 33 rounds never ends**: an `int` that is doubled 32 times is 0,
and stays 0. -/
theorem grow_stuck {bound n : Int} (hint : n.bmod (2 ^ 32) = n) (h : grow bound 33 n = none)
    (fuel : Nat) : grow bound fuel n = none :=
  grow_stuck_of_dvd 32 (Nat.le_refl 32) hint (Int.one_dvd n) h fuel

/-- Nothing changes but the sizes of the arrays, which may grow. -/
structure Grown (e e' : Epoll) : Prop where
  ref : e'.ref = e.ref
  revents : e'.revents = e.revents
  size : e.size ≤ e'.size
  evtlistSize : e.evtlistSize ≤ e'.evtlistSize
  registered : e'.registered = e.registered
  mask : e'.mask = e.mask
  evtlistCnt : e'.evtlistCnt = e.evtlistCnt

theorem Grown.refl (e : Epoll) : Grown e e :=
  ⟨rfl, rfl, Nat.le_refl _, Nat.le_refl _, rfl, rfl, rfl⟩

theorem Grown.trans (h : Grown e e') (h' : Grown e' e'') : Grown e e'' :=
  ⟨h'.ref.trans h.ref, h'.revents.trans h.revents, Nat.le_trans h.size h'.size,
    Nat.le_trans h.evtlistSize h'.evtlistSize, h'.registered.trans h.registered,
    h'.mask.trans h.mask, h'.evtlistCnt.trans h.evtlistCnt⟩

theorem Watched.grown (W : Watched base e) (h : Grown e e') : Watched base e' := by
  refine ⟨fun fd hb => ?_, fun fd hr he => ?_, fun fd hr => ?_, ?_⟩
  · rw [h.registered, h.mask]
    exact W.covers fd hb
  · rw [events_congr h.ref]
    exact W.used fd (h.registered ▸ hr) (h.revents ▸ he)
  · exact Nat.lt_of_lt_of_le (W.inside fd (h.registered ▸ hr)) h.size
  · rw [h.evtlistCnt, h.registered, W.counted]

/-- No count and no event is outside `fd_data`. -/
def Zero (e : Epoll) : Prop := ∀ fd, e.size ≤ fd → (∀ b, e.ref fd b = 0) ∧ e.revents fd = ∅

theorem Zero.grown (hz : e.Zero) (h : Grown e e') : e'.Zero := fun fd hfd => by
  rw [h.ref, h.revents]
  exact hz fd (Nat.le_trans h.size hfd)

theorem fdDataExpand_spec (hz : e.Zero) {maxfd : Nat} {ok : Bool}
    (h : e.fdDataExpand maxfd = some (e', ok)) : Grown e e' ∧ (ok = true → maxfd < e'.size) := by
  obtain ⟨n, hn, h⟩ := Option.map_eq_some_iff.mp h
  obtain ⟨hle, hge⟩ := grow_spec hn
  cases hr : e.refuses e.asked with
  | true =>
      rw [hr, if_pos rfl] at h
      cases h
      exact ⟨⟨rfl, rfl, Nat.le_refl _, Nat.le_refl _, rfl, rfl, rfl⟩, fun h => by cases h⟩
  | false =>
      rw [hr, if_neg (by simp)] at h
      cases h
      refine ⟨⟨?_, ?_, show e.size ≤ n.toNat by omega, Nat.le_refl _, rfl, rfl, rfl⟩,
        fun _ => show maxfd < n.toNat by omega⟩
      · funext fd b
        show (if e.size ≤ fd ∧ fd < n.toNat then fun _ => 0 else e.ref fd) b = e.ref fd b
        split
        next h => exact ((hz fd h.1).1 b).symm
        next => rfl
      · funext fd
        show (if e.size ≤ fd ∧ fd < n.toNat then ∅ else e.revents fd) = e.revents fd
        split
        next h => exact (hz fd h.1).2.symm
        next => rfl

/-- `fd_data` can grow to hold a descriptor below `2 ^ 30`. -/
theorem fdDataExpand_total (hs : 0 < e.size) (maxfd : Nat) (h : maxfd < 2 ^ 30) :
    ∃ r, e.fdDataExpand maxfd = some r := by
  have hbound : (maxfd : Int) + 1 ≤ 2 ^ 30 := by omega
  obtain ⟨n, hn⟩ := grow_total (n := e.size) hbound (by omega)
  exact ⟨_, by rw [fdDataExpand, hn, Option.map_some]⟩

theorem evtlistExpand_spec (h : e.evtlistExpand = some e') : Grown e e' ∧ e'.size = e.size := by
  obtain ⟨n, hn, rfl⟩ := Option.map_eq_some_iff.mp h
  obtain ⟨-, hge⟩ := grow_spec hn
  cases hr : e.refuses e.asked with
  | true => exact ⟨⟨rfl, rfl, Nat.le_refl _, Nat.le_refl _, rfl, rfl, rfl⟩, rfl⟩
  | false =>
      have hsize : e.evtlistSize ≤ n.toNat := by omega
      exact ⟨⟨rfl, rfl, Nat.le_refl _, hsize, rfl, rfl, rfl⟩, rfl⟩

theorem evtlistExpand_total (hl : 0 < e.evtlistSize) (h : e.evtlistCnt ≤ 2 ^ 30) :
    ∃ e', e.evtlistExpand = some e' := by
  obtain ⟨n, hn⟩ := grow_total (n := e.evtlistSize) h (by omega)
  exact ⟨_, by rw [evtlistExpand, hn, Option.map_some]⟩

/-! ### `_st_epoll_pollset_add` -/

/-- The request can be made: its descriptor is in `fd_data`, and its events are known. -/
structure Valid (e : Epoll) (pd : Pollfd) : Prop where
  fd : 0 ≤ pd.fd ∧ pd.fd < e.size
  some : pd.events ≠ ∅
  io : pd.events ⊆ Mask.io

theorem Valid.of_size (h : Valid e pd) (hs : e.size ≤ e'.size) : Valid e' pd :=
  ⟨⟨h.fd.1, Int.lt_of_lt_of_le h.fd.2 (Int.ofNat_le.mpr hs)⟩, h.some, h.io⟩

/-- **The checks** pass only requests that can be made. -/
theorem addChecks_spec (hz : e.Zero) {err : Option Errno} (h : addChecks pds e = some (e', err)) :
    Grown e e' ∧ (err = none → ∀ pd ∈ pds, Valid e' pd) := by
  induction pds generalizing e with
  | nil =>
      cases h
      exact ⟨Grown.refl e', fun _ pd h => by cases h⟩
  | cons pd pds ih =>
      rw [addChecks] at h
      by_cases hbad : pd.fd < 0 ∨ pd.events = ∅ ∨ ¬ pd.events ⊆ Mask.io
      · rw [if_pos hbad] at h
        cases h
        exact ⟨Grown.refl e', fun h => by cases h⟩
      · rw [if_neg hbad] at h
        obtain ⟨hneg, hne, hio⟩ := not_or.mp hbad |>.imp_right not_or.mp
        have hpos : 0 ≤ pd.fd := Int.not_lt.mp hneg
        by_cases hsize : (e.size : Int) ≤ pd.fd
        · rw [if_pos hsize] at h
          obtain ⟨⟨e₁, ok⟩, he, h⟩ := Option.bind_eq_some_iff.mp h
          obtain ⟨G, hok⟩ := fdDataExpand_spec hz he
          cases ok with
          | false =>
              cases h
              exact ⟨G, fun h => by cases h⟩
          | true =>
              obtain ⟨G', hv⟩ := ih (hz.grown G) h
              refine ⟨G.trans G', fun herr q hq => ?_⟩
              rcases List.mem_cons.mp hq with rfl | hq
              · have hlt : q.fd.toNat < e'.size := Nat.lt_of_lt_of_le (hok rfl) G'.size
                exact ⟨⟨hpos, by omega⟩, hne, not_not.mp hio⟩
              · exact hv herr q hq
        · rw [if_neg hsize] at h
          obtain ⟨G', hv⟩ := ih hz h
          refine ⟨G', fun herr q hq => ?_⟩
          rcases List.mem_cons.mp hq with rfl | hq
          · exact Valid.of_size ⟨⟨hpos, Int.not_le.mp hsize⟩, hne, not_not.mp hio⟩ G'.size
          · exact hv herr q hq

theorem addChecks_total (hs : 0 < e.size) (hz : e.Zero) (h : ∀ pd ∈ pds, pd.fd < 2 ^ 30) :
    ∃ r, addChecks pds e = some r := by
  induction pds generalizing e with
  | nil => exact ⟨_, rfl⟩
  | cons pd pds ih =>
      have hrest := fun q hq => h q (List.mem_cons_of_mem _ hq)
      rw [addChecks]
      split
      · exact ⟨_, rfl⟩
      · split
        · have hlt := h pd List.mem_cons_self
          obtain ⟨⟨e₁, ok⟩, he⟩ := fdDataExpand_total hs pd.fd.toNat (by omega)
          obtain ⟨G, -⟩ := fdDataExpand_spec hz he
          rw [he, Option.bind_some]
          cases ok with
          | false => exact ⟨_, rfl⟩
          | true => exact ih (Nat.lt_of_lt_of_le hs G.size) (hz.grown G) hrest
        · exact ih hs hz hrest

theorem events_subset_count (hpos : ∀ b, 0 ≤ e.ref x b) (hfd : 0 ≤ pd.fd) :
    e.events x ⊆ (e.count pd.fd.toNat pd.events 1).events x := fun b hb => by
  rw [mem_events] at hb ⊢
  rw [(count_counted hfd 1).ref]
  have := hpos b
  have := asks_nonneg pd x b
  exact ⟨hb.1, by omega⟩

/-- The list of the kernel grew by a descriptor that has the events `e.events x`. -/
theorem addedOne_spec (hx : x ∉ e.registered) (hlt : x < e.size) (hev : e.events x ≠ ∅)
    (hsub : base x ⊆ e.events x)
    (hc : ∀ fd, fd ≠ x → base fd ≠ ∅ → fd ∈ e.registered ∧ base fd ⊆ e.mask fd)
    (hu : ∀ fd ∈ e.registered, e.revents fd = ∅ → e.events fd ≠ ∅)
    (hi : ∀ fd ∈ e.registered, fd < e.size) (hn : e.evtlistCnt = e.registered.card) {n : Nat}
    (h : addedOne { e with
      registered := insert x e.registered, mask := Function.update e.mask x (e.events x),
      asked := n } = some e') :
    Counted e e' (fun _ _ => 0) ∧ Watched base e' ∧ e'.registered = insert x e.registered := by
  have W : Watched base { e with
      registered := insert x e.registered, mask := Function.update e.mask x (e.events x),
      asked := n, evtlistCnt := e.evtlistCnt + 1 } := by
    refine ⟨fun fd hb => ?_, fun fd hr => ?_, fun fd hr => ?_, ?_⟩
    · refine ⟨?_, subset_update_mask hsub fun hfd => (hc fd hfd hb).2⟩
      by_cases hfd : fd = x
      · exact Finset.mem_insert.mpr (.inl hfd)
      · exact Finset.mem_insert_of_mem (hc fd hfd hb).1
    · rcases Finset.mem_insert.mp hr with rfl | hr
      · exact fun _ => hev
      · exact hu fd hr
    · rcases Finset.mem_insert.mp hr with rfl | hr
      · exact hlt
      · exact hi fd hr
    · show e.evtlistCnt + 1 = ((insert x e.registered).card : Int)
      rw [Finset.card_insert_of_notMem hx, hn]
      rfl
  rw [addedOne] at h
  dsimp only at h
  split at h
  · obtain ⟨G, hsize⟩ := evtlistExpand_spec h
    exact ⟨⟨fun fd b => by rw [G.ref, Int.add_zero], G.revents, hsize, G.evtlistSize⟩, W.grown G,
      G.registered⟩
  · cases h
    exact ⟨⟨fun _ _ => (Int.add_zero _).symm, rfl, rfl, Nat.le_refl _⟩, W, rfl⟩

theorem addedOne_total (hl : 0 < e.evtlistSize) (h : e.evtlistCnt < 2 ^ 30) :
    ∃ e', e.addedOne = some e' := by
  rw [addedOne]
  dsimp only
  split
  · exact evtlistExpand_total hl (by dsimp only; omega)
  · exact ⟨_, rfl⟩

/-- **A request is made**, or refused: what was watched still is, and when it is made its events
are watched. -/
theorem addOne_spec (hfd : 0 ≤ pd.fd ∧ pd.fd < e.size) (hq : ∀ fd, e.revents fd = ∅)
    (hpos : ∀ fd b, 0 ≤ e.ref fd b) (W : Watched base e) (hb : ∀ fd, base fd ⊆ e.events fd)
    {err : Option Errno} (h : e.addOne pd = some (e', err)) :
    Counted e e' (asks pd) ∧ Watched base e' ∧
      (err = none → Watched e.events e → Watched e'.events e') ∧
      e'.registered ⊆ insert pd.fd.toNat e.registered := by
  obtain ⟨x, hx⟩ : ∃ x, pd.fd.toNat = x := ⟨_, rfl⟩
  obtain ⟨e₁, he₁⟩ : ∃ e₁, e.count x pd.events 1 = e₁ := ⟨_, rfl⟩
  have hlt : x < e.size := by omega
  have hC : Counted e e₁ (asks pd) := by
    subst hx he₁
    exact (count_counted hfd.1 1).congr fun fd b => by rw [Int.one_mul]
  have hsub : e.events x ⊆ e₁.events x := by
    subst hx he₁
    exact events_subset_count (hpos _) hfd.1
  have hne : ∀ {fd}, fd ≠ x → e₁.events fd = e.events fd := fun h => by
    rw [← he₁, count_events_of_ne h]
  have hreg : e₁.registered = e.registered ∧ e₁.mask = e.mask ∧ e₁.evtlistCnt = e.evtlistCnt := by
    rw [← he₁]
    exact ⟨rfl, rfl, rfl⟩
  obtain ⟨hreg, hmask, hcnt⟩ := hreg
  have hu : ∀ fd ∈ e.registered, e₁.events fd ≠ ∅ := fun fd hr => by
    by_cases h : fd = x
    · subst h
      exact fun h => W.used fd hr (hq fd) (Finset.subset_empty.mp (h ▸ hsub))
    · rw [hne h]
      exact W.used fd hr (hq fd)
  have hi : ∀ fd ∈ e₁.registered, fd < e₁.size := by
    rw [hreg, hC.size]
    exact W.inside
  have hn : e₁.evtlistCnt = e₁.registered.card := by rw [hcnt, hreg, W.counted]
  -- what is watched when the list of the kernel does not change
  have hstay : Watched base e₁ :=
    ⟨by rw [hreg, hmask]; exact W.covers, fun fd hr _ => hu fd (hreg ▸ hr), hi, hn⟩
  -- what the others need, for the base and for the events that are counted
  have hcov : ∀ fd, fd ≠ x → base fd ≠ ∅ → fd ∈ e₁.registered ∧ base fd ⊆ e₁.mask fd := by
    rw [hreg, hmask]
    exact fun fd _ => W.covers fd
  have hcov' : Watched e.events e → ∀ fd, fd ≠ x → e₁.events fd ≠ ∅ →
      fd ∈ e₁.registered ∧ e₁.events fd ⊆ e₁.mask fd := fun W' fd hfd h => by
    rw [hreg, hmask, hne hfd] at *
    exact W'.covers fd h
  have hbx : base x ⊆ e₁.events x := fun b h => hsub (hb x h)
  have hins : e₁.registered ⊆ insert pd.fd.toNat e.registered := by
    rw [hreg]
    exact Finset.subset_insert _ _
  rw [addOne, index?_of_lt hfd, Option.bind_some] at h
  simp only [hx, he₁] at h
  split at h
  next hdiff =>
    have hsome : e₁.events x ≠ ∅ := fun h => by
      rw [h] at hdiff hsub
      exact hdiff (Finset.subset_empty.mp hsub).symm
    by_cases hold : e.events x = ∅
    · -- the descriptor is new to the kernel
      have hnot : x ∉ e₁.registered := fun h => W.used x (hreg ▸ h) (hq x) hold
      by_cases hr : e₁.refuses e₁.asked = true
      · obtain ⟨rfl, rfl⟩ : { e₁ with asked := e₁.asked + 1 } = e' ∧ some .REFUSED = err := by
          simpa [ctl, hold, hnot, hr] using h
        exact ⟨hC.refused, hstay.refused, fun h => (by cases h), hins⟩
      · obtain ⟨hadd, rfl⟩ : addedOne { e₁ with
            registered := insert x e₁.registered,
            mask := Function.update e₁.mask x (e₁.events x), asked := e₁.asked + 1 } = some e' ∧
            none = err := by
          simpa [ctl, hold, hnot, hr] using h
        have hlt₁ : x < e₁.size := hC.size ▸ hlt
        obtain ⟨C₂, W₂, hreg₂⟩ := addedOne_spec hnot hlt₁ hsome hbx hcov hstay.used hi hn hadd
        refine ⟨(hC.trans C₂).congr fun _ _ => Int.add_zero _, W₂, fun _ W' => ?_, ?_⟩
        · rw [C₂.events_eq]
          exact (addedOne_spec hnot hlt₁ hsome (Finset.Subset.refl _) (hcov' W') hstay.used hi hn
            hadd).2.1
        · rw [hreg₂, hreg, hx]
    · by_cases hnot : x ∈ e₁.registered
      · by_cases hr : e₁.refuses e₁.asked = true
        · obtain ⟨rfl, rfl⟩ : { e₁ with asked := e₁.asked + 1 } = e' ∧ some .REFUSED = err := by
            simpa [ctl, hold, hnot, hr] using h
          exact ⟨hC.refused, hstay.refused, fun h => (by cases h), hins⟩
        · obtain ⟨rfl, rfl⟩ : { e₁ with
              mask := Function.update e₁.mask x (e₁.events x), asked := e₁.asked + 1 } = e' ∧
              none = err := by
            simpa [ctl, hold, hnot, hr] using h
          exact ⟨⟨hC.ref, hC.revents, hC.size, hC.evtlistSize⟩, hstay.modified hnot hbx hcov,
            fun _ W' => hstay.modified hnot (Finset.Subset.refl _) (hcov' W'), hins⟩
      · obtain ⟨rfl, rfl⟩ : e₁ = e' ∧ some .ENOENT = err := by simpa [ctl, hold, hnot] using h
        exact ⟨hC, hstay, fun h => (by cases h), hins⟩
  next hsame =>
    cases h
    refine ⟨hC, hstay, fun _ W' => ?_, hins⟩
    have hev : e'.events = e.events := funext fun fd => by
      by_cases h : fd = x
      · rw [h]
        exact not_not.mp hsame
      · exact hne h
    rw [hev]
    exact ⟨by rw [hreg, hmask]; exact W'.covers, hstay.used, hi, hn⟩

/-- The requests that the second loop has made when it ends with `err` after the round `n`. -/
def made (pds : List Pollfd) (n : Nat) : Option Errno → List Pollfd
  | none => pds
  | some _ => pds.take (n + 1)

/-- The kernel's list has room for one more below a bound. -/
theorem card_lt_of_notMem {r : Finset Nat} {n : Nat} (hr : ∀ fd ∈ r, fd < n) (hx : x < n)
    (hnot : x ∉ r) : r.card < n := by
  have hsub : r ⊂ Finset.range n := by
    refine ⟨fun fd hfd => Finset.mem_range.mpr (hr fd hfd), fun hall => hnot ?_⟩
    exact hall (Finset.mem_range.mpr hx)
  have := Finset.card_lt_card hsub
  rwa [Finset.card_range] at this

/-- A round can be made while all descriptors are below `2 ^ 30`. -/
theorem addOne_total (hfd : 0 ≤ pd.fd ∧ pd.fd < e.size) (hq : ∀ fd, e.revents fd = ∅)
    (hl : 0 < e.evtlistSize) (W : Watched base e) (hlow : ∀ fd ∈ e.registered, fd < 2 ^ 30)
    (h : pd.fd < 2 ^ 30) : ∃ r, e.addOne pd = some r := by
  obtain ⟨x, hx⟩ : ∃ x, pd.fd.toNat = x := ⟨_, rfl⟩
  rw [addOne, index?_of_lt hfd, Option.bind_some]
  simp only [hx]
  split
  · by_cases hold : e.events x = ∅
    · have hnot : x ∉ e.registered := fun h => W.used x h (hq x) hold
      have hnot' : x ∉ (e.count x pd.events 1).registered := hnot
      cases hr : (e.count x pd.events 1).refuses (e.count x pd.events 1).asked with
      | true => simp [ctl, hold, hnot', hr]
      | false =>
          have hcnt : e.evtlistCnt < 2 ^ 30 := by
            have := card_lt_of_notMem hlow (show x < 2 ^ 30 by omega) hnot
            rw [W.counted]
            omega
          obtain ⟨e', he'⟩ := addedOne_total (e := { e.count x pd.events 1 with
            registered := insert x (e.count x pd.events 1).registered,
            mask := Function.update (e.count x pd.events 1).mask x
              ((e.count x pd.events 1).events x),
            asked := (e.count x pd.events 1).asked + 1 }) hl hcnt
          exact ⟨(e', none), by simp [ctl, hold, hnot', hr, he']⟩
    · simp only [ne_eq, hold, not_false_eq_true, if_true, reduceCtorEq, if_false]
      split <;> exact ⟨_, rfl⟩
  · exact ⟨_, rfl⟩

/-- A request that is made takes no event from what is watched. -/
theorem Counted.keeps_base (C : Counted e e' (asks pd)) (hpos : ∀ fd b, 0 ≤ e.ref fd b)
    (hb : ∀ fd, base fd ⊆ e.events fd) :
    (∀ fd b, 0 ≤ e'.ref fd b) ∧ ∀ fd, base fd ⊆ e'.events fd := by
  have hle : ∀ fd b, 0 ≤ e.ref fd b ∧ e.ref fd b ≤ e'.ref fd b := fun fd b => by
    rw [C.ref]
    have := asks_nonneg pd fd b
    exact ⟨hpos fd b, by omega⟩
  refine ⟨fun fd b => Int.le_trans (hle fd b).1 (hle fd b).2, fun fd b hm => ?_⟩
  obtain ⟨hio, hne⟩ := mem_events.mp (hb fd hm)
  have := hle fd b
  exact mem_events.mpr ⟨hio, by omega⟩

/-- **The second loop** makes the requests, up to one that is refused. -/
theorem addLoop_spec (hfd : ∀ pd ∈ pds, 0 ≤ pd.fd ∧ pd.fd < e.size)
    (hq : ∀ fd, e.revents fd = ∅) (hpos : ∀ fd b, 0 ≤ e.ref fd b) (W : Watched base e)
    (hb : ∀ fd, base fd ⊆ e.events fd) {i j : Nat} {err : Option Errno}
    (h : addLoop pds i e = some (e', j, err)) :
    ∃ n, j = i + n ∧ Counted e e' (want (made pds n err)) ∧ Watched base e' ∧
      (err = none → Watched e.events e → Watched e'.events e') := by
  induction pds generalizing e i with
  | nil =>
      cases h
      exact ⟨0, rfl, (Counted.refl e').congr fun _ _ => rfl, W, fun _ W' => W'⟩
  | cons pd pds ih =>
      rw [addLoop] at h
      obtain ⟨⟨e₁, err₁⟩, h₁, h⟩ := Option.bind_eq_some_iff.mp h
      obtain ⟨C₁, W₁, hW₁, -⟩ := addOne_spec (hfd pd List.mem_cons_self) hq hpos W hb h₁
      cases err₁ with
      | some err =>
          cases h
          refine ⟨0, rfl, C₁.congr fun fd b => ?_, W₁, fun h => by cases h⟩
          simp [made, want]
      | none =>
          obtain ⟨hpos₁, hb₁⟩ := C₁.keeps_base hpos hb
          obtain ⟨n, rfl, C₂, W₂, hW₂⟩ := ih
            (fun q hq => by
              rw [C₁.size]
              exact hfd q (List.mem_cons_of_mem _ hq))
            (fun fd => by rw [C₁.revents]; exact hq fd) hpos₁ W₁ hb₁ h
          refine ⟨n + 1, by omega, (C₁.trans C₂).congr fun fd b => ?_, W₂,
            fun h W' => hW₂ h (hW₁ rfl W')⟩
          cases err with
          | none => simp [made, want_cons]
          | some err => simp [made, want_cons]

theorem addLoop_total (hfd : ∀ pd ∈ pds, 0 ≤ pd.fd ∧ pd.fd < e.size)
    (hq : ∀ fd, e.revents fd = ∅) (hpos : ∀ fd b, 0 ≤ e.ref fd b) (hl : 0 < e.evtlistSize)
    (W : Watched base e) (hb : ∀ fd, base fd ⊆ e.events fd)
    (hlow : ∀ fd ∈ e.registered, fd < 2 ^ 30) (h : ∀ pd ∈ pds, pd.fd < 2 ^ 30) (i : Nat) :
    ∃ r, addLoop pds i e = some r := by
  induction pds generalizing e i with
  | nil => exact ⟨_, rfl⟩
  | cons pd pds ih =>
      have hhead := hfd pd List.mem_cons_self
      have hpd := h pd List.mem_cons_self
      obtain ⟨⟨e₁, err⟩, h₁⟩ := addOne_total hhead hq hl W hlow hpd
      obtain ⟨C₁, W₁, -, hreg⟩ := addOne_spec hhead hq hpos W hb h₁
      rw [addLoop, h₁, Option.bind_some]
      cases err with
      | some err => exact ⟨_, rfl⟩
      | none =>
          obtain ⟨hpos₁, hb₁⟩ := C₁.keeps_base hpos hb
          refine ih (fun q hq => ?_) (fun fd => by rw [C₁.revents]; exact hq fd) hpos₁
            (Nat.lt_of_lt_of_le hl C₁.evtlistSize) W₁ hb₁ (fun fd hfd => ?_)
            (fun q hq => h q (List.mem_cons_of_mem _ hq)) (i + 1)
          · rw [C₁.size]
            exact hfd q (List.mem_cons_of_mem _ hq)
          · rcases Finset.mem_insert.mp (hreg hfd) with rfl | hfd
            · omega
            · exact hlow fd hfd

/-- **The state is unrolled** when a request is refused: the counts are as they were. -/
theorem unroll_spec (C : Counted e e' (want pds)) (hpos : ∀ fd b, 0 ≤ e.ref fd b)
    (W : Watched e.events e') (hv : ∀ pd ∈ pds, Valid e pd) :
    ∃ e'', pollsetDel pds e' = some e'' ∧ e''.ref = e.ref ∧ e''.revents = e.revents ∧
      e''.size = e.size ∧ e.evtlistSize ≤ e''.evtlistSize ∧ Watched e.events e'' := by
  obtain ⟨e'', he, C', W'⟩ := pollsetDel_spec W
    (fun pd hpd => by
      rw [C.size]
      exact (hv pd hpd).fd)
    (fun fd b hm => by
      obtain ⟨hio, hne⟩ := mem_events.mp hm
      have := hpos fd b
      rw [C.ref]
      exact ⟨hio, by omega⟩)
  refine ⟨e'', he, funext fun fd => funext fun b => ?_, C'.revents.trans C.revents,
    C'.size.trans C.size, Nat.le_trans C.evtlistSize C'.evtlistSize, W'⟩
  rw [C'.ref, C.ref]
  omega

/-- **`_st_epoll_pollset_add`** makes all requests or none, and what is counted stays watched. -/
theorem pollsetAdd_spec (hz : e.Zero) (hq : ∀ fd, e.revents fd = ∅)
    (hpos : ∀ fd b, 0 ≤ e.ref fd b) (W : Watched e.events e) {err : Option Errno}
    (h : e.pollsetAdd pds = some (e', err)) :
    (∀ fd b, e'.ref fd b = e.ref fd b + if err = none then want pds fd b else 0) ∧
      e'.revents = e.revents ∧ e.size ≤ e'.size ∧ e.evtlistSize ≤ e'.evtlistSize ∧
      Watched e'.events e' ∧ (err = none → ∀ pd ∈ pds, Valid e' pd) := by
  obtain ⟨⟨e₁, err₁⟩, h₁, h⟩ := Option.bind_eq_some_iff.mp h
  obtain ⟨G, hv⟩ := addChecks_spec hz h₁
  have hev₁ : e₁.events = e.events := events_congr G.ref
  cases err₁ with
  | some err =>
      cases h
      refine ⟨fun fd b => ?_, G.revents, G.size, G.evtlistSize, ?_, fun h => by cases h⟩
      · rw [G.ref, if_neg (by simp), Int.add_zero]
      · rw [hev₁]
        exact W.grown G
  | none =>
      have hvalid := hv rfl
      have hpos₁ : ∀ fd b, 0 ≤ e₁.ref fd b := by rw [G.ref]; exact hpos
      have W₁ : Watched e₁.events e₁ := by
        rw [hev₁]
        exact W.grown G
      obtain ⟨⟨e₂, j, err₂⟩, h₂, h⟩ := Option.bind_eq_some_iff.mp h
      obtain ⟨n, rfl, C, W₂, hW₂⟩ := addLoop_spec (fun pd hpd => (hvalid pd hpd).fd)
        (by rw [G.revents]; exact hq) hpos₁ W₁ (fun _ => Finset.Subset.refl _) h₂
      cases err₂ with
      | none =>
          cases h
          refine ⟨fun fd b => ?_, C.revents.trans G.revents, by rw [C.size]; exact G.size,
            Nat.le_trans G.evtlistSize C.evtlistSize, hW₂ rfl W₁, fun _ pd hpd =>
              (hvalid pd hpd).of_size (Nat.le_of_eq C.size.symm)⟩
          rw [C.ref, G.ref, if_pos rfl]
          rfl
      | some err =>
          obtain ⟨e₃, h₃, href, hrev, hsize, hevt, W₃⟩ := unroll_spec C hpos₁ W₂
            fun pd hpd => hvalid pd (List.mem_of_mem_take hpd)
          dsimp only at h
          rw [Nat.zero_add] at h
          obtain ⟨e₄, h₄, h⟩ := Option.map_eq_some_iff.mp h
          cases h₃.symm.trans h₄
          cases h
          refine ⟨fun fd b => ?_, hrev.trans G.revents, by rw [hsize]; exact G.size,
            Nat.le_trans G.evtlistSize hevt, ?_, fun h => by cases h⟩
          · rw [href, G.ref, if_neg (by simp), Int.add_zero]
          · rw [events_congr href]
            exact W₃

/-- **It returns** while all descriptors are below `2 ^ 30`. -/
theorem pollsetAdd_total (hs : 0 < e.size) (hl : 0 < e.evtlistSize) (hz : e.Zero)
    (hq : ∀ fd, e.revents fd = ∅) (hpos : ∀ fd b, 0 ≤ e.ref fd b) (W : Watched e.events e)
    (hlow : ∀ fd ∈ e.registered, fd < 2 ^ 30) (h : ∀ pd ∈ pds, pd.fd < 2 ^ 30) :
    ∃ r, e.pollsetAdd pds = some r := by
  obtain ⟨⟨e₁, err⟩, h₁⟩ := addChecks_total hs hz h
  obtain ⟨G, hv⟩ := addChecks_spec hz h₁
  rw [pollsetAdd, h₁, Option.bind_some]
  cases err with
  | some err => exact ⟨_, rfl⟩
  | none =>
      have hvalid := hv rfl
      have hfd : ∀ pd ∈ pds, 0 ≤ pd.fd ∧ pd.fd < e₁.size := fun pd hpd => (hvalid pd hpd).fd
      have hq₁ : ∀ fd, e₁.revents fd = ∅ := by rw [G.revents]; exact hq
      have hpos₁ : ∀ fd b, 0 ≤ e₁.ref fd b := by rw [G.ref]; exact hpos
      have W₁ : Watched e₁.events e₁ := by
        rw [events_congr G.ref]
        exact W.grown G
      have hsub : ∀ fd, e₁.events fd ⊆ e₁.events fd := fun _ => Finset.Subset.refl _
      obtain ⟨⟨e₂, j, err⟩, h₂⟩ := addLoop_total hfd hq₁ hpos₁
        (Nat.lt_of_lt_of_le hl G.evtlistSize) W₁ hsub (by rw [G.registered]; exact hlow) h 0
      obtain ⟨n, rfl, C, W₂, -⟩ := addLoop_spec hfd hq₁ hpos₁ W₁ hsub h₂
      dsimp only
      rw [h₂, Option.bind_some]
      cases err with
      | none => exact ⟨_, rfl⟩
      | some err =>
          obtain ⟨e₃, h₃, -⟩ := unroll_spec C hpos₁ W₂
            fun pd hpd => hvalid pd (List.mem_of_mem_take hpd)
          refine ⟨(e₃, some err), ?_⟩
          dsimp only
          rw [Nat.zero_add]
          exact congrArg (Option.map _) h₃

/-! ### `_st_epoll_dispatch` -/

/-- The descriptor of the request fired, with an event of the request or an error. -/
def Hits (fired : List (Nat × Mask)) (pd : Pollfd) : Prop :=
  ∃ r ∈ fired, pd.fd = r.1 ∧ (pd.events ∩ r.2 ≠ ∅ ∨ .POLLERR ∈ r.2 ∨ .POLLHUP ∈ r.2)

instance (fired : List (Nat × Mask)) (pd : Pollfd) : Decidable (Hits fired pd) :=
  inferInstanceAs (Decidable (∃ r ∈ fired, _))

/-- What the first loop writes for a descriptor that fired. -/
def marked (e : Epoll) (r : Nat × Mask) : Mask :=
  if .POLLERR ∈ r.2 ∨ .POLLHUP ∈ r.2 then r.2 ∪ e.events r.1 else r.2

/-- **The first loop** marks the descriptors that fired. -/
theorem mark_spec (hlt : ∀ r ∈ fired, r.1 < e.size) (hn : (fired.map Prod.fst).Nodup) :
    ∃ R, mark fired e = some { e with revents := R } ∧
      (∀ fd, fd ∉ fired.map Prod.fst → R fd = e.revents fd) ∧
      ∀ r ∈ fired, R r.1 = e.marked r := by
  induction fired generalizing e with
  | nil => exact ⟨e.revents, rfl, fun _ _ => rfl, fun _ h => by cases h⟩
  | cons r fired ih =>
      obtain ⟨fd, evs⟩ := r
      obtain ⟨hnot, hn⟩ := List.nodup_cons.mp hn
      obtain ⟨R, hR, hout, hin⟩ := ih (e := { e with
          revents := Function.update e.revents fd (e.marked (fd, evs)) })
        (fun r hr => hlt r (List.mem_cons_of_mem _ hr)) hn
      refine ⟨R, ?_, fun x hx => ?_, fun r hr => ?_⟩
      · rw [mark, if_pos (hlt _ List.mem_cons_self)]
        exact hR
      · obtain ⟨hne, hx⟩ := not_or.mp fun h => hx (List.mem_cons.mpr h)
        exact (hout x hx).trans (Function.update_of_ne hne _ _)
      · rcases List.mem_cons.mp hr with rfl | hr
        · exact (hout fd hnot).trans (Function.update_self _ _ _)
        · exact hin r hr

theorem found_eq_empty {r evs : Mask} :
    found r evs = ∅ ↔ evs ∩ Mask.io ∩ r = ∅ ∧ .POLLERR ∉ r ∧ .POLLHUP ∉ r := by
  rw [found]
  split
  next h => simp [h]
  next h =>
    rw [Finset.union_eq_empty]
    refine and_congr_right fun _ => ?_
    rw [Finset.eq_empty_iff_forall_notMem]
    constructor
    · intro h
      exact ⟨fun hm => h .POLLERR (by simp [hm]), fun hm => h .POLLHUP (by simp [hm])⟩
    · rintro ⟨h₁, h₂⟩ b hb
      obtain ⟨hr, hb⟩ := Finset.mem_inter.mp hb
      rcases Finset.mem_insert.mp hb with rfl | hb
      · exact h₁ hr
      · exact h₂ (Finset.mem_singleton.mp hb ▸ hr)

/-- **The events of a request are reported** exactly when it is hit. -/
theorem found_iff_hits (hv : Valid e pd) (hq : ∀ fd, e.revents fd = ∅) {R : Nat → Mask}
    (hout : ∀ fd, fd ∉ fired.map Prod.fst → R fd = e.revents fd)
    (hin : ∀ r ∈ fired, R r.1 = e.marked r) :
    found (R pd.fd.toNat) pd.events ≠ ∅ ↔ Hits fired pd := by
  have hcast : (pd.fd.toNat : Int) = pd.fd := Int.toNat_of_nonneg hv.fd.1
  have hevs : pd.events ∩ Mask.io = pd.events := Finset.inter_eq_left.mpr hv.io
  rw [Ne, found_eq_empty, hevs]
  constructor
  · intro h
    by_cases hm : pd.fd.toNat ∈ fired.map Prod.fst
    · obtain ⟨r, hr, hfd⟩ := List.mem_map.mp hm
      refine ⟨r, hr, by rw [hfd, hcast], ?_⟩
      rw [← hfd, hin r hr, marked] at h
      by_cases herr : .POLLERR ∈ r.2 ∨ .POLLHUP ∈ r.2
      · exact .inr herr
      · rw [if_neg herr] at h
        obtain ⟨h₁, h₂⟩ := not_or.mp herr
        exact .inl fun he => h ⟨he, h₁, h₂⟩
    · rw [hout _ hm, hq] at h
      exact absurd (by simp) h
  · rintro ⟨r, hr, hfd, hhit⟩ ⟨h₁, h₂, h₃⟩
    have hfd' : pd.fd.toNat = r.1 := by omega
    rw [hfd', hin r hr] at h₁ h₂ h₃
    have hsub : r.2 ⊆ e.marked r := by
      rw [marked]
      split
      · exact Finset.subset_union_left
      · exact Finset.Subset.refl _
    rcases hhit with hhit | hhit | hhit
    · refine hhit (Finset.subset_empty.mp ?_)
      rw [← h₁]
      exact Finset.inter_subset_inter_left hsub
    · exact h₂ (hsub hhit)
    · exact h₃ (hsub hhit)

theorem findAll_spec (hv : ∀ pd ∈ pds, Valid e pd) :
    e.findAll pds =
      some (pds.map fun pd => { pd with revents := found (e.revents pd.fd.toNat) pd.events }) := by
  rw [findAll]
  induction pds with
  | nil => rfl
  | cons pd pds ih =>
      rw [List.mapM_cons, index?_of_lt (hv pd List.mem_cons_self).fd,
        ih fun q hq => hv q (List.mem_cons_of_mem _ hq)]
      rfl

/-- Only `revents` was written. -/
theorem want_found (R : Nat → Mask) :
    want (pds.map fun pd => { pd with revents := found (R pd.fd.toNat) pd.events }) fd b =
      want pds fd b := by
  rw [want, List.map_map]
  rfl

/-- **The last loop** releases the descriptors that fired. -/
theorem sweep_spec (hlt : ∀ r ∈ fired, r.1 < e.size)
    (hout : ∀ fd, fd ∉ fired.map Prod.fst → e.revents fd = ∅) (W : Watched e.events e) :
    ∃ e', sweep fired e = some e' ∧ e'.ref = e.ref ∧ (∀ fd, e'.revents fd = ∅) ∧
      e'.size = e.size ∧ e.evtlistSize ≤ e'.evtlistSize ∧ Watched e'.events e' := by
  induction fired generalizing e with
  | nil => exact ⟨e, rfl, rfl, fun fd => hout fd (by simp), rfl, Nat.le_refl _, W⟩
  | cons r fired ih =>
      obtain ⟨x, evs⟩ := r
      have C : Counted { e with revents := Function.update e.revents x ∅ }
          (({ e with revents := Function.update e.revents x ∅ } : Epoll).release x)
          fun _ _ => 0 := release_counted
      have W₁ : Watched e.events
          (({ e with revents := Function.update e.revents x ∅ } : Epoll).release x) := by
        refine watched_release (Finset.Subset.refl _) W.covers (fun fd hr hne hrev => ?_) W.inside
          W.counted
        exact W.used fd hr ((Function.update_of_ne hne _ _).symm.trans hrev)
      obtain ⟨e', he, href, hq, hsize, hevt, W'⟩ := ih
        (e := ({ e with revents := Function.update e.revents x ∅ } : Epoll).release x)
        (fun r hr => by
          rw [C.size]
          exact hlt r (List.mem_cons_of_mem _ hr))
        (fun fd hfd => by
          rw [C.revents]
          by_cases hx : fd = x
          · rw [hx]
            exact Function.update_self _ _ _
          · exact (Function.update_of_ne hx _ _).trans (hout fd (by simpa [hx] using hfd)))
        (by rw [C.events_eq]; exact W₁)
      refine ⟨e', ?_, ?_, hq, hsize.trans C.size, Nat.le_trans C.evtlistSize hevt, W'⟩
      · rw [sweep, if_pos (hlt _ List.mem_cons_self)]
        exact he
      · rw [href]
        exact funext fun fd => funext fun b => by rw [C.ref, Int.add_zero]

end Epoll

end StCoroutine.Sched
