import Mathlib.Data.List.Range
import Mathlib.Algebra.Ring.Int.Defs
import StCoroutine.Lib.Lts

/-!
# Transfer — the loops over a vector of buffers

`st_readv_resid`, `st_writev_resid` and `st_writev` of `io.c`, with `st_read_fully` and `st_write`
that call the first two.  A round of a loop is a call of `read`, `write`, `readv` or `writev`, what
the loop makes of it, and the `st_netfd_poll` behind it.  The kernel moves bytes from the front of
the vector: what it has moved is the list of their addresses, in order.  `none` is a round that the
kernel cannot answer so, or a walk past the end of the vector.
-/

set_option autoImplicit false

namespace StCoroutine.Sched.Transfer
open Lts

/-- `struct iovec`. -/
structure Iovec where
  base : Nat
  len : Nat
  deriving DecidableEq, Repr

/-- The addresses of a vector. -/
def addrs (iov : List Iovec) : List Nat := iov.flatMap fun v => List.range' v.base v.len

/-- What a round of a loop finds: the call is interrupted, fails, would block, or moves `n` bytes;
and `st_netfd_poll` returns `0` or not. -/
inductive Round where
  | EINTR
  | failed
  | notReady (polled : Bool)
  | moved (n : Nat) (polled : Bool)
  deriving DecidableEq, Repr

/-! ### `st_readv_resid` and `st_writev_resid` -/

/-- `*iov` with `*iov_size`, what was moved, and what the function has returned. -/
structure Resid where
  iov : List Iovec
  done : List Nat
  ret : Option Int
  deriving DecidableEq, Repr

/-- The loop that passes over the vectors that are done, and the change of the next one. -/
def advance : Nat → List Iovec → Option (List Iovec)
  | _, [] => none
  | n, v :: iov =>
      if v.len ≤ n then
        if n - v.len = 0 then some iov else advance (n - v.len) iov
      else some (⟨v.base + n, v.len - n⟩ :: iov)

namespace Resid

/-- The function is called. -/
def enter (iov : List Iovec) : Resid := ⟨iov, [], if iov = [] then some 0 else none⟩

/-- `if (st_netfd_poll(..) < 0) return -1;`. -/
def wait (s : Resid) (polled : Bool) : Resid := if polled then s else { s with ret := some (-1) }

/-- A round; only `st_readv_resid` ends when nothing was moved (`reads`). -/
def step (reads : Bool) (s : Resid) (r : Round) : Option Resid :=
  if s.ret ≠ none then none
  else
    match r with
    | .EINTR => some s
    | .failed => some { s with ret := some (-1) }
    | .notReady polled => some (s.wait polled)
    | .moved n polled =>
        if (addrs s.iov).length < n then none
        else if reads = true ∧ n = 0 then some { s with ret := some 0 }
        else
          (advance n s.iov).map fun iov =>
            let s' : Resid := { s with iov := iov, done := s.done ++ (addrs s.iov).take n }
            if iov = [] then { s' with ret := some 0 } else s'.wait polled

/-- `*resid` of `st_read_resid` and `st_write_resid`, whose vector has one buffer. -/
def resid (s : Resid) : Nat := (addrs s.iov).length

/-- What `st_read_fully` and `st_write` return for `nbyte` bytes. -/
def result (nbyte : Nat) (s : Resid) : Option Int :=
  s.ret.map fun r => if r = 0 then (nbyte : Int) - s.resid else -1

end Resid

/-! ### `st_writev` -/

/-- A round of `st_writev`; `calloc` is not `NULL`. -/
structure WritevRound where
  round : Round
  memory : Bool
  deriving DecidableEq, Repr

/-- `tmp_iov` with `iov_cnt`, whether it is a copy, `nleft`, what was moved, the call of `st_write`
for the last buffer, and what the function has returned. -/
structure Writev where
  tmp : List Iovec
  copied : Bool
  nleft : Nat
  done : List Nat
  last : Option Resid
  ret : Option Int
  deriving DecidableEq, Repr

/-- The next vector that is not written, after `n` bytes of all. -/
def seek : Nat → List Iovec → Option (List Iovec)
  | _, [] => none
  | n, v :: iov =>
      if v.len ≤ n then seek (n - v.len) iov else some (⟨v.base + n, v.len - n⟩ :: iov)

namespace Writev

/-- `while (nleft > 0)`, and `st_write` when one buffer is left. -/
def loop (nbyte : Nat) (s : Writev) : Writev :=
  if s.nleft = 0 then { s with ret := some nbyte }
  else
    match s.tmp with
    | [v] => { s with last := some (.enter [⟨v.base, s.nleft⟩]) }
    | _ => s

/-- `st_writev` is called. -/
def enter (iov : List Iovec) : Writev :=
  let nbyte := (addrs iov).length
  loop nbyte ⟨iov, false, nbyte, [], none, none⟩

/-- `if (st_netfd_poll(..) < 0) { rv = -1; break; }`, and the next round. -/
def wait (nbyte : Nat) (s : Writev) (polled : Bool) : Writev :=
  if polled then s.loop nbyte else { s with ret := some (-1) }

/-- `_LOCAL_MAXIOV`. -/
def localMaxiov : Nat := 16

def step (iov : List Iovec) (s : Writev) (r : WritevRound) : Option Writev :=
  let nbyte := (addrs iov).length
  if s.ret ≠ none then none
  else
    match s.last with
    | some w =>
        (w.step false r.round).map fun w =>
          -- `if (st_write(..) != nleft) rv = -1;`
          { s with last := some w, ret := (w.result s.nleft).map fun n =>
              if n ≠ (s.nleft : Int) then -1 else (nbyte : Int) }
    | none =>
        match r.round with
        | .EINTR => some (s.loop nbyte)
        | .failed => some { s with ret := some (-1) }
        | .notReady polled => some (s.wait nbyte polled)
        | .moved n polled =>
            if s.nleft < n then none
            else
              let s := { s with done := s.done ++ (addrs s.tmp).take n }
              if n = s.nleft then some { s with ret := some nbyte }
              else
                (seek (nbyte - (s.nleft - n)) iov).map fun tmp =>
                  let s := { s with nleft := s.nleft - n }
                  if s.copied = false ∧ localMaxiov < tmp.length ∧ r.memory = false then
                    { s with ret := some (-1) }
                  else ({ s with tmp := tmp, copied := true } : Writev).wait nbyte polled

/-- The addresses of what was moved. -/
def moved (s : Writev) : List Nat := s.done ++ (s.last.map Resid.done).getD []

end Writev

/-! ### Walking the vector -/

variable {n : Nat} {v : Iovec} {iov : List Iovec}

theorem addrs_cons : addrs (v :: iov) = List.range' v.base v.len ++ addrs iov := rfl

theorem length_addrs_cons : (addrs (v :: iov)).length = v.len + (addrs iov).length := by
  rw [addrs_cons, List.length_append, List.length_range']

/-- The first buffer is done, and more. -/
theorem drop_addrs_of_le (h : v.len ≤ n) :
    (addrs (v :: iov)).drop n = (addrs iov).drop (n - v.len) := by
  rw [addrs_cons, List.drop_append, List.length_range', List.drop_eq_nil_of_le (by simpa using h),
    List.nil_append]

/-- The first buffer is done in part. -/
theorem drop_addrs_of_lt (h : n < v.len) :
    (addrs (v :: iov)).drop n = addrs (⟨v.base + n, v.len - n⟩ :: iov) := by
  rw [addrs_cons, List.drop_append, List.length_range', Nat.sub_eq_zero_of_le (Nat.le_of_lt h),
    List.drop_zero, addrs_cons, List.drop_range', Nat.mul_one]

/-- **`advance`** leaves what was not moved, and does not walk past the end. -/
theorem advance_spec (hne : iov ≠ []) (h : n ≤ (addrs iov).length) :
    ∃ iov', advance n iov = some iov' ∧ addrs iov' = (addrs iov).drop n := by
  induction iov generalizing n with
  | nil => exact absurd rfl hne
  | cons v iov ih =>
      rw [length_addrs_cons] at h
      rw [advance]
      by_cases hv : v.len ≤ n
      · rw [if_pos hv, drop_addrs_of_le hv]
        by_cases hz : n - v.len = 0
        · exact ⟨iov, if_pos hz, by rw [hz, List.drop_zero]⟩
        · rw [if_neg hz]
          refine ih (fun he => hz ?_) (by omega)
          rw [he] at h
          have hnil : (addrs []).length = 0 := rfl
          omega
      · rw [if_neg hv]
        exact ⟨_, rfl, (drop_addrs_of_lt (by omega)).symm⟩

/-- A vector without an empty buffer stays one. -/
theorem pos_of_advance {iov' : List Iovec} (h : advance n iov = some iov')
    (hpos : ∀ u ∈ iov, 0 < u.len) : ∀ u ∈ iov', 0 < u.len := by
  induction iov generalizing n with
  | nil => cases h
  | cons v iov ih =>
      have htail : ∀ u ∈ iov, 0 < u.len := fun u hu => hpos u (List.mem_cons_of_mem _ hu)
      rw [advance] at h
      split at h
      · split at h
        · cases h
          exact htail
        · exact ih h htail
      · cases h
        intro u hu
        rcases List.mem_cons.mp hu with rfl | hu
        · show 0 < v.len - n
          omega
        · exact htail u hu

theorem addrs_ne_nil (hne : iov ≠ []) (hpos : ∀ u ∈ iov, 0 < u.len) : addrs iov ≠ [] := by
  cases iov with
  | nil => exact absurd rfl hne
  | cons v iov =>
      intro h
      have hlen : (addrs (v :: iov)).length = 0 := by rw [h, List.length_nil]
      rw [length_addrs_cons] at hlen
      have := hpos v List.mem_cons_self
      omega

/-- **`seek`** finds what was not written, while something is left. -/
theorem seek_spec (h : n < (addrs iov).length) :
    ∃ iov', seek n iov = some iov' ∧ addrs iov' = (addrs iov).drop n := by
  induction iov generalizing n with
  | nil => exact absurd h (Nat.not_lt_zero n)
  | cons v iov ih =>
      rw [length_addrs_cons] at h
      rw [seek]
      by_cases hv : v.len ≤ n
      · rw [if_pos hv, drop_addrs_of_le hv]
        exact ih (by omega)
      · rw [if_neg hv]
        exact ⟨_, rfl, (drop_addrs_of_lt (by omega)).symm⟩

/-- The kernel can move so much. -/
def Round.Fits (left : Nat) : Round → Prop
  | .moved n _ => n ≤ left
  | .EINTR | .failed | .notReady _ => True

/-! ### `st_readv_resid` and `st_writev_resid` -/

namespace Resid

variable {s s' : Resid} {r : Round} {rs : List Round} {reads : Bool}

/-- What was moved is what is gone from the front of the vector; a loop that goes on has a buffer
left, and so has one that has failed. -/
structure Inv (iov : List Iovec) (s : Resid) : Prop where
  kept : s.done ++ addrs s.iov = addrs iov
  pos : (∀ u ∈ iov, 0 < u.len) → ∀ u ∈ s.iov, 0 < u.len
  going : s.ret = none → s.iov ≠ []
  codes : ∀ c, s.ret = some c → c = 0 ∨ c = -1 ∧ s.iov ≠ []

theorem inv_enter (iov : List Iovec) : Inv iov (enter iov) := by
  refine ⟨List.nil_append _, fun h => h, fun h he => ?_, fun c h => ?_⟩
  · have he : iov = [] := he
    rw [enter, if_pos he] at h
    cases h
  · rw [enter] at h
    dsimp only at h
    split at h
    · cases h
      exact .inl rfl
    · cases h

/-- The loop returns. -/
theorem Inv.returns (I : Inv iov s) {c : Int} (hc : c = 0 ∨ c = -1 ∧ s.iov ≠ []) :
    Inv iov { s with ret := some c } :=
  ⟨I.kept, I.pos, fun h => absurd h (Option.some_ne_none c), fun _ h => Option.some.inj h ▸ hc⟩

theorem Inv.wait {polled : Bool} (I : Inv iov s) (hr : s.ret = none) : Inv iov (s.wait polled) := by
  rw [Resid.wait]
  split
  · exact I
  · exact I.returns (.inr ⟨rfl, I.going hr⟩)

theorem wait_ret_ne {polled : Bool} (hr : s.ret = none) : (s.wait polled).ret ≠ some 0 := by
  rw [Resid.wait]
  split
  · rw [hr]
    simp
  · simp

/-- **A round** of a loop that goes on can be made and keeps the invariant; it returns `0` when
nothing is left, or when nothing was read. -/
theorem Inv.round (I : Inv iov s) (hr : s.ret = none) (hf : r.Fits (addrs s.iov).length)
    (reads : Bool) :
    ∃ s', s.step reads r = some s' ∧ Inv iov s' ∧ (s'.ret = some 0 →
      s'.iov = [] ∨ reads = true ∧ ∃ polled, r = .moved 0 polled) := by
  unfold step
  rw [if_neg (not_not.mpr hr)]
  cases r with
  | EINTR => exact ⟨s, rfl, I, fun h => absurd (hr.symm.trans h) (by simp)⟩
  | failed => exact ⟨_, rfl, I.returns (.inr ⟨rfl, I.going hr⟩), fun h => absurd h (by simp)⟩
  | notReady polled => exact ⟨_, rfl, I.wait hr, fun h => absurd h (wait_ret_ne hr)⟩
  | moved n polled =>
      have hf : n ≤ (addrs s.iov).length := hf
      dsimp only
      rw [if_neg (Nat.not_lt.mpr hf)]
      by_cases hz : reads = true ∧ n = 0
      · rw [if_pos hz]
        exact ⟨_, rfl, I.returns (.inl rfl), fun _ => .inr ⟨hz.1, polled, by rw [hz.2]⟩⟩
      · rw [if_neg hz]
        obtain ⟨iov', hadv, hdrop⟩ := advance_spec (I.going hr) hf
        rw [hadv, Option.map_some]
        have hkept : s.done ++ (addrs s.iov).take n ++ addrs iov' = addrs iov := by
          rw [hdrop, List.append_assoc, List.take_append_drop, I.kept]
        have hpos : (∀ u ∈ iov, 0 < u.len) → ∀ u ∈ iov', 0 < u.len := fun h =>
          pos_of_advance hadv (I.pos h)
        by_cases hnil : iov' = []
        · rw [if_pos hnil]
          exact ⟨_, rfl, ⟨hkept, hpos, fun h => absurd h (by simp),
            fun c h => .inl (Option.some.inj h).symm⟩, fun _ => .inl hnil⟩
        · rw [if_neg hnil]
          have I' : Inv iov { s with iov := iov', done := s.done ++ (addrs s.iov).take n } :=
            ⟨hkept, hpos, fun _ => hnil, fun c h => absurd (hr.symm.trans h) (by simp)⟩
          exact ⟨_, rfl, I'.wait hr, fun h => absurd h (wait_ret_ne hr)⟩

theorem fits_of_step (h : s.step reads r = some s') :
    s.ret = none ∧ r.Fits (addrs s.iov).length := by
  unfold step at h
  split at h
  · cases h
  · rename_i hr
    refine ⟨not_not.mp hr, ?_⟩
    cases r with
    | moved n polled =>
        dsimp only at h
        split at h
        · cases h
        · rename_i hn
          exact Nat.not_lt.mp hn
    | _ => trivial

theorem inv_of_exec (h : exec (step reads) (enter iov) rs = some s) :
    Inv iov s ∧ (s.ret = some 0 →
      s.iov = [] ∨ reads = true ∧ ∃ polled, rs.getLast? = some (.moved 0 polled)) := by
  refine exec_ind (P := fun rs s => Inv iov s ∧ (s.ret = some 0 →
    s.iov = [] ∨ reads = true ∧ ∃ polled, rs.getLast? = some (.moved 0 polled)))
    ⟨inv_enter iov, fun h => ?_⟩ ?_ h
  · left
    by_contra hne
    have hne : iov ≠ [] := hne
    rw [enter, if_neg hne] at h
    cases h
  · rintro rs s r s' - ⟨I, -⟩ hs
    obtain ⟨hr, hf⟩ := fits_of_step hs
    obtain ⟨s₁, h₁, I₁, hz⟩ := I.round hr hf reads
    rw [hs] at h₁
    cases h₁
    refine ⟨I₁, fun h => (hz h).imp_right fun ⟨hreads, polled, hp⟩ => ⟨hreads, polled, ?_⟩⟩
    rw [List.getLast?_concat, hp]

/-- **`st_readv_resid` and `st_writev_resid` move every address once, in order**: what they have
moved and what they leave is the vector.  What `st_read_fully` and `st_write` return is `-1` or the
number of bytes moved, all of them unless a read has found the end; and no round walks past the end
of the vector. -/
theorem resid_moves (h : exec (step reads) (enter iov) rs = some s) :
    s.done ++ addrs s.iov = addrs iov ∧
      (∀ c, s.result (addrs iov).length = some c → c = -1 ∨ (c = s.done.length ∧
        (s.iov = [] ∨ reads = true ∧ ∃ polled, rs.getLast? = some (.moved 0 polled)))) ∧
      (s.ret = none → ∀ r, r.Fits (addrs s.iov).length → (s.step reads r).isSome = true) := by
  obtain ⟨I, hz⟩ := inv_of_exec h
  refine ⟨I.kept, fun c hc => ?_, fun hr r hf => ?_⟩
  · obtain ⟨c₀, hc₀, rfl⟩ := Option.map_eq_some_iff.mp hc
    rcases I.codes c₀ hc₀ with rfl | ⟨rfl, -⟩
    · refine .inr ⟨?_, hz hc₀⟩
      have hlen := congrArg List.length I.kept
      rw [List.length_append] at hlen
      rw [if_pos rfl, resid, ← hlen]
      omega
    · exact .inl rfl
  · obtain ⟨s', hs, -⟩ := I.round hr hf reads
    rw [hs]
    rfl

/-- Five bytes in two buffers are read in two rounds. -/
theorem resid_moves_two :
    [10, 11, 12, 20, 21] ++ addrs [] = addrs [⟨10, 3⟩, ⟨20, 2⟩] ∧
      (∀ c, (⟨[], [10, 11, 12, 20, 21], some 0⟩ : Resid).result 5 = some c →
        c = -1 ∨ (c = (5 : Nat) ∧ (([] : List Iovec) = [] ∨ true = true ∧ ∃ polled,
          [Round.moved 2 true, .notReady true, .moved 3 true].getLast? =
            some (.moved 0 polled)))) ∧
      ((some 0 : Option Int) = none → ∀ r, r.Fits (addrs []).length →
        ((⟨[], [10, 11, 12, 20, 21], some 0⟩ : Resid).step true r).isSome = true) :=
  resid_moves (show exec (step true) (enter [⟨10, 3⟩, ⟨20, 2⟩])
    [.moved 2 true, .notReady true, .moved 3 true] = some ⟨[], [10, 11, 12, 20, 21], some 0⟩
    by decide)

end Resid

/-! ### `st_writev` -/

namespace Writev

variable {s s' : Writev} {r : WritevRound} {rs : List WritevRound}

/-- What can be made of the vector: a round of the loop of `st_write` once it is called, or else of
the loop of `st_writev`. -/
def Fits (s : Writev) (r : WritevRound) : Prop :=
  r.round.Fits (match s.last with
    | some w => (addrs w.iov).length
    | none => s.nleft)

/-- What is written and what is left make the vector. -/
structure Going (iov tmp : List Iovec) (nleft : Nat) (done : List Nat) : Prop where
  kept : done ++ addrs tmp = addrs iov
  nleft : nleft = (addrs tmp).length

/-- **What every round keeps**: the loop goes on, `st_write` is called for the last buffer `v`, or
`st_writev` has returned, the number of bytes when all were written and else `-1`. -/
inductive Inv (iov : List Iovec) : Writev → Prop where
  | going {tmp : List Iovec} {copied : Bool} {nleft : Nat} {done : List Nat}
      (G : Going iov tmp nleft done) (hpos : 0 < nleft) :
      Inv iov ⟨tmp, copied, nleft, done, none, none⟩
  | last {tmp : List Iovec} {copied : Bool} {nleft : Nat} {done : List Nat} {w : Resid} {v : Iovec}
      (hv : v.len = nleft) (hkept : done ++ addrs [v] = addrs iov) (I : Resid.Inv [v] w)
      (hret : w.ret = none) (hpos : 0 < nleft) :
      Inv iov ⟨tmp, copied, nleft, done, some w, none⟩
  | all {s : Writev} (hret : s.ret = some ((addrs iov).length : Int)) (h : s.moved = addrs iov) :
      Inv iov s
  | failed {s : Writev} {rest : List Nat} (hret : s.ret = some (-1)) (hne : rest ≠ [])
      (h : s.moved ++ rest = addrs iov) : Inv iov s

variable {tmp : List Iovec} {copied : Bool} {nleft : Nat} {done : List Nat}

/-- Less than everything is written. -/
theorem Going.fails (G : Going iov tmp nleft done) (hpos : 0 < nleft) :
    Inv iov ⟨tmp, copied, nleft, done, none, some (-1)⟩ := by
  refine @Inv.failed iov _ (addrs tmp) rfl (fun h => ?_) ?_
  · rw [G.nleft, h] at hpos
    exact Nat.lt_irrefl 0 hpos
  · show done ++ [] ++ addrs tmp = addrs iov
    rw [List.append_nil, G.kept]

/-- The next round: `st_writev` returns, or calls `st_write`, or goes on. -/
theorem Going.loop (G : Going iov tmp nleft done) :
    Inv iov (Writev.loop (addrs iov).length ⟨tmp, copied, nleft, done, none, none⟩) := by
  unfold Writev.loop
  dsimp only
  by_cases hz : nleft = 0
  · rw [if_pos hz]
    have hnil : addrs tmp = [] := List.eq_nil_of_length_eq_zero (G.nleft ▸ hz)
    refine .all rfl ?_
    show done ++ [] = addrs iov
    rw [← G.kept, hnil]
  · rw [if_neg hz]
    have hpos := Nat.pos_of_ne_zero hz
    split
    next v =>
      have hlen : v.len = nleft := by
        rw [G.nleft, length_addrs_cons]
        rfl
      subst hlen
      exact .last rfl G.kept (Resid.inv_enter _) rfl hpos
    next => exact .going G hpos

theorem inv_enter (iov : List Iovec) : Inv iov (enter iov) :=
  Going.loop ⟨List.nil_append _, rfl⟩

theorem Going.wait (G : Going iov tmp nleft done) (hpos : 0 < nleft) (polled : Bool) :
    Inv iov (Writev.wait (addrs iov).length ⟨tmp, copied, nleft, done, none, none⟩ polled) := by
  rw [Writev.wait]
  split
  · exact G.loop
  · exact G.fails hpos

/-- What `writev` has written is not all. -/
theorem Going.moves {n : Nat} (G : Going iov tmp nleft done) (hn : n < nleft) :
    ∃ tmp', seek ((addrs iov).length - (nleft - n)) iov = some tmp' ∧
      Going iov tmp' (nleft - n) (done ++ (addrs tmp).take n) := by
  have hlen := congrArg List.length G.kept
  rw [List.length_append, ← G.nleft] at hlen
  have hat : (addrs iov).length - (nleft - n) = done.length + n := by omega
  obtain ⟨tmp', htmp, hdrop⟩ :=
    seek_spec (show done.length + n < (addrs iov).length by omega)
  have hrest : addrs tmp' = (addrs tmp).drop n := by
    rw [hdrop, ← G.kept, List.drop_append, List.drop_eq_nil_of_le (by omega), List.nil_append,
      Nat.add_sub_cancel_left]
  refine ⟨tmp', by rw [hat, htmp], ?_, ?_⟩
  · rw [hrest, List.append_assoc, List.take_append_drop, G.kept]
  · rw [hrest, List.length_drop, G.nleft]

/-- **A round of the loop.** -/
theorem Going.round (G : Going iov tmp nleft done) (hpos : 0 < nleft)
    (hf : r.round.Fits nleft) :
    ∃ s', step iov ⟨tmp, copied, nleft, done, none, none⟩ r = some s' ∧ Inv iov s' := by
  unfold step
  dsimp only
  rw [if_neg (not_not.mpr rfl)]
  cases hr : r.round with
  | EINTR => exact ⟨_, rfl, G.loop⟩
  | failed => exact ⟨_, rfl, G.fails hpos⟩
  | notReady polled => exact ⟨_, rfl, G.wait hpos polled⟩
  | moved n polled =>
      rw [hr] at hf
      have hf : n ≤ nleft := hf
      dsimp only
      rw [if_neg (Nat.not_lt.mpr hf)]
      by_cases hn : n = nleft
      · rw [if_pos hn]
        refine ⟨_, rfl, .all rfl ?_⟩
        show done ++ (addrs tmp).take n ++ [] = addrs iov
        rw [List.append_nil, hn, G.nleft, List.take_length, G.kept]
      · rw [if_neg hn]
        have hlt : n < nleft := Nat.lt_of_le_of_ne hf hn
        obtain ⟨tmp', htmp, G'⟩ := G.moves hlt
        rw [htmp, Option.map_some]
        have hpos' : 0 < nleft - n := Nat.sub_pos_of_lt hlt
        split
        · -- `calloc` fails: what was written is not all
          refine ⟨_, rfl, @Inv.failed iov _ (addrs tmp') rfl (fun h => ?_) ?_⟩
          · have hleft := G'.nleft
            rw [h] at hleft
            exact absurd hleft (Nat.ne_of_gt hpos')
          · show done ++ (addrs tmp).take n ++ [] ++ addrs tmp' = addrs iov
            rw [List.append_nil, G'.kept]
        · exact ⟨_, rfl, G'.wait hpos' polled⟩

/-- **A round of `st_write`** for the last buffer. -/
theorem Inv.lastRound {w : Resid} {v : Iovec} (hv : v.len = nleft)
    (hkept : done ++ addrs [v] = addrs iov) (I : Resid.Inv [v] w) (hret : w.ret = none)
    (hpos : 0 < nleft) (hf : r.round.Fits (addrs w.iov).length) :
    ∃ s', step iov ⟨tmp, copied, nleft, done, some w, none⟩ r = some s' ∧ Inv iov s' := by
  obtain ⟨w', hw, I', hz⟩ := I.round hret hf false
  have hall : done ++ w'.done ++ addrs w'.iov = addrs iov := by
    rw [List.append_assoc, I'.kept, hkept]
  unfold step
  dsimp only
  rw [if_neg (not_not.mpr rfl), hw, Option.map_some]
  refine ⟨_, rfl, ?_⟩
  cases hc : w'.ret with
  | none =>
      rw [Resid.result, hc]
      exact .last hv hkept I' hc hpos
  | some c =>
      rw [Resid.result, hc]
      rcases I'.codes c hc with rfl | ⟨rfl, hne⟩
      · have hnil : addrs w'.iov = [] := by
          rw [(hz hc).resolve_right fun h => Bool.false_ne_true h.1]
          rfl
        refine .all ?_ ?_
        · simp [Resid.resid, hnil]
        · rw [hnil, List.append_nil] at hall
          exact hall
      · refine .failed ?_ (addrs_ne_nil hne (I'.pos fun u hu => ?_)) hall
        · have hn : (-1 : Int) ≠ nleft := by omega
          simp [hn]
        · rw [List.mem_singleton.mp hu, hv]
          exact hpos

/-- **A round** of a call that has not returned can be made, and keeps the invariant. -/
theorem Inv.round (I : Inv iov s) (hr : s.ret = none) (hf : s.Fits r) :
    ∃ s', s.step iov r = some s' ∧ Inv iov s' := by
  cases I with
  | going G hpos => exact G.round hpos hf
  | last hv hkept I hret hpos => exact Inv.lastRound hv hkept I hret hpos hf
  | all hret => exact absurd (hr.symm.trans hret) (by simp)
  | failed hret => exact absurd (hr.symm.trans hret) (by simp)

theorem fits_of_step (h : s.step iov r = some s') : s.ret = none ∧ s.Fits r := by
  unfold step at h
  dsimp only at h
  split at h
  · cases h
  · rename_i hr
    refine ⟨not_not.mp hr, ?_⟩
    rw [Fits]
    split at h
    next w hw =>
      obtain ⟨w', hw', -⟩ := Option.map_eq_some_iff.mp h
      exact (Resid.fits_of_step hw').2
    next hw =>
      cases hround : r.round with
      | moved n polled =>
          rw [hround] at h
          dsimp only at h
          split at h
          · cases h
          · rename_i hn
            exact Nat.not_lt.mp hn
      | _ => trivial

theorem inv_of_exec (h : exec (step iov) (enter iov) rs = some s) : Inv iov s := by
  refine exec_inv (inv_enter iov) ?_ h
  intro s r s' I hs
  obtain ⟨hr, hf⟩ := fits_of_step hs
  obtain ⟨s₁, h₁, I₁⟩ := I.round hr hf
  rw [hs] at h₁
  cases h₁
  exact I₁

theorem Inv.prefix_moved (I : Inv iov s) : s.moved <+: addrs iov := by
  cases I with
  | @going tmp copied nleft done G hpos =>
      refine ⟨addrs tmp, ?_⟩
      show done ++ [] ++ addrs tmp = addrs iov
      rw [List.append_nil, G.kept]
  | @last tmp copied nleft done w v hv hkept I =>
      refine ⟨addrs w.iov, ?_⟩
      show done ++ w.done ++ addrs w.iov = addrs iov
      rw [List.append_assoc, I.kept, hkept]
  | all hret h => exact h ▸ List.prefix_refl _
  | failed hret hne h => exact ⟨_, h⟩

/-- **`st_writev` writes every address once, in order**: what it has written is a prefix of the
vector, and it returns the number of bytes when that is all of it, and else `-1`.  No round walks
past the end of the vector. -/
theorem writev_moves (h : exec (step iov) (enter iov) rs = some s) :
    s.moved <+: addrs iov ∧
      (∀ c, s.ret = some c → (c = (addrs iov).length ∧ s.moved = addrs iov) ∨
        (c = -1 ∧ s.moved ≠ addrs iov)) ∧
      (s.ret = none → ∀ r, s.Fits r → (s.step iov r).isSome = true) := by
  have I := inv_of_exec h
  refine ⟨I.prefix_moved, fun c hc => ?_, fun hr r hf => ?_⟩
  · cases I with
    | going => cases hc
    | last => cases hc
    | all hret h => exact .inl ⟨Option.some.inj (hc.symm.trans hret), h⟩
    | failed hret hne h =>
        refine .inr ⟨Option.some.inj (hc.symm.trans hret), fun he => hne ?_⟩
        rw [he] at h
        exact List.append_right_eq_self.mp h
  · obtain ⟨s', hs, -⟩ := I.round hr hf
    rw [hs]
    rfl

/-- Three buffers are written in two rounds, the last one by `st_write`. -/
def written : Writev :=
  ⟨[⟨30, 1⟩], true, 1, [10, 11, 20, 21], some ⟨[], [30], some 0⟩, some 5⟩

theorem writev_moves_three :
    written.moved <+: addrs [⟨10, 2⟩, ⟨20, 2⟩, ⟨30, 1⟩] ∧
      (∀ c, written.ret = some c →
        (c = (addrs [⟨10, 2⟩, ⟨20, 2⟩, ⟨30, 1⟩]).length ∧
          written.moved = addrs [⟨10, 2⟩, ⟨20, 2⟩, ⟨30, 1⟩]) ∨
        (c = -1 ∧ written.moved ≠ addrs [⟨10, 2⟩, ⟨20, 2⟩, ⟨30, 1⟩])) ∧
      (written.ret = none → ∀ r, written.Fits r →
        (written.step [⟨10, 2⟩, ⟨20, 2⟩, ⟨30, 1⟩] r).isSome = true) :=
  writev_moves (show exec (step [⟨10, 2⟩, ⟨20, 2⟩, ⟨30, 1⟩]) (enter [⟨10, 2⟩, ⟨20, 2⟩, ⟨30, 1⟩])
    [⟨.moved 4 true, true⟩, ⟨.EINTR, true⟩, ⟨.moved 1 true, true⟩] = some written by decide)

end Writev

end StCoroutine.Sched.Transfer
