import Mathlib.Algebra.BigOperators.Group.List.Basic
import Mathlib.Algebra.Ring.Int.Defs
import StCoroutine.Service.TcpClient

/-!
# Service — the byte counters of a socket

`SrsStSocket` counts the bytes it receives and sends, and `ISrsProtocolStatistic` promises the
totals over the fd.  Each of the four calls stores the count of state-threads through `nread` or
`nwrite` before it looks at it, and adds it to a counter at its last exit only.

For `read`, `write` and `writev` the exits before have a count that is not positive.  `readFully`
leaves for every count that is not the size, and the bytes of a short read are not counted:
`statistic_iff`.
-/

set_option autoImplicit false

namespace StCoroutine.Service
open Kernel Lts

/-- A call of the socket, with what state-threads answers it. -/
inductive SocketCall where
  | read (a : IoAnswer)
  | readFully (size : Int) (a : IoAnswer)
  | write (a : IoAnswer)
  | writev (a : IoAnswer)

namespace SocketCall

/-- What the call stores through `nread`, if its caller passes one. -/
def nread : SocketCall → Option Int
  | read a | readFully _ a => some a.nb
  | write _ | writev _ => none

/-- What the call stores through `nwrite`, if its caller passes one. -/
def nwrite : SocketCall → Option Int
  | read _ | readFully _ _ => none
  | write a | writev a => some a.nb

/-- If it reads fully, its count is not positive or is the size, and is not negative if it is. -/
def Complete : SocketCall → Prop
  | readFully size a => (0 < a.nb → a.nb = size) ∧ (a.nb < 0 → a.nb ≠ size)
  | read _ | write _ | writev _ => True

end SocketCall

/-- The sum of the positive counts. -/
def positives (counts : List Int) : Int := (counts.map (max 0)).sum

namespace SrsStSocket

def getRecvBytes (s : SrsStSocket) : Int := s.rbytes

def getSendBytes (s : SrsStSocket) : Int := s.sbytes

def step (s : SrsStSocket) : SocketCall → Option SrsStSocket
  | .read a => some (s.read a).2
  | .readFully size a => some (s.readFully size a).2
  | .write a => some (s.write a).2
  | .writev a => some (s.writev a).2

/-! ### One call -/

variable {s s' : SrsStSocket}

/-- **One call** adds no more than its count to the bytes received, and as much exactly when it is
complete; it adds its count to the bytes sent. -/
theorem step_spec {c : SocketCall} (hs : step s c = some s') :
    s'.rbytes ≤ s.rbytes + positives c.nread.toList ∧
      (s'.rbytes = s.rbytes + positives c.nread.toList ↔ c.Complete) ∧
      s'.sbytes = s.sbytes + positives c.nwrite.toList := by
  cases c with
  | read a =>
      cases hs
      rw [read_spec]
      simp [positives, SocketCall.nread, SocketCall.nwrite, SocketCall.Complete]
  | readFully size a =>
      cases hs
      rw [readFully_spec]
      simp only [positives, SocketCall.nread, SocketCall.nwrite, SocketCall.Complete,
        Option.toList_some, Option.toList_none, List.map_cons, List.map_nil, List.sum_cons,
        List.sum_nil, add_zero, and_true]
      split <;> omega
  | write a =>
      cases hs
      rw [write, send_spec]
      simp [positives, SocketCall.nread, SocketCall.nwrite, SocketCall.Complete]
  | writev a =>
      cases hs
      rw [writev, send_spec]
      simp [positives, SocketCall.nread, SocketCall.nwrite, SocketCall.Complete]

/-! ### Every sequence of calls -/

theorem positives_snoc (counts : List Int) (n : Option Int) :
    positives (counts ++ n.toList) = positives counts + positives n.toList := by
  simp [positives]

theorem filterMap_snoc {α β : Type*} (f : α → Option β) (l : List α) (x : α) :
    (l ++ [x]).filterMap f = l.filterMap f ++ (f x).toList := by
  cases h : f x <;> simp [h]

/-- Along a run the counter of received bytes is never too high, and it is right exactly when every
call so far was complete; the counter of sent bytes is right. -/
theorem counters_of_exec {ls : List SocketCall} (h : exec step new ls = some s) :
    s.rbytes ≤ positives (ls.filterMap SocketCall.nread) ∧
      (s.rbytes = positives (ls.filterMap SocketCall.nread) ↔ ∀ c ∈ ls, c.Complete) ∧
      s.sbytes = positives (ls.filterMap SocketCall.nwrite) := by
  refine exec_ind (P := fun ls s => s.rbytes ≤ positives (ls.filterMap SocketCall.nread) ∧
    (s.rbytes = positives (ls.filterMap SocketCall.nread) ↔ ∀ c ∈ ls, c.Complete) ∧
    s.sbytes = positives (ls.filterMap SocketCall.nwrite)) ?_ ?_ h
  · simp [new, positives]
  · rintro ls s c s' - ⟨hle, hiff, hsent⟩ hs
    obtain ⟨hle', hiff', hsent'⟩ := step_spec hs
    have hall : (∀ d ∈ ls ++ [c], d.Complete) ↔ (∀ d ∈ ls, d.Complete) ∧ c.Complete := by
      simp [or_imp, forall_and]
    rw [filterMap_snoc, filterMap_snoc, positives_snoc, positives_snoc, hall, ← hiff, ← hiff']
    -- neither call can make up for what the other has left out
    refine ⟨by omega, by omega, by omega⟩

end SrsStSocket

open SrsStSocket in
/-- **The statistics of a socket.**  After every sequence of calls, with every count or error that
state-threads answers, the bytes received and sent are the sums of the positive counts reported
through `nread` and `nwrite` exactly when every `read_fully` of the sequence with a positive count
was complete (and none failed with the size as its error). -/
theorem statistic_iff {ls : List SocketCall} {s : SrsStSocket} (h : exec step new ls = some s) :
    (s.getRecvBytes = positives (ls.filterMap SocketCall.nread) ∧
      s.getSendBytes = positives (ls.filterMap SocketCall.nwrite)) ↔ ∀ c ∈ ls, c.Complete := by
  obtain ⟨-, hrecv, hsent⟩ := counters_of_exec h
  rw [getRecvBytes, getSendBytes, hrecv]
  exact and_iff_left hsent

open SrsStSocket in
/-- A short read and a read of 5 bytes that is complete, then a short write. -/
theorem statistic_iff_complete : ∃ s,
    exec step new [.read ⟨3, false, 0⟩, .readFully 5 ⟨5, false, 1⟩, .write ⟨2, false, 2⟩] = some s ∧
      s.getRecvBytes = 8 ∧ s.getSendBytes = 2 := by
  have h : exec step new [.read ⟨3, false, 0⟩, .readFully 5 ⟨5, false, 1⟩, .write ⟨2, false, 2⟩] =
    some _ := rfl
  exact ⟨_, h, (statistic_iff h).mpr (by simp [SocketCall.Complete])⟩

open SrsStSocket in
/-- The peer closes after 3 of 5 bytes: `read_fully` reports 3, and none is counted. -/
theorem short_read_fully_not_counted :
    ¬∀ (ls : List SocketCall) (s : SrsStSocket), exec step new ls = some s →
      s.getRecvBytes = positives (ls.filterMap SocketCall.nread) ∧
        s.getSendBytes = positives (ls.filterMap SocketCall.nwrite) := by
  intro H
  have h := (H [.readFully 5 ⟨3, false, 0⟩] _ rfl).1
  revert h
  decide

end StCoroutine.Service
