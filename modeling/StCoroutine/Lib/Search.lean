import Mathlib.Data.List.Infix

/-!
# Search — where a pattern occurs, and the pieces between its occurrences

A text is a list, and a pattern a list of the same kind.  `find` looks for the first occurrence at
or behind a position, as the search of a string library does: an empty pattern occurs at every
position up to the end of the text.

* `indexOf_eq_some_iff`, `indexOf_eq_none_iff`: what a search finds, as prefixes of the suffixes.
* `lastIndexOf_append`, `indexOf_eq_lastIndexOf_iff`: the last occurrence, and when it is the first.
* `exists_last`, `last_unique`: a text is cut at the last occurrence of an element, in one way.
* `Pieces`: the pieces a text falls into when the pattern is cut out from left to right, each search
  behind the occurrence before.
* `exists_pieces`: there are such pieces for every pattern that is not empty.
* `Pieces.intercalate`, `Pieces.not_infix`: the pattern between them gives the text back, and it
  occurs in none of them.
-/

set_option autoImplicit false

namespace Search

variable {α : Type*} [DecidableEq α]

/-- The first position at which `pat` occurs. -/
def indexOf (pat : List α) : List α → Option Nat
  | [] => if pat = [] then some 0 else none
  | c :: s => if pat <+: c :: s then some 0 else (indexOf pat s).map (· + 1)

/-- The last position at which `pat` occurs. -/
def lastIndexOf (pat : List α) : List α → Option Nat
  | [] => if pat = [] then some 0 else none
  | c :: s =>
    match lastIndexOf pat s with
    | some n => some (n + 1)
    | none => if pat <+: c :: s then some 0 else none

/-- The first position from `pos` on at which `pat` occurs in `s`. -/
def find (pat s : List α) (pos : Nat) : Option Nat :=
  if pos ≤ s.length then (indexOf pat (s.drop pos)).map (pos + ·) else none

/-- `s` with `new` in place of the `n` elements from `pos` on. -/
def replace (s : List α) (pos n : Nat) (new : List α) : List α :=
  s.take pos ++ new ++ s.drop (pos + n)

/-- The `n` elements of `s` from `pos` on, or as many as there are. -/
def substr (s : List α) (pos n : Nat) : List α := (s.drop pos).take n

variable {pat pre s t new : List α} {n : Nat} {ps : List (List α)}

/-- Where the pattern occurs. -/
theorem indexOf_split (h : indexOf pat s = some n) :
    ∃ pre rest, s = pre ++ pat ++ rest ∧ pre.length = n := by
  induction s generalizing n with
  | nil =>
      obtain ⟨rfl, h⟩ := Option.ite_none_right_eq_some.mp h
      cases h
      exact ⟨[], [], rfl, rfl⟩
  | cons c s ih =>
      rw [indexOf] at h
      split at h
      · next hp =>
          obtain ⟨rest, hrest⟩ := hp
          cases h
          exact ⟨[], rest, hrest.symm, rfl⟩
      · obtain ⟨m, hm, rfl⟩ := Option.map_eq_some_iff.mp h
        obtain ⟨pre, rest, rfl, rfl⟩ := ih hm
        exact ⟨c :: pre, rest, rfl, rfl⟩

/-- **What is found** is the first position where the pattern is a prefix of the rest. -/
theorem indexOf_eq_some_iff :
    indexOf pat s = some n ↔ n ≤ s.length ∧ pat <+: s.drop n ∧ ∀ k < n, ¬ pat <+: s.drop k := by
  induction s generalizing n with
  | nil =>
      rw [indexOf, Option.ite_none_right_eq_some, List.drop_nil, List.prefix_nil]
      constructor
      · rintro ⟨hp, h⟩
        cases h
        exact ⟨le_refl _, hp, fun k hk => absurd hk (Nat.not_lt_zero k)⟩
      · rintro ⟨hn, hp, -⟩
        exact ⟨hp, congrArg some (Nat.le_zero.mp hn).symm⟩
  | cons c s ih =>
      rw [indexOf]
      split
      · next hp =>
          constructor
          · intro h
            cases h
            exact ⟨Nat.zero_le _, hp, fun k hk => absurd hk (Nat.not_lt_zero k)⟩
          · rintro ⟨-, -, hbefore⟩
            cases n with
            | zero => rfl
            | succ n => exact absurd hp (hbefore 0 (Nat.succ_pos n))
      · next hp =>
          cases n with
          | zero =>
              refine iff_of_false (fun h => ?_) fun h => hp h.2.1
              obtain ⟨m, -, hm⟩ := Option.map_eq_some_iff.mp h
              exact Nat.succ_ne_zero m hm
          | succ n =>
              rw [Option.map_eq_some_iff, List.length_cons, Nat.succ_le_succ_iff,
                List.drop_succ_cons]
              constructor
              · rintro ⟨m, hm, he⟩
                cases he
                obtain ⟨hn, hat, hbefore⟩ := ih.mp hm
                refine ⟨hn, hat, fun k hk => ?_⟩
                cases k with
                | zero => exact hp
                | succ k => exact hbefore k (Nat.lt_of_succ_lt_succ hk)
              · rintro ⟨hn, hat, hbefore⟩
                exact ⟨n, ih.mpr ⟨hn, hat, fun k hk => hbefore (k + 1) (Nat.succ_lt_succ hk)⟩, rfl⟩

/-- What is not found does not occur. -/
theorem indexOf_eq_none_iff : indexOf pat s = none ↔ ¬ pat <:+: s := by
  induction s with
  | nil => rw [indexOf, List.infix_nil, ite_eq_right_iff, imp_iff_not nofun]
  | cons c s ih =>
      rw [indexOf, List.infix_cons_iff, not_or, ← ih]
      split
      · next hp => exact iff_of_false nofun fun h => h.1 hp
      · next hp => rw [Option.map_eq_none_iff, and_iff_right hp]

/-- A pattern that occurs is found there or before. -/
theorem exists_indexOf_le (h : pat <+: s.drop n) : ∃ k ≤ n, indexOf pat s = some k := by
  cases hk : indexOf pat s with
  | none =>
      exact absurd (h.isInfix.trans (List.drop_suffix n s).isInfix) (indexOf_eq_none_iff.mp hk)
  | some k =>
      refine ⟨k, ?_, rfl⟩
      by_contra hlt
      exact (indexOf_eq_some_iff.mp hk).2.2 n (Nat.not_le.mp hlt) h

theorem indexOf_nil (s : List α) : indexOf [] s = some 0 := by
  cases s with
  | nil => rfl
  | cons c s => exact if_pos List.nil_prefix

/-- A search behind what was looked at is one in the rest. -/
theorem find_append : find pat (pre ++ s) pre.length = (indexOf pat s).map (pre.length + ·) := by
  rw [find, if_pos (by simp), List.drop_left]

theorem find_zero : find pat s 0 = indexOf pat s := by
  rw [find, if_pos (Nat.zero_le _), List.drop_zero]
  cases indexOf pat s with
  | none => rfl
  | some n => exact congrArg some (Nat.zero_add n)

/-- An occurrence in the rest, behind what was looked at. -/
theorem find_append_of_indexOf (h : indexOf pat s = some t.length) :
    find pat (pre ++ s) pre.length = some (pre ++ t).length := by
  rw [find_append, h, List.length_append]
  rfl

omit [DecidableEq α] in
theorem replace_append :
    replace (pre ++ s ++ t) pre.length s.length new = pre ++ new ++ t := by
  have hdrop : (pre ++ s ++ t).drop (pre.length + s.length) = t := by
    rw [← List.length_append, List.drop_left]
  rw [replace, hdrop, List.append_assoc pre, List.take_left]

omit [DecidableEq α] in
theorem substr_append : substr (pre ++ s ++ t) pre.length s.length = s := by
  rw [substr, List.append_assoc, List.drop_left, List.take_left]

omit [DecidableEq α] in
theorem substr_rest (h : s.length ≤ n) : substr (pre ++ s) pre.length n = s := by
  rw [substr, List.drop_left, List.take_of_length_le h]

omit [DecidableEq α] in
theorem substr_front : substr (s ++ t) 0 s.length = s := by
  rw [substr, List.drop_zero, List.take_left]

omit [DecidableEq α] in
/-- What is behind one element. -/
theorem substr_behind (s t : List α) (c : α) :
    substr (s ++ c :: t) (s.length + 1) (s ++ c :: t).length = t := by
  have hrest : substr (s ++ [c] ++ t) (s ++ [c]).length (s ++ c :: t).length = t :=
    substr_rest (by
      simp only [List.length_append, List.length_cons]
      omega)
  rwa [List.append_assoc, List.length_append] at hrest

/-! ### The last occurrence -/

theorem lastIndexOf_eq_none_iff : lastIndexOf pat s = none ↔ ¬ pat <:+: s := by
  induction s with
  | nil => rw [lastIndexOf, List.infix_nil, ite_eq_right_iff, imp_iff_not nofun]
  | cons c s ih =>
      rw [lastIndexOf, List.infix_cons_iff, not_or, ← ih]
      cases lastIndexOf pat s with
      | none =>
          dsimp only
          rw [ite_eq_right_iff, imp_iff_not nofun, and_iff_left rfl]
      | some n => exact iff_of_false nofun fun h => absurd h.2 nofun

theorem lastIndexOf_split (h : lastIndexOf pat s = some n) :
    ∃ pre rest, s = pre ++ pat ++ rest ∧ pre.length = n := by
  induction s generalizing n with
  | nil =>
      obtain ⟨rfl, h⟩ := Option.ite_none_right_eq_some.mp h
      cases h
      exact ⟨[], [], rfl, rfl⟩
  | cons c s ih =>
      rw [lastIndexOf] at h
      split at h
      · next m hm =>
          cases h
          obtain ⟨pre, rest, rfl, rfl⟩ := ih hm
          exact ⟨c :: pre, rest, rfl, rfl⟩
      · obtain ⟨⟨rest, hrest⟩, h⟩ := Option.ite_none_right_eq_some.mp h
        cases h
        exact ⟨[], rest, hrest.symm, rfl⟩

/-- Behind the last occurrence there is none, not even one that overlaps it. -/
theorem lastIndexOf_append (hpat : pat ≠ []) (h : ¬ pat <:+: (pat ++ t).tail) :
    lastIndexOf pat (pre ++ pat ++ t) = some pre.length := by
  induction pre with
  | nil =>
      obtain ⟨c, p, rfl⟩ := List.exists_cons_of_ne_nil hpat
      have hnone : lastIndexOf (c :: p) (p ++ t) = none := lastIndexOf_eq_none_iff.mpr h
      rw [List.nil_append, List.cons_append, lastIndexOf, hnone]
      exact if_pos (List.prefix_append (c :: p) t)
  | cons c pre ih =>
      rw [List.cons_append, List.cons_append, lastIndexOf, ih]
      rfl

/-! ### A single element -/

section single

variable {c : α}

theorem indexOf_single (h : c ∉ pre) : indexOf [c] (pre ++ c :: t) = some pre.length := by
  induction pre with
  | nil => exact if_pos (List.prefix_append [c] t)
  | cons d pre ih =>
      obtain ⟨hne, hpre⟩ := List.ne_and_not_mem_of_not_mem_cons h
      have hnot : ¬ [c] <+: d :: (pre ++ c :: t) := by
        rw [List.cons_prefix_cons]
        exact fun hp => hne hp.1
      rw [List.cons_append, indexOf, if_neg hnot, ih hpre]
      rfl

theorem lastIndexOf_single (h : c ∉ t) : lastIndexOf [c] (pre ++ c :: t) = some pre.length := by
  have hlast : lastIndexOf [c] (pre ++ [c] ++ t) = some pre.length :=
    lastIndexOf_append (List.cons_ne_nil c []) (mt (List.singleton_infix_iff c t).mp h)
  rwa [List.append_assoc] at hlast

theorem lastIndexOf_single_eq_none_iff : lastIndexOf [c] s = none ↔ c ∉ s :=
  lastIndexOf_eq_none_iff.trans (not_congr (List.singleton_infix_iff c s))

omit [DecidableEq α] in
/-- A text with the element in it, cut at its last occurrence. -/
theorem exists_last (h : c ∈ s) : ∃ pre t, s = pre ++ c :: t ∧ c ∉ t := by
  obtain ⟨t, pre, hs, ht⟩ := List.eq_append_cons_of_mem (List.mem_reverse.mpr h)
  refine ⟨pre.reverse, t.reverse, ?_, fun hc => ht (List.mem_reverse.mp hc)⟩
  rw [← s.reverse_reverse, hs]
  simp

/-- There is one last occurrence. -/
theorem last_unique {pre' t' : List α} (he : pre ++ c :: t = pre' ++ c :: t') (ht : c ∉ t)
    (ht' : c ∉ t') : pre = pre' ∧ t = t' := by
  have hlen : some pre.length = some pre'.length := by
    rw [← lastIndexOf_single ht, he, lastIndexOf_single ht']
  obtain ⟨hpre, hrest⟩ := List.append_inj he (Option.some.inj hlen)
  exact ⟨hpre, List.tail_eq_of_cons_eq hrest⟩

/-- The first occurrence is the last one when there is at most one. -/
theorem indexOf_eq_lastIndexOf_iff :
    indexOf [c] s = lastIndexOf [c] s ↔ s.count c ≤ 1 := by
  induction s with
  | nil => exact iff_of_true rfl (Nat.zero_le 1)
  | cons d s ih =>
      rw [indexOf, lastIndexOf]
      by_cases hd : c = d
      · subst hd
        have hp : [c] <+: c :: s := List.prefix_append [c] s
        rw [if_pos hp, if_pos hp, List.count_cons_self, Nat.succ_le_succ_iff,
          Nat.le_zero, List.count_eq_zero, ← lastIndexOf_single_eq_none_iff]
        cases lastIndexOf [c] s with
        | none => exact iff_of_true rfl rfl
        | some n => exact iff_of_false (fun h => nomatch Option.some.inj h) nofun
      · have hp : ¬ [c] <+: d :: s := by
          rw [List.cons_prefix_cons]
          exact fun h => hd h.1
        rw [if_neg hp, if_neg hp, List.count_cons_of_ne (Ne.symm hd), ← ih]
        cases hlast : lastIndexOf [c] s with
        | none => rw [Option.map_eq_none_iff]
        | some n =>
            rw [Option.map_eq_some_iff]
            constructor
            · rintro ⟨m, hm, he⟩
              cases he
              exact hm
            · exact fun h => ⟨n, h, rfl⟩

end single

/-! ### The pieces of a text -/

/-- `s` falls into the pieces `ps` when `pat` is cut out from left to right. -/
inductive Pieces (pat : List α) : List α → List (List α) → Prop where
  | last {s : List α} (h : indexOf pat s = none) : Pieces pat s [s]
  | cut {pre rest : List α} {ps : List (List α)}
      (h : indexOf pat (pre ++ pat ++ rest) = some pre.length) (hrest : Pieces pat rest ps) :
      Pieces pat (pre ++ pat ++ rest) (pre :: ps)

/-- **Every text falls into pieces** at a pattern that is not empty. -/
theorem exists_pieces (hpat : pat ≠ []) (s : List α) : ∃ ps, Pieces pat s ps := by
  induction hn : s.length using Nat.strongRecOn generalizing s with
  | ind n ih =>
      cases h : indexOf pat s with
      | none => exact ⟨[s], .last h⟩
      | some k =>
          obtain ⟨pre, rest, rfl, rfl⟩ := indexOf_split h
          -- what is behind an occurrence is shorter by the pattern at least
          have hlt : rest.length < n := by
            have hpos := List.length_pos_of_ne_nil hpat
            rw [List.length_append, List.length_append] at hn
            omega
          obtain ⟨ps, hps⟩ := ih rest.length hlt rest rfl
          exact ⟨pre :: ps, .cut h hps⟩

theorem Pieces.ne_nil (h : Pieces pat s ps) : ps ≠ [] := by
  cases h with
  | last => exact List.cons_ne_nil _ _
  | cut => exact List.cons_ne_nil _ _

/-- **The pattern between the pieces** gives the text. -/
theorem Pieces.intercalate (h : Pieces pat s ps) : pat.intercalate ps = s := by
  induction h with
  | last => exact List.intercalate_singleton
  | cut h hrest ih => rw [List.intercalate_cons_of_ne_nil hrest.ne_nil, ih]

/-- **No piece has the pattern in it**, if that is not empty. -/
theorem Pieces.not_infix (hpat : pat ≠ []) (h : Pieces pat s ps) : ∀ p ∈ ps, ¬ pat <:+: p := by
  induction h with
  | last h =>
      intro p hp
      rw [List.mem_singleton.mp hp]
      exact indexOf_eq_none_iff.mp h
  | @cut pre rest ps h hrest ih =>
      intro p hp
      rcases List.mem_cons.mp hp with rfl | hp
      · -- an occurrence in the piece would be before the first one
        rintro ⟨a, b, rfl⟩
        have hlt : a.length < (a ++ pat ++ b).length := by
          have hpos := List.length_pos_of_ne_nil hpat
          simp only [List.length_append]
          omega
        refine (indexOf_eq_some_iff.mp h).2.2 a.length hlt ?_
        simp only [List.append_assoc, List.drop_left]
        exact List.prefix_append pat _
      · exact ih p hp

end Search
