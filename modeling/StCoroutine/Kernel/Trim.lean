import Mathlib.Data.List.DropRight
import StCoroutine.Kernel.Buffer

/-!
# Kernel — trimming and removing characters

`srs_string_trim_end`, `srs_string_trim_start` and `srs_string_remove` of `srs_kernel_utility.cpp`.
Each has a loop over the characters, and a loop inside that takes the character out of the string
and sets the outer index to `-1` when it does, so that the outer loop starts again.  A loop has
`fuel` for the tests of its condition, as those of `srs_string_replace` have.

The outer loop compares its index with `(int)length()`: it comes to the characters before that
(`reached`), which are all of them below a length of `2 ^ 31`.

* `charsLoop_spec`: the loop ends, with what is left when none of these characters can be taken out.
* `trim_remove_iff`: the three functions take out what they are asked to exactly when no character
  of the string is beyond their reach.
-/

set_option autoImplicit false

namespace StCoroutine.Kernel

/-- The outer loop: `body` is what is done for the character `ch`, to the string and to `i`. -/
def charsLoop (body : UInt8 → Nat → List UInt8 → Int → Option (List UInt8 × Int))
    (chars : List UInt8) : Nat → List UInt8 → Int → Option (List UInt8)
  | 0, _, _ => none
  | fuel + 1, ret, i =>
    if i < int chars.length then
      match chars[i.toNat]? with
      | none => none
      | some ch => (body ch fuel ret i).bind fun (ret, i) => charsLoop body chars fuel ret (i + 1)
    else some ret

/-- The inner loop of the trims: `peek` is the character at the end that is trimmed, and `erase`
takes it away. -/
def trimWhile (peek : List UInt8 → Option UInt8) (erase : List UInt8 → List UInt8) (ch : UInt8) :
    Nat → List UInt8 → Int → Option (List UInt8 × Int)
  | 0, _, _ => none
  | fuel + 1, ret, i =>
    if peek ret = some ch then trimWhile peek erase ch fuel (erase ret) (-1) else some (ret, i)

def srsStringTrimEnd (fuel : Nat) (str trimChars : List UInt8) : Option (List UInt8) :=
  charsLoop (trimWhile List.getLast? List.dropLast) trimChars fuel str 0

def srsStringTrimStart (fuel : Nat) (str trimChars : List UInt8) : Option (List UInt8) :=
  charsLoop (trimWhile List.head? List.tail) trimChars fuel str 0

/-- The inner loop of `srs_string_remove`, with the string before the iterator and from it on. -/
def removeFor (ch : UInt8) : List UInt8 → List UInt8 → Int → List UInt8 × Int
  | before, [], i => (before, i)
  | before, c :: rest, i =>
    if ch = c then removeFor ch before rest (-1) else removeFor ch (before ++ [c]) rest i

def srsStringRemove (fuel : Nat) (str removeChars : List UInt8) : Option (List UInt8) :=
  charsLoop (fun ch _ ret i => some (removeFor ch [] ret i)) removeChars fuel str 0

/-! ### The characters that are reached -/

/-- The characters that the outer loop comes to. -/
def reached (chars : List UInt8) : List UInt8 := chars.take (int chars.length).toNat

section reached

variable {chars : List UInt8}

theorem int_length_le : int chars.length ≤ chars.length := by
  rw [int, Int.bmod_def]
  omega

theorem reached_eq (h : chars.length < 2 ^ 31) : reached chars = chars := by
  rw [reached, int_natCast h, Int.toNat_natCast, List.take_length]

theorem length_reached : (reached chars).length = (int chars.length).toNat := by
  have hle : int chars.length ≤ chars.length := int_length_le
  rw [reached, List.length_take]
  omega

theorem getElem?_reached {i : Nat} (h : i < (reached chars).length) :
    ∃ ch ∈ reached chars, chars[i]? = some ch ∧ (reached chars)[i]? = some ch := by
  have hi := List.getElem?_eq_getElem h
  refine ⟨_, List.getElem_mem h, ?_, hi⟩
  rw [← hi, reached, List.getElem?_take_of_lt (length_reached ▸ h)]

end reached

/-! ### The outer loop -/

/-- The loop takes out characters of `seen`: `Gone` says that there is nothing to take out for one
of them, and `result` is what is left in the end. -/
structure Strips (body : UInt8 → Nat → List UInt8 → Int → Option (List UInt8 × Int))
    (seen : List UInt8) (Gone : UInt8 → List UInt8 → Prop) (result : List UInt8 → List UInt8) :
    Prop where
  /-- A character is gone, or it is taken out and the outer loop starts again. -/
  pass : ∀ ch ∈ seen, ∀ ret, ∃ enough,
    (Gone ch ret ∧ ∀ fuel i, enough ≤ fuel → body ch fuel ret i = some (ret, i)) ∨
      ∃ ret', ret'.length < ret.length ∧ result ret' = result ret ∧
        ∀ fuel i, enough ≤ fuel → body ch fuel ret i = some (ret', -1)
  gone : ∀ ret, (∀ ch ∈ seen, Gone ch ret) → result ret = ret

section outer

variable {body : UInt8 → Nat → List UInt8 → Int → Option (List UInt8 × Int)} {chars : List UInt8}
  {Gone : UInt8 → List UInt8 → Prop} {result : List UInt8 → List UInt8}

/-- **The outer loop ends** with the result, where the characters before `i` are gone since it
started again: the string gets shorter or the index moves on. -/
theorem charsLoop_spec (h : Strips body (reached chars) Gone result) (ret : List UInt8) (i : Nat)
    (hi : ∀ j < i, ∀ ch, (reached chars)[j]? = some ch → Gone ch ret) :
    ∃ enough, ∀ fuel, enough ≤ fuel → charsLoop body chars fuel ret i = some (result ret) := by
  induction hn : ret.length using Nat.strongRecOn generalizing ret i with
  | ind n ih =>
      induction hk : (reached chars).length - i generalizing i with
      | zero =>
          refine ⟨1, fun fuel hfuel => ?_⟩
          obtain ⟨fuel, rfl⟩ := Nat.exists_eq_add_of_le' hfuel
          have hend : ¬ (i : Int) < int chars.length := by
            rw [length_reached] at hk
            omega
          rw [charsLoop, if_neg hend, h.gone ret]
          intro ch hch
          obtain ⟨j, hj, he⟩ := List.mem_iff_getElem.mp hch
          exact hi j (by omega) ch (he ▸ List.getElem?_eq_getElem hj)
      | succ m ihm =>
          have hlt : i < (reached chars).length := by omega
          obtain ⟨ch, hch, hat, hat'⟩ := getElem?_reached hlt
          have hgo : (i : Int) < int chars.length := by
            rw [length_reached] at hlt
            omega
          have hloop : ∀ fuel, charsLoop body chars (fuel + 1) ret i =
              (body ch fuel ret i).bind fun next =>
                charsLoop body chars fuel next.1 (next.2 + 1) := by
            intro fuel
            rw [charsLoop, if_pos hgo, Int.toNat_natCast, hat]
          obtain ⟨enough, ⟨hgone, hbody⟩ | ⟨ret', hshort, hres, hbody⟩⟩ := h.pass ch hch ret
          · -- the index moves on
            have hnext : ∀ j < i + 1, ∀ ch, (reached chars)[j]? = some ch → Gone ch ret := by
              intro j hj c hc
              rcases Nat.lt_succ_iff_lt_or_eq.mp hj with hj | rfl
              · exact hi j hj c hc
              · cases hat'.symm.trans hc
                exact hgone
            obtain ⟨enough', hrest⟩ := ihm (i + 1) hnext (by omega)
            refine ⟨enough + enough' + 1, fun fuel hfuel => ?_⟩
            obtain ⟨fuel, rfl⟩ := Nat.exists_eq_add_one_of_ne_zero (Nat.ne_zero_of_lt hfuel)
            rw [hloop, hbody fuel i (by omega)]
            exact hrest fuel (by omega)
          · -- the string is shorter, and the index starts again
            obtain ⟨enough', hrest⟩ := ih ret'.length (hn ▸ hshort) ret' 0
              (fun j hj => absurd hj (Nat.not_lt_zero j)) rfl
            refine ⟨enough + enough' + 1, fun fuel hfuel => ?_⟩
            obtain ⟨fuel, rfl⟩ := Nat.exists_eq_add_one_of_ne_zero (Nat.ne_zero_of_lt hfuel)
            rw [hloop, hbody fuel i (by omega), ← hres]
            exact hrest fuel (by omega)

end outer

/-! ### Trimming at an end -/

/-- `drop p` takes away what has `p` at the end that `peek` looks at and `erase` erases. -/
structure End (peek : List UInt8 → Option UInt8) (erase : List UInt8 → List UInt8)
    (drop : (UInt8 → Bool) → List UInt8 → List UInt8) : Prop where
  shorter : ∀ ret c, peek ret = some c → (erase ret).length < ret.length
  more : ∀ p ret c, peek ret = some c → p c = true → drop p (erase ret) = drop p ret
  stop : ∀ p ret, (∀ c, peek ret = some c → p c = false) → drop p ret = ret

theorem end_start : End List.head? List.tail List.dropWhile where
  shorter ret c h := by
    obtain ⟨rest, rfl⟩ := List.head?_eq_some_iff.mp h
    exact Nat.lt_succ_self _
  more p ret c h hp := by
    obtain ⟨rest, rfl⟩ := List.head?_eq_some_iff.mp h
    exact (List.dropWhile_cons_of_pos hp).symm
  stop p ret h := by
    cases ret with
    | nil => rfl
    | cons c rest => exact List.dropWhile_cons_of_neg (by simp [h c rfl])

theorem end_end : End List.getLast? List.dropLast List.rdropWhile where
  shorter ret c h := by
    obtain ⟨rest, rfl⟩ := List.getLast?_eq_some_iff.mp h
    simp
  more p ret c h hp := by
    obtain ⟨rest, rfl⟩ := List.getLast?_eq_some_iff.mp h
    rw [List.dropLast_concat, List.rdropWhile_concat_pos p rest c hp]
  stop p ret h := by
    refine List.rdropWhile_eq_self_iff.mpr fun hne => ?_
    rw [Bool.not_eq_true]
    exact h _ (List.getLast?_eq_some_getLast hne)

section trim

variable {peek : List UInt8 → Option UInt8} {erase : List UInt8 → List UInt8}
  {drop : (UInt8 → Bool) → List UInt8 → List UInt8} {ch : UInt8} {ret : List UInt8}

theorem trimWhile_of_ne (h : peek ret ≠ some ch) (fuel : Nat) (i : Int) :
    trimWhile peek erase ch (fuel + 1) ret i = some (ret, i) := by
  rw [trimWhile, if_neg h]

/-- The inner loop, once it has taken the character away. -/
theorem End.trimWhile (h : End peek erase drop) (p : UInt8 → Bool) (hp : p ch = true)
    (ret : List UInt8) : ∃ ret', ret'.length ≤ ret.length ∧ drop p ret' = drop p ret ∧
      ∀ fuel, ret.length < fuel → trimWhile peek erase ch fuel ret (-1) = some (ret', -1) := by
  induction hn : ret.length using Nat.strongRecOn generalizing ret with
  | ind n ih =>
      by_cases hat : peek ret = some ch
      · have hlt := h.shorter ret ch hat
        obtain ⟨ret', hle, hdrop, hloop⟩ := ih _ (hn ▸ hlt) (erase ret) rfl
        refine ⟨ret', by omega, hdrop.trans (h.more p ret ch hat hp), fun fuel hfuel => ?_⟩
        obtain ⟨fuel, rfl⟩ := Nat.exists_eq_add_one_of_ne_zero (Nat.ne_zero_of_lt hfuel)
        rw [Kernel.trimWhile, if_pos hat]
        exact hloop fuel (by omega)
      · refine ⟨ret, Nat.le_of_eq hn, rfl, fun fuel hfuel => ?_⟩
        obtain ⟨fuel, rfl⟩ := Nat.exists_eq_add_one_of_ne_zero (Nat.ne_zero_of_lt hfuel)
        exact trimWhile_of_ne hat fuel (-1)

theorem End.strips (h : End peek erase drop) (seen : List UInt8) :
    Strips (Kernel.trimWhile peek erase) seen (fun ch ret => peek ret ≠ some ch)
      (drop (· ∈ seen)) where
  pass ch hch ret := by
    by_cases hat : peek ret = some ch
    · have hp : decide (ch ∈ seen) = true := decide_eq_true hch
      have hlt := h.shorter ret ch hat
      obtain ⟨ret', hle, hdrop, hloop⟩ := h.trimWhile (· ∈ seen) hp (erase ret)
      refine ⟨ret.length + 1, .inr ⟨ret', by omega, ?_, fun fuel i hfuel => ?_⟩⟩
      · exact hdrop.trans (h.more (· ∈ seen) ret ch hat hp)
      · obtain ⟨fuel, rfl⟩ := Nat.exists_eq_add_one_of_ne_zero (Nat.ne_zero_of_lt hfuel)
        rw [Kernel.trimWhile, if_pos hat]
        exact hloop fuel (by omega)
    · refine ⟨1, .inl ⟨hat, fun fuel i hfuel => ?_⟩⟩
      obtain ⟨fuel, rfl⟩ := Nat.exists_eq_add_of_le' hfuel
      exact trimWhile_of_ne hat fuel i
  gone ret hret := by
    refine h.stop _ ret fun c hc => ?_
    rw [decide_eq_false_iff_not]
    exact fun hmem => hret c hmem hc

end trim

/-! ### Removing -/

section remove

variable {ch : UInt8} {str chars : List UInt8}

theorem removeFor_eq (before ret : List UInt8) (i : Int) :
    removeFor ch before ret i = (before ++ ret.filter (· ≠ ch), if ch ∈ ret then -1 else i) := by
  fun_induction removeFor ch before ret i with
  | case1 => simp
  | case2 before rest i ih =>
      rw [ih]
      simp
  | case3 before c rest i hne ih =>
      rw [ih]
      simp [hne, Ne.symm hne]

theorem strips_remove (seen : List UInt8) :
    Strips (fun ch _ ret i => some (removeFor ch [] ret i)) seen (fun ch ret => ch ∉ ret)
      (List.filter (· ∉ seen)) where
  pass ch hch ret := by
    by_cases hmem : ch ∈ ret
    · refine ⟨0, .inr ⟨ret.filter (· ≠ ch), ?_, ?_, fun fuel i _ => ?_⟩⟩
      · refine Nat.lt_of_le_of_ne (List.length_filter_le _ _) fun hlen => ?_
        have hall := List.length_filter_eq_length_iff.mp hlen ch hmem
        simp at hall
      · -- the character is one of those that are filtered out
        rw [List.filter_filter]
        refine List.filter_congr fun c _ => ?_
        by_cases hc : c = ch
        · subst hc
          simp [hch]
        · simp [hc]
      · rw [removeFor_eq, List.nil_append, if_pos hmem]
    · refine ⟨0, .inl ⟨hmem, fun fuel i _ => ?_⟩⟩
      have hall : ret.filter (· ≠ ch) = ret := by
        refine List.filter_eq_self.mpr fun c hc => decide_eq_true ?_
        rintro rfl
        exact hmem hc
      rw [removeFor_eq, List.nil_append, if_neg hmem, hall]
  gone ret hret := by
    refine List.filter_eq_self.mpr fun c hc => decide_eq_true fun hmem => ?_
    exact hret c hmem hc

end remove

/-! ### Every string -/

section every

variable (str chars : List UInt8)

/-- The character that the trims and `srs_string_remove` come to in the end. -/
theorem trimEnd_spec : ∃ enough, ∀ fuel, enough ≤ fuel →
    srsStringTrimEnd fuel str chars = some (str.rdropWhile (· ∈ reached chars)) :=
  charsLoop_spec (end_end.strips (reached chars)) str 0 fun j hj => absurd hj (Nat.not_lt_zero j)

theorem trimStart_spec : ∃ enough, ∀ fuel, enough ≤ fuel →
    srsStringTrimStart fuel str chars = some (str.dropWhile (· ∈ reached chars)) :=
  charsLoop_spec (end_start.strips (reached chars)) str 0 fun j hj => absurd hj (Nat.not_lt_zero j)

theorem remove_spec : ∃ enough, ∀ fuel, enough ≤ fuel →
    srsStringRemove fuel str chars = some (str.filter (· ∉ reached chars)) :=
  charsLoop_spec (strips_remove (reached chars)) str 0 fun j hj => absurd hj (Nat.not_lt_zero j)

end every

section congr

variable {str : List UInt8} {p q : UInt8 → Bool}

theorem dropWhile_congr (h : ∀ c ∈ str, p c = q c) : str.dropWhile p = str.dropWhile q := by
  induction str with
  | nil => rfl
  | cons c str ih =>
      rw [List.dropWhile_cons, List.dropWhile_cons, h c List.mem_cons_self,
        ih fun d hd => h d (List.mem_cons_of_mem c hd)]

theorem rdropWhile_congr (h : ∀ c ∈ str, p c = q c) : str.rdropWhile p = str.rdropWhile q :=
  congrArg List.reverse (dropWhile_congr fun c hc => h c (List.mem_reverse.mp hc))

end congr

/-- The three functions come to an end, and leave the string without its longest suffix of the
characters, without its longest prefix of them, and without any of them. -/
def TakesOut (str chars : List UInt8) : Prop :=
  ∃ enough, ∀ fuel, enough ≤ fuel →
    srsStringTrimEnd fuel str chars = some (str.rdropWhile (· ∈ chars)) ∧
      srsStringTrimStart fuel str chars = some (str.dropWhile (· ∈ chars)) ∧
      srsStringRemove fuel str chars = some (str.filter (· ∉ chars))

theorem takesOut_of_reached {str chars : List UInt8}
    (h : ∀ c ∈ str, c ∈ chars → c ∈ reached chars) : TakesOut str chars := by
  obtain ⟨n₁, hend⟩ := trimEnd_spec str chars
  obtain ⟨n₂, hstart⟩ := trimStart_spec str chars
  obtain ⟨n₃, hremove⟩ := remove_spec str chars
  have hcongr : ∀ c ∈ str, decide (c ∈ reached chars) = decide (c ∈ chars) := by
    intro c hc
    exact decide_eq_decide.mpr ⟨List.mem_of_mem_take, h c hc⟩
  refine ⟨n₁ + n₂ + n₃, fun fuel hfuel => ⟨?_, ?_, ?_⟩⟩
  · rw [hend fuel (by omega), rdropWhile_congr hcongr]
  · rw [hstart fuel (by omega), dropWhile_congr hcongr]
  · rw [hremove fuel (by omega), List.filter_congr]
    intro c hc
    exact decide_eq_decide.mpr (not_congr (decide_eq_decide.mp (hcongr c hc)))

/-- The number of characters is an `int`. -/
theorem takesOut_of_short (str : List UInt8) {chars : List UInt8} (h : chars.length < 2 ^ 31) :
    TakesOut str chars :=
  takesOut_of_reached fun _ _ hmem => (reached_eq h).symm ▸ hmem

/-- **Trimming and removing** do what they are asked to if and only if no character of the string is
in the set only where the loop does not come to. -/
theorem trim_remove_iff (str chars : List UInt8) :
    TakesOut str chars ↔ ∀ c ∈ str, c ∈ chars → c ∈ reached chars := by
  constructor
  · rintro ⟨enough, h⟩ c hc hmem
    obtain ⟨n, hremove⟩ := remove_spec str chars
    have hboth := (h (enough + n) (by omega)).2.2
    rw [hremove (enough + n) (by omega), Option.some.injEq] at hboth
    -- a character that is not reached is left in the string
    by_contra hnot
    have hleft : c ∈ str.filter (· ∉ chars) := by
      rw [← hboth]
      exact List.mem_filter.mpr ⟨hc, decide_eq_true hnot⟩
    exact of_decide_eq_true (List.mem_filter.mp hleft).2 hmem
  · exact takesOut_of_reached

/-- `2 ^ 31` times `a` is no character for the loops, so that `a` stays where it is. -/
theorem trim_remove_nothing : ¬∀ str chars, TakesOut str chars := by
  intro H
  obtain ⟨chars, hlen, hmem⟩ : ∃ chars : List UInt8, chars.length = 2 ^ 31 ∧ 97 ∈ chars :=
    ⟨List.replicate (2 ^ 31) 97, List.length_replicate, List.mem_replicate.mpr ⟨by decide, rfl⟩⟩
  obtain ⟨enough, h⟩ := H [97] chars
  obtain ⟨n, hremove⟩ := remove_spec [97] chars
  have hnone : reached chars = [] := by
    have hint : (int (2 ^ 31 : Nat)).toNat = 0 := by decide
    rw [reached, hlen, hint, List.take_zero]
  have hboth := (h (enough + n) (by omega)).2.2
  rw [hremove (enough + n) (by omega), hnone] at hboth
  simp [hmem] at hboth

example : srsStringTrimEnd 9 [97, 98, 99, 98] [98, 99] = some [97] := by decide

end StCoroutine.Kernel
