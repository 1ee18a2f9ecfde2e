import Mathlib.Data.List.TakeWhile
import StCoroutine.Kernel.Buffer
import StCoroutine.Lib.Decimal
import StCoroutine.Lib.Search

/-!
# Kernel — hosts and ports

`srs_parse_hostport` and `srs_parse_endpoint` of `srs_kernel_utility.cpp`.  The host and the port
that a function is given to set are its last arguments, and what they are set to is what it returns.

The two look at different colons: `srs_parse_hostport` at the first and the last one, and at the
last bracket with a colon behind it; `srs_parse_endpoint` at the last one and what is before it.

* `parse_hostport_endpoint`: both recover the host and the port, and a host without a port is what
  `srs_parse_hostport` returns.
* `parse_hostport_optional_iff`: the port can be left out, but behind a bracket.
-/

set_option autoImplicit false

namespace StCoroutine.Kernel

open Search Decimal

/-! ### `atoi` -/

def isspace (c : UInt8) : Bool := c = 32 || (9 ≤ c && c ≤ 13)

/-- `strtol`, to the base ten.  A string ends at its first `NUL`, which is no digit. -/
def strtol (s : List UInt8) : Int :=
  let s := s.dropWhile isspace
  if s.head? = some 45 then max (-2 ^ 63) (-value (s.tail.takeWhile isDigit))
  else if s.head? = some 43 then min (2 ^ 63 - 1) (value (s.tail.takeWhile isDigit))
  else min (2 ^ 63 - 1) (value (s.takeWhile isDigit))

def atoi (s : List UInt8) : Int := int (strtol s)

theorem not_sign_of_isDigit {c : UInt8} (h : isDigit c = true) :
    isspace c = false ∧ c ≠ 45 ∧ c ≠ 43 := by
  rw [isDigit, Bool.and_eq_true, decide_eq_true_eq, decide_eq_true_eq] at h
  simp only [UInt8.le_iff_toNat_le, isspace, ne_eq, ← UInt8.toNat_inj, UInt8.reduceToNat] at h ⊢
  simp
  omega

theorem atoi_digits {n : Nat} (h : n < 2 ^ 31) : atoi (digits n) = n := by
  obtain ⟨d, ds, hd⟩ := List.exists_cons_of_ne_nil (digits_ne_nil (n := n))
  obtain ⟨hspace, hminus, hplus⟩ := not_sign_of_isDigit (isDigit_of_mem (hd ▸ List.mem_cons_self))
  have hdrop : (digits n).dropWhile isspace = digits n := by
    rw [hd, List.dropWhile_cons_of_neg (by simp [hspace])]
  have hhead : (digits n).head? = some d := by rw [hd, List.head?_cons]
  have htake : (digits n).takeWhile isDigit = digits n :=
    List.takeWhile_eq_self_iff.mpr fun c hc => isDigit_of_mem hc
  rw [atoi, strtol]
  rw [hdrop, hhead, if_neg (mt Option.some.inj hminus), if_neg (mt Option.some.inj hplus), htake,
    value_digits, Int.min_eq_right (by omega), int_natCast h]

/-! ### The functions -/

def colon : UInt8 := 58
def openBracket : UInt8 := 91
def closeBracket : UInt8 := 93

/-- `a - b` of two `size_t`. -/
def sizeSub (a b : Nat) : Nat := if b ≤ a then a - b else a + 2 ^ 64 - b

/-- The port that `srs_parse_hostport` makes of `p`. -/
def parsePort (p : List UInt8) (port : Int) : Int := if p ≠ [] ∧ p ≠ [48] then atoi p else port

def srsParseHostport (hostport host : List UInt8) (port : Int) : List UInt8 × Int :=
  if hostport = [] then (host, port)
  else
    match lastIndexOf [colon] hostport with
    | none => (hostport, port)
    | some pos =>
      if indexOf [colon] hostport = some pos then
        let host := substr hostport 0 pos
        let p := substr hostport (pos + 1) hostport.length
        (host, parsePort p port)
      else if hostport[0]? ≠ some openBracket then (hostport, port)
      else
        match lastIndexOf [closeBracket, colon] hostport with
        | none => (hostport, port)
        | some pos =>
          let host := substr hostport 1 (sizeSub pos 1)
          let p := substr hostport (pos + 2) hostport.length
          (host, parsePort p port)

/-- `srs_any_address_for_listener`, for what `socket` returns of the two families. -/
def srsAnyAddressForListener (fd fd6 : Int) : List UInt8 :=
  let ipv4Active := fd ≠ -1
  let ipv6Active := fd6 ≠ -1
  if ipv6Active ∧ ¬ ipv4Active then [colon, colon] else [48, 46, 48, 46, 48, 46, 48]

def srsParseEndpoint (fd fd6 : Int) (hostport : List UInt8) : List UInt8 × Int :=
  match lastIndexOf [colon] hostport with
  | some pos =>
    let ip :=
      if pos ≥ 1 ∧ hostport[0]? = some openBracket ∧ hostport[pos - 1]? = some closeBracket then
        substr hostport 1 (sizeSub pos 2)
      else substr hostport 0 pos
    let sport := substr hostport (pos + 1) hostport.length
    (ip, atoi sport)
  | none => (srsAnyAddressForListener fd fd6, atoi hostport)

section parsers

variable {h p : List UInt8}

theorem sizeSub_add (a b : Nat) : sizeSub (a + b) b = a := by
  rw [sizeSub, if_pos (Nat.le_add_left b a), Nat.add_sub_cancel]

/-- What is between the brackets. -/
theorem substr_between (h t : List UInt8) : substr (openBracket :: (h ++ t)) 1 h.length = h := by
  rw [substr, List.drop_succ_cons, List.drop_zero, List.take_left]

theorem literal_text (h p : List UInt8) :
    openBracket :: (h ++ closeBracket :: colon :: p) =
      (openBracket :: (h ++ [closeBracket])) ++ colon :: p := by
  rw [List.cons_append, List.append_assoc, List.singleton_append]

/-- **One colon**: the host is before it. -/
theorem parse_hostport_name (hh : colon ∉ h) (hp : colon ∉ p) (host : List UInt8) (port : Int) :
    srsParseHostport (h ++ colon :: p) host port = (h, parsePort p port) := by
  rw [srsParseHostport, if_neg (List.append_ne_nil_of_right_ne_nil h (List.cons_ne_nil colon p)),
    lastIndexOf_single hp]
  dsimp only
  rw [if_pos (indexOf_single hh), substr_front, substr_behind h p colon]

/-- **Brackets**: the host is between them, when there is a colon in it. -/
theorem parse_hostport_literal (hh : colon ∈ h) (hp : colon ∉ p) (host : List UInt8) (port : Int) :
    srsParseHostport (openBracket :: (h ++ closeBracket :: colon :: p)) host port =
      (h, parsePort p port) := by
  have hlast : lastIndexOf [colon] (openBracket :: (h ++ closeBracket :: colon :: p)) =
      some (openBracket :: (h ++ [closeBracket])).length := by
    rw [literal_text, lastIndexOf_single hp]
  -- the colon of the host is the first one
  have hfirst : indexOf [colon] (openBracket :: (h ++ closeBracket :: colon :: p)) ≠
      some (openBracket :: (h ++ [closeBracket])).length := by
    rw [← hlast, ne_eq, indexOf_eq_lastIndexOf_iff, List.count_cons, List.count_append,
      List.count_cons, List.count_cons_self]
    have hpos := List.count_pos_iff.mpr hh
    omega
  have hpair : lastIndexOf [closeBracket, colon]
      (openBracket :: (h ++ closeBracket :: colon :: p)) = some (openBracket :: h).length := by
    have hnone : ¬ [closeBracket, colon] <:+: colon :: p := by
      rw [List.infix_cons_iff, not_or]
      refine ⟨fun hpre => ?_, fun hin => hp (hin.subset ?_)⟩
      · exact absurd (List.cons_prefix_cons.mp hpre).1 (by decide)
      · exact List.mem_cons_of_mem _ (List.mem_singleton_self colon)
    have hpair : lastIndexOf [closeBracket, colon]
        ((openBracket :: h) ++ [closeBracket, colon] ++ p) = some (openBracket :: h).length :=
      lastIndexOf_append (List.cons_ne_nil _ _) hnone
    rwa [List.append_assoc] at hpair
  have hrest : substr (openBracket :: (h ++ closeBracket :: colon :: p))
      ((openBracket :: h).length + 2) (openBracket :: (h ++ closeBracket :: colon :: p)).length =
        p := by
    have hbehind := substr_behind (openBracket :: (h ++ [closeBracket])) p colon
    rw [← literal_text] at hbehind
    simpa using hbehind
  rw [srsParseHostport, if_neg (List.cons_ne_nil _ _), hlast]
  dsimp only
  rw [if_neg hfirst, if_neg (not_not_intro List.getElem?_cons_zero), hpair]
  dsimp only
  rw [hrest, List.length_cons, sizeSub_add, substr_between]

/-- **A host alone**: it has no colon or more than one, and does not look like the brackets. -/
theorem parse_hostport_bare {s : List UInt8} (hne : s ≠ []) (hcount : s.count colon ≠ 1)
    (hplain : ¬ (s.head? = some openBracket ∧ [closeBracket, colon] <:+: s)) (host : List UInt8)
    (port : Int) : srsParseHostport s host port = (s, port) := by
  rw [srsParseHostport, if_neg hne]
  cases hlast : lastIndexOf [colon] s with
  | none => rfl
  | some pos =>
      have hmem : colon ∈ s := by
        by_contra hnot
        rw [lastIndexOf_single_eq_none_iff.mpr hnot] at hlast
        cases hlast
      have hfirst : indexOf [colon] s ≠ some pos := by
        have hpos := List.count_pos_iff.mpr hmem
        rw [← hlast, ne_eq, indexOf_eq_lastIndexOf_iff]
        omega
      dsimp only
      rw [if_neg hfirst, ← List.head?_eq_getElem?]
      split
      · rfl
      · next hbracket =>
          have hnone : lastIndexOf [closeBracket, colon] s = none :=
            lastIndexOf_eq_none_iff.mpr fun hin => hplain ⟨not_not.mp hbracket, hin⟩
          rw [hnone]

/-- **The endpoint without brackets**: the host is before the last colon. -/
theorem parse_endpoint_name (hh : openBracket ∉ h) (hp : colon ∉ p) (fd fd6 : Int) :
    srsParseEndpoint fd fd6 (h ++ colon :: p) = (h, atoi p) := by
  have hplain : ¬ (h.length ≥ 1 ∧ (h ++ colon :: p)[0]? = some openBracket ∧
      (h ++ colon :: p)[h.length - 1]? = some closeBracket) := by
    rintro ⟨hpos, hopen, -⟩
    rw [List.getElem?_append_left hpos] at hopen
    exact hh (List.mem_of_getElem? hopen)
  rw [srsParseEndpoint, lastIndexOf_single hp]
  dsimp only
  rw [if_neg hplain, substr_front, substr_behind h p colon]

/-- **The endpoint with brackets**. -/
theorem parse_endpoint_literal (hp : colon ∉ p) (fd fd6 : Int) :
    srsParseEndpoint fd fd6 (openBracket :: (h ++ closeBracket :: colon :: p)) = (h, atoi p) := by
  have hlen : (openBracket :: (h ++ [closeBracket])).length = h.length + 2 := by simp
  have hclose : ((openBracket :: (h ++ [closeBracket])) ++ colon :: p)[h.length + 2 - 1]? =
      some closeBracket := by
    simp
  rw [literal_text, srsParseEndpoint, lastIndexOf_single hp]
  dsimp only
  rw [substr_behind _ p colon, hlen, if_pos ⟨Nat.le_add_left 1 _, rfl, hclose⟩, sizeSub_add,
    ← literal_text, substr_between]

end parsers

/-! ### Every host and port -/

/-- `host:port`, with brackets around a host with a colon. -/
def endpoint (host : List UInt8) (port : Nat) : List UInt8 :=
  if colon ∈ host then openBracket :: (host ++ closeBracket :: colon :: digits port)
  else host ++ colon :: digits port

theorem colon_not_mem_digits (n : Nat) : colon ∉ digits n :=
  fun h => Bool.false_ne_true (isDigit_of_mem h)

theorem parsePort_digits {n : Nat} (h₁ : 1 ≤ n) (h₂ : n ≤ 65535) (port : Int) :
    parsePort (digits n) port = n := by
  have hzero : digits n ≠ [48] := by
    intro h
    have hvalue := value_digits n
    rw [h] at hvalue
    exact absurd hvalue (by simp [value]; omega)
  rw [parsePort, if_pos ⟨digits_ne_nil, hzero⟩, atoi_digits (by omega)]

/-- **Hosts and ports**: what is written with the port is recovered by both, and what is written
without it is the host, unless it begins with a bracket and has one with a colon behind it. -/
theorem parse_hostport_endpoint :
    (∀ host port, openBracket ∉ host → 1 ≤ port → port ≤ 65535 → ∀ host₀ port₀ fd fd6,
      srsParseHostport (endpoint host port) host₀ port₀ = (host, (port : Int)) ∧
        srsParseEndpoint fd fd6 (endpoint host port) = (host, (port : Int))) ∧
      ∀ host, host ≠ [] → host.count colon = 0 ∨ 2 ≤ host.count colon →
        ¬ (host.head? = some openBracket ∧ [closeBracket, colon] <:+: host) →
          ∀ host₀ port₀, srsParseHostport host host₀ port₀ = (host, port₀) := by
  constructor
  · intro host port hopen h₁ h₂ host₀ port₀ fd fd6
    have hp := colon_not_mem_digits port
    rw [endpoint]
    split
    · next hcolon =>
        rw [parse_hostport_literal hcolon hp, parse_endpoint_literal hp, parsePort_digits h₁ h₂,
          atoi_digits (by omega)]
        exact ⟨rfl, rfl⟩
    · next hcolon =>
        rw [parse_hostport_name hcolon hp, parse_endpoint_name hopen hp, parsePort_digits h₁ h₂,
          atoi_digits (by omega)]
        exact ⟨rfl, rfl⟩
  · intro host hne hcount hplain host₀ port₀
    exact parse_hostport_bare hne (by omega) hplain host₀ port₀

/-- `::1`, with the port `1935` and without one. -/
theorem parse_hostport_endpoint_loopback :
    (srsParseHostport (endpoint [58, 58, 49] 1935) [] 0 = ([58, 58, 49], ((1935 : Nat) : Int)) ∧
      srsParseEndpoint 3 4 (endpoint [58, 58, 49] 1935) = ([58, 58, 49], ((1935 : Nat) : Int))) ∧
      srsParseHostport [58, 58, 49] [] 80 = ([58, 58, 49], 80) :=
  ⟨parse_hostport_endpoint.1 [58, 58, 49] 1935 (by decide) (by decide) (by decide) [] 0 3 4,
    parse_hostport_endpoint.2 [58, 58, 49] (by decide) (by decide) (by decide) [] 80⟩

/-- `[::1]:80` as a host has three colons. -/
theorem parse_hostport_not_host : ¬∀ host : List UInt8, host ≠ [] →
    host.count colon = 0 ∨ 2 ≤ host.count colon → ∀ host₀ port₀,
      srsParseHostport host host₀ port₀ = (host, port₀) := by
  intro H
  have h := H [91, 58, 58, 49, 93, 58, 56, 48] (by decide) (by decide) [] 0
  exact absurd (congrArg Prod.fst h) (by decide)

/-! ### The host without the port -/

/-- A host as it is written: a name, or an address between brackets. -/
inductive WrittenHost : List UInt8 → Prop where
  | name {s : List UInt8} (hne : s ≠ []) (hcolon : colon ∉ s) (hopen : openBracket ∉ s)
      (hclose : closeBracket ∉ s) : WrittenHost s
  | literal {h : List UInt8} (hcolon : 2 ≤ h.count colon) (hopen : openBracket ∉ h)
      (hclose : closeBracket ∉ h) : WrittenHost (openBracket :: (h ++ [closeBracket]))

/-- **The port can be left out** exactly when the host is not in brackets, which are only taken
away in front of a port. -/
theorem parse_hostport_optional_iff {s : List UInt8} (hs : WrittenHost s) (port : Nat)
    (host₀ : List UInt8) (port₀ : Int) :
    (srsParseHostport (s ++ colon :: digits port) host₀ port₀).1 =
      (srsParseHostport s host₀ port₀).1 ↔ s.head? ≠ some openBracket := by
  have hp := colon_not_mem_digits port
  cases hs with
  | name hne hcolon hopen hclose =>
      have hhead : s.head? ≠ some openBracket := fun h => hopen (List.mem_of_head? h)
      have hcount : s.count colon ≠ 1 := by
        rw [List.count_eq_zero.mpr hcolon]
        exact Nat.zero_ne_one
      rw [parse_hostport_name hcolon hp, parse_hostport_bare hne hcount fun h => hhead h.1]
      exact iff_of_true rfl hhead
  | @literal h hcolon hopen hclose =>
      have hmem : colon ∈ h := List.count_pos_iff.mp (by omega)
      have hcount : (openBracket :: (h ++ [closeBracket])).count colon ≠ 1 := by
        rw [List.count_cons, List.count_append]
        omega
      -- no colon is behind the closing bracket, which is the last character
      have hnone : ¬ [closeBracket, colon] <:+: openBracket :: (h ++ [closeBracket]) := by
        rw [← List.cons_append, List.infix_concat_iff, List.suffix_concat_iff, not_or]
        refine ⟨?_, fun hin => ?_⟩
        · rintro (hnil | ⟨t, ht, -⟩)
          · cases hnil
          · exact absurd (congrArg List.getLast? ht) (by simp [colon, closeBracket])
        · have hmem := hin.subset List.mem_cons_self
          rcases List.mem_cons.mp hmem with heq | hmem
          · exact absurd heq (by decide)
          · exact hclose hmem
      rw [← literal_text, parse_hostport_literal hmem hp,
        parse_hostport_bare (List.cons_ne_nil _ _) hcount fun hb => hnone hb.2]
      refine iff_of_false (fun heq => ?_) (not_not_intro List.head?_cons)
      exact absurd (congrArg List.length heq) (by simp; omega)

/-- A name and its port. -/
theorem parse_hostport_optional_name :
    (srsParseHostport ([97] ++ colon :: digits 80) [] 0).1 = (srsParseHostport [97] [] 0).1 ↔
      ([97] : List UInt8).head? ≠ some openBracket :=
  parse_hostport_optional_iff (.name (by decide) (by decide) (by decide) (by decide)) 80 [] 0

/-- `[::]` and `[::]:80`. -/
theorem parse_hostport_keeps_brackets : ¬∀ s, WrittenHost s → ∀ port, 1 ≤ port → port ≤ 65535 →
    ∀ host₀ port₀, (srsParseHostport (s ++ colon :: digits port) host₀ port₀).1 =
      (srsParseHostport s host₀ port₀).1 := by
  intro H
  have h := H _ (.literal (h := [58, 58]) (by decide) (by decide) (by decide)) 80 (by decide)
    (by decide) [] 0
  exact absurd h (by decide)

end StCoroutine.Kernel
