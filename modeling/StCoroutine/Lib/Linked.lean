import Mathlib.Data.List.Forall2

/-!
# Linked — records in a table, each with a pointer to the next

A table is a list of records, and an address a place in it; `next` is the pointer of a record, and
`none` is `NULL`.  Records are added at the end of the table and keep their addresses.

* `Chain`: the records that are met from a pointer on.  It is kept when the table grows.
* `gather`: a loop along the pointers that appends something for each record; `Chain.gather` is
  what it gives.
* `Forall₂`: a table matched with a list of values, one for each address: looking up an address,
  and replacing a record by another that matches the same value.
-/

set_option autoImplicit false

namespace Linked

variable {β γ ν : Type*} {next : β → Option Nat} {h t bs : List β} {p : Option Nat}

/-- `bs` are the records from the pointer `p` on. -/
inductive Chain (next : β → Option Nat) (h : List β) : Option Nat → List β → Prop where
  | nil : Chain next h none []
  | cons {a : Nat} {b : β} {bs : List β} (hb : h[a]? = some b) (hbs : Chain next h (next b) bs) :
      Chain next h (some a) (b :: bs)

theorem lookup_append {a : Nat} {b : β} (hb : h[a]? = some b) : (h ++ t)[a]? = some b := by
  obtain ⟨ha, -⟩ := List.getElem?_eq_some_iff.mp hb
  rw [List.getElem?_append_left ha, hb]

theorem lookup_extend {a : Nat} {b : β} (hp : h <+: t) (hb : h[a]? = some b) : t[a]? = some b := by
  obtain ⟨t, rfl⟩ := hp
  exact lookup_append hb

/-- New records are behind the old ones. -/
theorem Chain.append (hc : Chain next h p bs) (t : List β) : Chain next (h ++ t) p bs := by
  induction hc with
  | nil => exact .nil
  | cons hb _ ih => exact .cons (lookup_append hb) ih

/-- A loop along the pointers, which appends `f` of each record; `none` when it has not ended after
`fuel` records, or follows a pointer that points to nothing. -/
def gather (next : β → Option Nat) (h : List β) (f : β → List γ) :
    Nat → Option Nat → List γ → Option (List γ)
  | _, none, acc => some acc
  | 0, some _, _ => none
  | fuel + 1, some a, acc => (h[a]?).bind fun b => gather next h f fuel (next b) (acc ++ f b)

/-- **The loop ends with the chain.** -/
theorem Chain.gather {f : β → List γ} {fuel : Nat} (hc : Chain next h p bs)
    (hfuel : bs.length ≤ fuel) (acc : List γ) :
    gather next h f fuel p acc = some (acc ++ bs.flatMap f) := by
  induction hc generalizing fuel acc with
  | nil => simp [Linked.gather]
  | cons hb _ ih =>
      obtain ⟨fuel, rfl⟩ := Nat.exists_eq_add_of_le' (Nat.lt_of_lt_of_le (Nat.succ_pos _) hfuel)
      rw [Linked.gather, hb, Option.bind_some, ih (Nat.le_of_succ_le_succ hfuel),
        List.flatMap_cons, List.append_assoc]

/-- A change to the record that was added first. -/
theorem modify_append (f : β → β) (b : β) :
    (h ++ b :: t).modify h.length f = h ++ f b :: t := by
  induction h with
  | nil => rfl
  | cons c h ih => exact congrArg (c :: ·) ih

/-! ### A table and its values -/

variable {R : β → ν → Prop} {vs : List ν} {a : Nat} {v : ν}

theorem forall₂_lookup (hR : List.Forall₂ R h vs) (hv : vs[a]? = some v) :
    ∃ b, h[a]? = some b ∧ R b v := by
  obtain ⟨ha, rfl⟩ := List.getElem?_eq_some_iff.mp hv
  have ha' : a < h.length := hR.length_eq ▸ ha
  exact ⟨h[a], List.getElem?_eq_getElem ha', hR.get ha' ha⟩

/-- A record is replaced by another that matches its value. -/
theorem forall₂_set {b : β} (hR : List.Forall₂ R h vs) (hv : vs[a]? = some v) (hb : R b v) :
    List.Forall₂ R (h.set a b) vs := by
  induction hR generalizing a with
  | nil => cases hv
  | cons hx hR ih =>
      cases a with
      | zero =>
          cases hv
          exact .cons hb hR
      | succ a => exact .cons hx (ih hv)

end Linked
