import Cachetag.Intern.Shared
import Cachetag.SideTable.Index

/-! What a dense entry carries: the folds of its object, in one of four encodings that the count byte of the
slot and the mode of the index tell apart. -/

namespace Cachetag
open Registry

/-- `TAG_OBJCOUNT_DIRECT_MAX` -/
def objcountDirectMax : Nat := 254

/-- What `cachetag_index_new` fixes for good: `interned` is the membership mode, `maxKeys` the limit
    `max_keys_per_object`. The two hash functions stand beside them. -/
structure Config (α : Type*) where
  interned : Bool
  maxKeys : Nat
  sideHash : SideHash α
  internHash : List Nat → Nat

/-- What `cachetag_direct_vector_alloc` allocates: an array, from `TAG_OBJCOUNT_OVERFLOW` folds on behind a
    header with their number. -/
inductive DirectVector where
  | plain (folds : List Nat)
  | headed (nfolds : Nat) (folds : List Nat)
deriving DecidableEq, Repr

/-- The union in `struct cachetag_objent`, which is read as what it was written as. -/
inductive Membership where
  | inlineOne (fold : Nat)
  | vector (vector : DirectVector)
  | set (n : Nat)
deriving DecidableEq, Repr

/-- The rest of `struct cachetag_objent`, with the count byte of its slot. The code has no field `call`: it
    is the number of the attach that wrote the entry. -/
structure ObjVal where
  regSeq : Nat
  count : Nat
  membership : Membership
  call : Nat
deriving DecidableEq, Repr

/-- `struct cachetag_membership_view` -/
structure MembershipView where
  folds : List Nat
  nfolds : Nat
deriving DecidableEq, Repr

/-- The count byte for a number of folds. -/
def objcountCode (nfolds : Nat) : Nat := if nfolds ≤ objcountDirectMax then nfolds else objcountOverflow

/-- The vector of a direct membership, filled. -/
def directVector (folds : List Nat) : DirectVector :=
  if folds.length ≤ objcountDirectMax then .plain folds else .headed folds.length folds

section View
variable {α : Type*}

/-- `cachetag_objent_membership_view` -/
def membershipView (cfg : Config α) (r : Registry) (v : ObjVal) : MembershipView :=
  if v.count = 0 then ⟨[], 0⟩
  else if v.count = 1 then
    match v.membership with
    | .inlineOne fold => ⟨[fold], 1⟩
    | _ => ⟨[], 0⟩
  else if cfg.interned then
    match v.membership with
    | .set n =>
      match r.nodes[n]? with
      | none => ⟨[], 0⟩
      | some set =>
        if v.count ≠ objcountOverflow ∧ set.nfolds ≠ v.count ∨
            v.count = objcountOverflow ∧ (set.nfolds < objcountOverflow ∨ cfg.maxKeys < set.nfolds) then ⟨[], 0⟩
        else ⟨set.folds, set.nfolds⟩
    | _ => ⟨[], 0⟩
  else
    match v.membership with
    | .vector (.plain folds) => if v.count = objcountOverflow then ⟨[], 0⟩ else ⟨folds, v.count⟩
    | .vector (.headed nfolds folds) =>
      if v.count ≠ objcountOverflow ∨ nfolds < objcountOverflow ∨ cfg.maxKeys < nfolds then ⟨[], 0⟩
      else ⟨folds, nfolds⟩
    | _ => ⟨[], 0⟩

/-- The node that an entry with `nfolds` folds holds a reference to. -/
def heldSet (cfg : Config α) (nfolds : Nat) (v : ObjVal) : Option Nat :=
  if cfg.interned ∧ 1 < nfolds then
    match v.membership with
    | .set n => some n
    | _ => none
  else none

/-- The membership by which an entry stands for folds. -/
structure Encodes (cfg : Config α) (r : Registry) (v : ObjVal) (folds : List Nat) : Prop where
  some' : folds ≠ []
  few : folds.length ≤ cfg.maxKeys
  count : v.count = objcountCode folds.length
  membership :
    match v.membership with
    | .inlineOne fold => folds = [fold]
    | .vector vector => cfg.interned = false ∧ 2 ≤ folds.length ∧ vector = directVector folds
    | .set n => cfg.interned = true ∧ 2 ≤ folds.length ∧ n < r.nodes.length ∧ (r.setAt n).folds = folds ∧
        (r.setAt n).nfolds = folds.length

variable {cfg : Config α} {r r' : Registry} {v : ObjVal} {folds : List Nat}

theorem objcountCode_pos {n : Nat} (hn : n ≠ 0) : objcountCode n ≠ 0 := by
  unfold objcountCode objcountOverflow
  split <;> omega

theorem objcountCode_eq_one {n : Nat} : objcountCode n = 1 ↔ n = 1 := by
  unfold objcountCode objcountOverflow objcountDirectMax
  split <;> omega

/-- The view shows the folds that the entry stands for. -/
theorem Encodes.view (h : Encodes cfg r v folds) : membershipView cfg r v = ⟨folds, folds.length⟩ := by
  have hlen : folds.length ≠ 0 := fun h0 => h.some' (List.length_eq_zero_iff.mp h0)
  have hmem := h.membership
  have hfew := h.few
  unfold membershipView
  rw [h.count, if_neg (objcountCode_pos hlen)]
  cases hv : v.membership with
  | inlineOne fold =>
    rw [hv] at hmem
    dsimp only at hmem
    rw [if_pos (objcountCode_eq_one.mpr (by rw [hmem]; rfl)), hmem]
    rfl
  | vector vector =>
    rw [hv] at hmem
    obtain ⟨hmode, htwo, rfl⟩ := hmem
    rw [if_neg (fun h1 => by have := objcountCode_eq_one.mp h1; omega), if_neg (by simp [hmode])]
    unfold directVector objcountCode objcountDirectMax objcountOverflow
    by_cases hle : folds.length ≤ 254
    · simp only [if_pos hle]
      rw [if_neg (by omega)]
    · simp only [if_neg hle]
      rw [if_neg (by omega)]
  | set n =>
    rw [hv] at hmem
    obtain ⟨hmode, htwo, hn, hfolds, hnfolds⟩ := hmem
    rw [if_neg (fun h1 => by have := objcountCode_eq_one.mp h1; omega), if_pos (by simp [hmode])]
    simp only [getElem?_of_lt hn]
    rw [hnfolds, hfolds, if_neg]
    unfold objcountCode objcountDirectMax objcountOverflow
    split <;> omega

theorem Encodes.extends (h : Encodes cfg r v folds) (he : Extends r r') : Encodes cfg r' v folds where
  some' := h.some'
  few := h.few
  count := h.count
  membership := by
    have hmem := h.membership
    cases hv : v.membership with
    | inlineOne fold =>
      rw [hv] at hmem
      exact hmem
    | vector vector =>
      rw [hv] at hmem
      exact hmem
    | set n =>
      rw [hv] at hmem
      obtain ⟨hmode, htwo, hn, hfolds, hnfolds⟩ := hmem
      exact ⟨hmode, htwo, Nat.lt_of_lt_of_le hn he.length, (he.folds n hn).trans hfolds, (he.nfolds n hn).trans hnfolds⟩

end View

/-- The node that an entry points to. -/
def ObjVal.node? (v : ObjVal) : Option Nat :=
  match v.membership with
  | .set n => some n
  | _ => none

theorem Encodes.heldSet {α : Type*} {cfg : Config α} {r : Registry} {v : ObjVal} {folds : List Nat}
    (h : Encodes cfg r v folds) : heldSet cfg folds.length v = v.node? := by
  have hmem := h.membership
  unfold Cachetag.heldSet ObjVal.node?
  cases hv : v.membership with
  | inlineOne fold => simp
  | vector vector => simp
  | set n =>
    rw [hv] at hmem
    obtain ⟨hmode, htwo, -⟩ := hmem
    rw [if_pos ⟨hmode, by omega⟩]

end Cachetag
