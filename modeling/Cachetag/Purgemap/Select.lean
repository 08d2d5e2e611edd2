import Cachetag.Lib.Quickselect

/-! `cachetag_purgemap_select` of `src/vmod_cachetag_purgemap.c`, with every index checked.

An access outside of the current range ends the model without a result, and so does a cursor that would wrap below
zero, a scan or a loop that does not end. The library's selection never asks for any of these. -/

namespace Cachetag.Purgemap
open Quickselect

/-- A read of `values[i]` that stays in the current range. -/
def readIn (values : Array Nat) (left right i : Nat) : Option Nat :=
  if left ≤ i ∧ i ≤ right then values[i]? else none

/-- `j--` of an unsigned cursor. -/
def cursorDown : Nat → Option Nat
  | 0 => none
  | j + 1 => some j

/-- `while (values[i] < pivot) i++;` -/
def selectUp (values : Array Nat) (left right pivot : Nat) : Nat → Nat → Option Nat
  | 0, _ => none
  | fuel + 1, i =>
    (readIn values left right i).bind fun v =>
      if v < pivot then selectUp values left right pivot fuel (i + 1) else some i

/-- `while (values[j] > pivot) j--;` -/
def selectDown (values : Array Nat) (left right pivot : Nat) : Nat → Nat → Option Nat
  | 0, _ => none
  | fuel + 1, j =>
    (readIn values left right j).bind fun v =>
      if v > pivot then (cursorDown j).bind fun j => selectDown values left right pivot fuel j else some j

/-- The exchange of `values[i]` and `values[j]` by way of `tmp`. -/
def selectExchange (values : Array Nat) (left right i j : Nat) : Option (Array Nat) :=
  (readIn values left right i).bind fun tmp =>
    (readIn values left right j).map fun v => (values.setIfInBounds i v).setIfInBounds j tmp

/-- The inner loop: the array it leaves, and `j`. -/
def selectPart (left right pivot : Nat) : Nat → Array Nat → Nat → Nat → Option (Array Nat × Nat)
  | 0, _, _, _ => none
  | fuel + 1, values, i, j =>
    (selectUp values left right pivot (values.size + 1) i).bind fun i =>
      (selectDown values left right pivot (values.size + 1) j).bind fun j =>
        if i ≥ j then some (values, j)
        else
          (selectExchange values left right i j).bind fun values =>
            (cursorDown j).bind fun j => selectPart left right pivot fuel values (i + 1) j

/-- The outer loop: the array it leaves, and the value it returns. -/
def selectLoop (kth : Nat) : Nat → Array Nat → Nat → Nat → Option (Array Nat × Nat)
  | 0, _, _, _ => none
  | fuel + 1, values, left, right =>
    if left = right then (readIn values left right left).map fun v => (values, v)
    else
      (readIn values left right (left + (right - left) / 2)).bind fun pivot =>
        (selectPart left right pivot (values.size + 1) values left right).bind fun (values, j) =>
          if kth ≤ j then selectLoop kth fuel values left j else selectLoop kth fuel values (j + 1) right

/-- `cachetag_purgemap_select`, with the array that it leaves. -/
def select (values : Array Nat) (kth : Nat) : Option (Array Nat × Nat) :=
  if values.size ≠ 0 ∧ kth < values.size then selectLoop kth values.size values 0 (values.size - 1) else none

/-! ### The checks never strike -/

/-- The array holds what a function on positions says. -/
structure Holds (values : Array Nat) (n : Nat) (a : Nat → Nat) : Prop where
  size : values.size = n
  get : ∀ i < n, values[i]? = some (a i)

section
variable {values : Array Nat} {n left right pivot i j r kth fuel v : Nat} {a b : Nat → Nat}

theorem Holds.toList (h : Holds values n a) : values.toList = (List.range n).map a := by
  refine List.ext_getElem? fun i => ?_
  rw [Array.getElem?_toList, List.getElem?_map]
  by_cases hi : i < n
  · rw [h.get i hi, List.getElem?_range hi, Option.map_some]
  · rw [Array.getElem?_eq_none (by rw [h.size]; omega), List.getElem?_eq_none (by simpa using hi), Option.map_none]

theorem Holds.readIn (h : Holds values n a) (hn : right < n) (hl : left ≤ i) (hr : i ≤ right) :
    readIn values left right i = some (a i) := by
  rw [Purgemap.readIn, if_pos ⟨hl, hr⟩, h.get i (by omega)]

theorem Holds.selectUp (h : Holds values n a) (hn : right < n) (hl : left ≤ i) (hir : i ≤ r) (hr : r ≤ right)
    (hfuel : r < i + fuel) (hup : ∀ u, i ≤ u → u < r → a u < pivot) (hat : pivot ≤ a r) :
    selectUp values left right pivot fuel i = some r := by
  induction fuel generalizing i with
  | zero => omega
  | succ fuel ih =>
    rw [Purgemap.selectUp, h.readIn hn hl (hir.trans hr), Option.bind_some]
    rcases Nat.eq_or_lt_of_le hir with rfl | hlt
    · rw [if_neg (Nat.not_lt.mpr hat)]
    · rw [if_pos (hup i (Nat.le_refl i) hlt)]
      exact ih (by omega) hlt (by omega) fun u hu => hup u (by omega)

theorem Holds.selectDown (h : Holds values n a) (hn : right < n) (hl : left ≤ r) (hrj : r ≤ j) (hr : j ≤ right)
    (hfuel : j < r + fuel) (hdown : ∀ u, r < u → u ≤ j → pivot < a u) (hat : a r ≤ pivot) :
    selectDown values left right pivot fuel j = some r := by
  induction fuel generalizing j with
  | zero => omega
  | succ fuel ih =>
    rw [Purgemap.selectDown, h.readIn hn (hl.trans hrj) hr, Option.bind_some]
    rcases Nat.eq_or_lt_of_le hrj with rfl | hlt
    · rw [if_neg (Nat.not_lt.mpr hat)]
    · obtain ⟨j, rfl⟩ : ∃ k, j = k + 1 := ⟨j - 1, by omega⟩
      rw [if_pos (hdown (j + 1) hlt (Nat.le_refl _)), cursorDown, Option.bind_some]
      exact ih (by omega) (by omega) (by omega) fun u hu hle => hdown u hu (by omega)

/-- An exchange in range swaps two values. -/
theorem Holds.selectExchange (h : Holds values n a) (hn : right < n) (hi : left ≤ i ∧ i ≤ right)
    (hj : left ≤ j ∧ j ≤ right) :
    ∃ values', selectExchange values left right i j = some values' ∧ Holds values' n (a ∘ Equiv.swap i j) ∧
      values'.Perm values := by
  have hin : i < values.size := by
    rw [h.size]
    omega
  have hjn : j < values.size := by
    rw [h.size]
    omega
  have hai : values[i] = a i := Option.some.inj ((Array.getElem?_eq_getElem hin).symm.trans (h.get i (by omega)))
  have haj : values[j] = a j := Option.some.inj ((Array.getElem?_eq_getElem hjn).symm.trans (h.get j (by omega)))
  have hswap : (values.setIfInBounds i (a j)).setIfInBounds j (a i) = values.swap i j hin hjn := by
    simp [Array.setIfInBounds, Array.swap, hin, hjn, hai, haj]
  refine ⟨values.swap i j hin hjn, ?_, ⟨by simpa using h.size, fun u hu => ?_⟩, Array.swap_perm hin hjn⟩
  · rw [Purgemap.selectExchange, h.readIn hn hi.1 hi.2, h.readIn hn hj.1 hj.2, Option.bind_some, Option.map_some, hswap]
  · rw [Array.getElem?_swap, hai, haj, h.get u hu, Function.comp_apply]
    split
    · rename_i hju
      rw [← hju, Equiv.swap_apply_right]
    · split
      · rename_i _ hiu
        rw [← hiu, Equiv.swap_apply_left]
      · rename_i hju hiu
        rw [Equiv.swap_apply_of_ne_of_ne (Ne.symm hiu) (Ne.symm hju)]

/-- The inner loop does what the library's partition does. -/
theorem Holds.selectPart (h : Holds values n a) (hn : right < n) (hfuel : j + 1 < i + fuel)
    (hpart : Parting left right pivot a i j) {d : Nat} (hp : partition n pivot fuel a i j = some (b, d)) :
    ∃ values', selectPart left right pivot fuel values i j = some (values', d) ∧ Holds values' n b ∧
      values'.Perm values := by
  induction fuel generalizing values a i j with
  | zero => cases hp
  | succ fuel ih =>
    obtain ⟨ku, hiu, hur, hau⟩ := hpart.up
    obtain ⟨kd, hld, hdj, had⟩ := hpart.down
    obtain ⟨i', hsu, hii, hiku, hai, hupto⟩ := scanUp_spec (a := a) hiu (show ku < i + n by omega) hau
    obtain ⟨j', hsd, hdj', hjj, haj, hdownto⟩ := scanDown_spec hdj had
    have hleft := hpart.left
    have hright := hpart.right
    have hsize := h.size
    rw [Quickselect.partition, hsu, hsd, Option.bind_some, Option.bind_some] at hp
    rw [Purgemap.selectPart,
      h.selectUp hn hleft hii (by omega) (by omega) hupto hai, Option.bind_some,
      h.selectDown hn (by omega) hjj hright (by omega) hdownto haj, Option.bind_some]
    by_cases hmeet : j' ≤ i'
    · rw [if_pos hmeet] at hp ⊢
      cases hp
      exact ⟨values, rfl, h, .refl _⟩
    · rw [if_neg hmeet] at hp ⊢
      have hlow : ∀ u, left ≤ u → u < i' → a u ≤ pivot := fun u hlu hu =>
        if hui : u < i then hpart.low u hlu hui else (hupto u (by omega) hu).le
      have hhigh : ∀ u, j' < u → u ≤ right → pivot ≤ a u := fun u hju hur =>
        if huj : j < u then hpart.high u huj hur else (hdownto u hju (by omega)).le
      obtain ⟨mid, hmid, hholds, hperm⟩ := h.selectExchange hn (show left ≤ i' ∧ i' ≤ right by omega)
        (show left ≤ j' ∧ j' ≤ right by omega)
      obtain ⟨j', rfl⟩ : ∃ k, j' = k + 1 := ⟨j' - 1, by omega⟩
      rw [hmid, Option.bind_some, cursorDown, Option.bind_some]
      obtain ⟨last, hlast, hholds', hperm'⟩ := ih hholds (by omega)
        (.swap (by omega) (by omega) (by omega) hlow hhigh hai haj) hp
      exact ⟨last, hlast, hholds', hperm'.trans hperm⟩

/-- The outer loop does what the library's selection does. -/
theorem Holds.selectLoop (h : Holds values n a) (hnarrow : Narrowed n kth a left right) (hfuel : right - left < fuel)
    (hv : selectIn n kth fuel a left right = some v) :
    ∃ values', selectLoop kth fuel values left right = some (values', v) ∧ values'.Perm values := by
  induction fuel generalizing values a left right with
  | zero => cases hv
  | succ fuel ih =>
    have hlo := hnarrow.lo
    have hhi := hnarrow.hi
    have hlt := hnarrow.lt
    rw [selectIn] at hv
    rw [Purgemap.selectLoop]
    by_cases heq : left = right
    · rw [if_pos heq] at hv ⊢
      rw [h.readIn hlt (Nat.le_refl _) heq.le, Option.map_some, Option.some.inj hv]
      exact ⟨values, rfl, .refl _⟩
    · rw [if_neg heq] at hv ⊢
      have hparts : right + 1 < left + (n + 1) := by omega
      obtain ⟨b, d, hb, hsh, hld, hdr, hlow, hhigh⟩ :=
        partition_spec hlt hparts (Parting.init (a := a) (by omega))
      obtain ⟨mid, hmid, hholds, hperm⟩ := h.selectPart hlt hparts (Parting.init (a := a) (by omega)) hb
      rw [h.readIn hlt (by omega) (by omega), Option.bind_some, h.size, hmid, Option.bind_some]
      rw [hb, Option.bind_some] at hv
      dsimp only at hv ⊢
      by_cases hk : kth ≤ d
      · rw [if_pos hk] at hv ⊢
        obtain ⟨last, hlast, hperm'⟩ := ih hholds (hnarrow.lower hsh hdr hlow hhigh hk) (by omega) hv
        exact ⟨last, hlast, hperm'.trans hperm⟩
      · rw [if_neg hk] at hv ⊢
        obtain ⟨last, hlast, hperm'⟩ := ih hholds (hnarrow.upper hsh hld hlow hhigh (by omega)) (by omega) hv
        exact ⟨last, hlast, hperm'.trans hperm⟩

end

/-- The selection ends without an access out of range or a cursor that wraps. It leaves the values of the array in
    some order, and returns the one of rank `kth`, which the prune takes from the library. -/
theorem select_kth (values : Array Nat) (kth : Nat) (hk : kth < values.size) :
    ∃ values' v, select values kth = some (values', v) ∧ values'.Perm values ∧
      (values.toList.mergeSort (· ≤ ·))[kth]? = some v ∧
      Quickselect.select (fun i => values.toList.getD i 0) values.size kth = some v := by
  obtain ⟨v, hv, hrank⟩ := select_spec values.size kth (fun i => values.toList.getD i 0) hk
  have h : Holds values values.size fun i => values.toList.getD i 0 :=
    ⟨rfl, fun i hi => by simp [hi]⟩
  obtain ⟨values', hsel, hperm⟩ := h.selectLoop (.init hk) (by omega) hv
  rw [← h.toList] at hrank
  exact ⟨values', v, by rw [select, if_pos ⟨by omega, hk⟩, hsel], hperm, hrank.sorted, hv⟩

theorem select_kth_ties :
    ∃ values' v, select #[7, 7, 2, 7] 1 = some (values', v) ∧ values'.Perm #[7, 7, 2, 7] ∧
      ((#[7, 7, 2, 7] : Array Nat).toList.mergeSort (· ≤ ·))[1]? = some v ∧
      Quickselect.select (fun i => (#[7, 7, 2, 7] : Array Nat).toList.getD i 0) 4 1 = some v :=
  select_kth #[7, 7, 2, 7] 1 (by decide)

end Cachetag.Purgemap
