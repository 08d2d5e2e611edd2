import Cachetag.Volatile.Directory

/-! The addresses of dense slots: `cachetag_object_segment_for_slot`, `cachetag_object_at` and
`cachetag_object_count_at` of `src/vmod_cachetag_index.c`.

A segment is one allocation: its entries, and behind them one byte for each. A cell is named by its segment and its
bytes in it. -/

namespace Cachetag.Directory

/-- `cachetag_object_segment_for_slot` as it counts leading zeros. `none` is the `WRONG` at its end. -/
def segmentForSlot (slot : BitVec 64) : Option Nat :=
  if slot.toNat < objectSegment0Slots then some 0
  else
    let value := slot >>> 6
    let segment := 64 - value.clz.toNat
    if objectSegments ≤ segment then none else some segment

/-- The bytes that an accessor points to. -/
structure Cell where
  segment : Nat
  start : Nat
  size : Nat
deriving DecidableEq, Repr

/-- No byte of one is a byte of the other. -/
def Cell.Disjoint (c c' : Cell) : Prop :=
  c.segment ≠ c'.segment ∨ c.start + c.size ≤ c'.start ∨ c'.start + c'.size ≤ c.start

section
variable (objent : Nat)

/-- `cachetag_object_segment_allocation_bytes`, with `objent` the size of a `struct cachetag_objent`. -/
def segmentBytes (segment : Nat) : Nat := objectSegmentSlots segment * (objent + 1)

def Cell.InRange (c : Cell) : Prop := c.segment < objectSegments ∧ c.start + c.size ≤ segmentBytes objent c.segment

/-- `cachetag_object_at`. `none` is an assertion that fails. -/
def objectAt (d : Directory) (slot : BitVec 64) : Option Cell :=
  if slot.toNat < d.capobjects then
    (segmentForSlot slot).bind fun segment =>
      if d.segments[segment]? = some true then
        some ⟨segment, (slot.toNat - objectSegmentBase segment) * objent, objent⟩
      else none
  else none

/-- `cachetag_object_count_at` -/
def objectCountAt (d : Directory) (slot : BitVec 64) : Option Cell :=
  if slot.toNat < d.capobjects then
    (segmentForSlot slot).bind fun segment =>
      if d.segments[segment]? = some true then
        some ⟨segment, objectSegmentSlots segment * objent + (slot.toNat - objectSegmentBase segment), 1⟩
      else none
  else none

end

/-- A slot lies in a segment. -/
def InSegment (segment slot : Nat) : Prop :=
  objectSegmentBase segment ≤ slot ∧ slot < objectSegmentBase segment + objectSegmentSlots segment

section
variable {k m s s' n : Nat} {slot slot' : BitVec 64} {d : Directory}

/-- The width of a number is what its leading zeros leave of 64 bits. -/
theorem width_eq {v : BitVec 64} (hv : v.toNat ≠ 0) : 64 - v.clz.toNat = v.toNat.log2 + 1 := by
  have hne : v ≠ 0#64 := by
    rintro rfl
    exact hv rfl
  have hle := BitVec.two_pow_sub_clz_le_toNat_of_ne_zero (by decide) hne
  have hlt := BitVec.toNat_lt_two_pow_sub_clz (x := v)
  have hclz := BitVec.lt_def.mp (BitVec.clz_lt_iff_ne_zero.mpr hne)
  have hlow : 64 - v.clz.toNat - 1 ≤ v.toNat.log2 := (Nat.le_log2 hv).mpr (by rwa [Nat.sub_right_comm])
  have hhigh := (Nat.log2_lt hv).mpr hlt
  have hclz : v.clz.toNat < 64 := hclz
  omega

theorem segmentForSlot_eq (h : slot.toNat < objectCapacityForSegments objectSegments) :
    segmentForSlot slot = some (objectSegmentForSlot slot.toNat) := by
  have hseg := segmentForSlot_lt h
  unfold segmentForSlot
  unfold objectSegmentForSlot at hseg ⊢
  split
  · rfl
  · rename_i hlarge
    rw [if_neg hlarge] at hseg
    have hshift : (slot >>> 6).toNat = slot.toNat / 64 := by
      rw [BitVec.toNat_ushiftRight, Nat.shiftRight_eq_div_pow]
    have hne : (slot >>> 6).toNat ≠ 0 := by
      unfold objectSegment0Slots at hlarge
      omega
    dsimp only
    rw [width_eq hne, hshift, if_neg (by omega)]

/-- A segment begins where those before it end. -/
theorem base_eq_capacity (s : Nat) : objectSegmentBase s = objectCapacityForSegments s := by
  rcases s with _ | _ | s <;> rfl

theorem capacity_succ_eq (s : Nat) :
    objectCapacityForSegments (s + 1) = objectCapacityForSegments s + objectSegmentSlots s := by
  rcases s with _ | _ | s
  · rfl
  · rfl
  · rw [capacity_succ, capacity_succ, objectSegmentSlots, if_neg (by omega), pow_succ, Nat.add_sub_cancel,
      ← Nat.mul_assoc, Nat.mul_two]

/-- No slot lies in two segments. -/
theorem InSegment.unique {x : Nat} (h : InSegment s x) (h' : InSegment s' x) : s = s' := by
  have later : ∀ {s s'}, InSegment s x → InSegment s' x → ¬ s < s' := by
    intro s s' h h' hlt
    have hend := h.2
    rw [base_eq_capacity, ← capacity_succ_eq] at hend
    have hstart := h'.1
    rw [base_eq_capacity] at hstart
    have hnext : objectCapacityForSegments (s + 1) ≤ objectCapacityForSegments s' := capacity_mono hlt
    omega
  exact le_antisymm (Nat.le_of_not_lt (later h' h)) (Nat.le_of_not_lt (later h h'))

theorem capacity_eq_sum (k : Nat) : objectCapacityForSegments k = ∑ s ∈ Finset.range k, objectSegmentSlots s := by
  induction k with
  | zero => rfl
  | succ k ih => rw [Finset.sum_range_succ, capacity_succ_eq, ih]

/-- The count is the least number of segments that hold a capacity. -/
theorem countForCapacity_isLeast (h : m ≤ objectCapacityForSegments objectSegments) :
    IsLeast {k | m ≤ objectCapacityForSegments k} (objectSegmentCountForCapacity m) := by
  unfold objectSegmentCountForCapacity
  split
  · rename_i hzero
    exact ⟨hzero.le, fun _ _ => Nat.zero_le _⟩
  · rename_i hpos
    cases hf : (List.range objectSegments).find? fun n => m ≤ objectCapacityForSegments (n + 1) with
    | none =>
      rw [List.find?_eq_none] at hf
      exact absurd (decide_eq_true h) (hf (objectSegments - 1) (by decide))
    | some n =>
      obtain ⟨hn, hbefore⟩ := List.find?_range_eq_some.mp hf
      refine ⟨of_decide_eq_true hn, fun k hk => ?_⟩
      have hk : m ≤ objectCapacityForSegments k := hk
      dsimp only
      rcases k with _ | k
      · exact absurd (Nat.le_zero.mp hk) hpos
      · by_contra hlt
        have := hbefore.2 k (by omega)
        simp only [Bool.not_eq_true', decide_eq_false_iff_not] at this
        exact this hk

theorem place_lt (slot : Nat) :
    slot - objectSegmentBase (objectSegmentForSlot slot) < objectSegmentSlots (objectSegmentForSlot slot) := by
  have := base_le slot
  omega

/-- Which cells a slot has. -/
theorem cells_eq (objent : Nat) (hcap : d.capobjects ≤ objectCapacityForSegments objectSegments)
    (hthere : ∀ s < objectSegmentCountForCapacity d.capobjects, d.segments[s]? = some true)
    (hslot : slot.toNat < d.capobjects) :
    objectSegmentForSlot slot.toNat < objectSegments ∧
      objectAt objent d slot = some ⟨objectSegmentForSlot slot.toNat,
        (slot.toNat - objectSegmentBase (objectSegmentForSlot slot.toNat)) * objent, objent⟩ ∧
      objectCountAt objent d slot = some ⟨objectSegmentForSlot slot.toNat,
        objectSegmentSlots (objectSegmentForSlot slot.toNat) * objent +
          (slot.toNat - objectSegmentBase (objectSegmentForSlot slot.toNat)), 1⟩ := by
  have hleast := countForCapacity_isLeast hcap
  have hthis := hthere _ (segmentForSlot_lt (Nat.lt_of_lt_of_le hslot hleast.1))
  have hin := Nat.lt_of_lt_of_le hslot hcap
  refine ⟨segmentForSlot_lt hin, ?_, ?_⟩
  · rw [objectAt, if_pos hslot, segmentForSlot_eq hin, Option.bind_some, if_pos hthis]
  · rw [objectCountAt, if_pos hslot, segmentForSlot_eq hin, Option.bind_some, if_pos hthis]

end

/-- Slots, segments and capacities fit together. -/
structure Addressing : Prop where
  /-- Each slot lies in one segment, which the leading zeros find. -/
  segment : ∀ slot : BitVec 64, slot.toNat < objectCapacityForSegments objectSegments →
    ∃ s < objectSegments, segmentForSlot slot = some s ∧ InSegment s slot.toNat ∧
      ∀ s' < objectSegments, InSegment s' slot.toNat → s' = s
  /-- Two slots have two places. -/
  place : ∀ slot slot' : BitVec 64, ∀ s, slot.toNat < objectCapacityForSegments objectSegments →
    slot'.toNat < objectCapacityForSegments objectSegments → segmentForSlot slot = some s →
    segmentForSlot slot' = some s → slot.toNat - objectSegmentBase s = slot'.toNat - objectSegmentBase s → slot = slot'
  sum : ∀ k ≤ objectSegments, objectCapacityForSegments k = ∑ s ∈ Finset.range k, objectSegmentSlots s
  count : ∀ k ≤ objectSegments, objectSegmentCountForCapacity (objectCapacityForSegments k) = k
  roundsUp : ∀ capacity ≤ objectCapacityForSegments objectSegments,
    IsLeast {k | capacity ≤ objectCapacityForSegments k} (objectSegmentCountForCapacity capacity)
  /-- Every slot in use has its own cells, in a segment that is there. -/
  cells : ∀ (objent : Nat) (d : Directory), d.capobjects ≤ objectCapacityForSegments objectSegments →
    (∀ s < objectSegmentCountForCapacity d.capobjects, d.segments[s]? = some true) →
    ∀ slot : BitVec 64, slot.toNat < d.capobjects → ∃ o c, objectAt objent d slot = some o ∧
      objectCountAt objent d slot = some c ∧ o.InRange objent ∧ c.InRange objent ∧ o.Disjoint c ∧
      ∀ slot' : BitVec 64, slot'.toNat < d.capobjects → slot' ≠ slot →
        ∃ o' c', objectAt objent d slot' = some o' ∧ objectCountAt objent d slot' = some c' ∧
          o.Disjoint o' ∧ o.Disjoint c' ∧ c.Disjoint c'

theorem segment_addressing : Addressing where
  segment slot h := by
    refine ⟨_, segmentForSlot_lt h, segmentForSlot_eq h, base_le slot.toNat, fun s' _ hs' => ?_⟩
    exact hs'.unique (base_le slot.toNat)
  place slot slot' s h h' hs hs' hplace := by
    rw [segmentForSlot_eq h, Option.some.injEq] at hs
    rw [segmentForSlot_eq h', Option.some.injEq] at hs'
    refine BitVec.eq_of_toNat_eq (address_inj ?_)
    rw [address, address, hs, hs', hplace]
  sum k _ := capacity_eq_sum k
  count k hk := countForCapacity_capacity hk
  roundsUp capacity h := countForCapacity_isLeast h
  cells objent d hcap hthere slot hslot := by
    obtain ⟨hseg, ho, hc⟩ := cells_eq objent hcap hthere hslot
    have hplace := place_lt slot.toNat
    generalize hg : objectSegmentForSlot slot.toNat = g at *
    generalize hx : slot.toNat - objectSegmentBase g = x at *
    -- The cell of slot `x` is wholly in front of the tags, which begin behind the last cell.
    have hx' : (x + 1) * objent ≤ objectSegmentSlots g * objent := Nat.mul_le_mul_right _ hplace
    rw [Nat.add_mul, Nat.one_mul] at hx'
    have hbytes : segmentBytes objent g = objectSegmentSlots g * objent + objectSegmentSlots g := by
      rw [segmentBytes, Nat.mul_add, Nat.mul_one]
    refine ⟨_, _, ho, hc, ⟨hseg, ?_⟩, ⟨hseg, ?_⟩, .inr (.inl ?_), fun slot' hslot' hne => ?_⟩
    · dsimp only
      omega
    · dsimp only
      omega
    · dsimp only
      omega
    · obtain ⟨-, ho', hc'⟩ := cells_eq objent hcap hthere hslot'
      refine ⟨_, _, ho', hc', ?_⟩
      by_cases hsame : g = objectSegmentForSlot slot'.toNat
      -- In one segment, two slots have different places, and the cells of different places are apart.
      · have hdiff : x ≠ slot'.toNat - objectSegmentBase g := by
          intro heq
          refine hne (BitVec.eq_of_toNat_eq (address_inj ?_))
          rw [address, address, hg, ← hsame, hx, ← heq]
        rw [← hsame]
        generalize slot'.toNat - objectSegmentBase g = y at *
        refine ⟨?_, .inr (.inl (by dsimp only; omega)), .inr ?_⟩
        · rcases Nat.lt_or_gt_of_ne hdiff with hlt | hlt
          · have hstep : (x + 1) * objent ≤ y * objent := Nat.mul_le_mul_right _ hlt
            rw [Nat.add_mul, Nat.one_mul] at hstep
            exact .inr (.inl hstep)
          · have hstep : (y + 1) * objent ≤ x * objent := Nat.mul_le_mul_right _ hlt
            rw [Nat.add_mul, Nat.one_mul] at hstep
            exact .inr (.inr hstep)
        · dsimp only
          omega
      · exact ⟨.inl hsame, .inl hsame, .inl hsame⟩

end Cachetag.Directory
