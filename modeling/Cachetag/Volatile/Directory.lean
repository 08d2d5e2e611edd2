import Mathlib

/-! The segments of the dense object array of `src/vmod_cachetag_index.c`: where a slot lies in them, and
how the array grows and shrinks by whole segments. -/

namespace Cachetag

/-- `TAG_OBJECT_SEGMENTS` -/
def objectSegments : Nat := 32

/-- `TAG_OBJECT_SEGMENT0_SLOTS` -/
def objectSegment0Slots : Nat := 64

/-- `cachetag_object_segment_slots` -/
def objectSegmentSlots (segment : Nat) : Nat :=
  if segment = 0 ∨ segment = 1 then objectSegment0Slots else objectSegment0Slots * 2 ^ (segment - 1)

/-- `cachetag_object_segment_base` -/
def objectSegmentBase (segment : Nat) : Nat := if segment = 0 then 0 else objectSegment0Slots * 2 ^ (segment - 1)

/-- `cachetag_object_capacity_for_segments` -/
def objectCapacityForSegments (nsegments : Nat) : Nat :=
  if nsegments = 0 then 0
  else if nsegments = 1 then objectSegment0Slots
  else objectSegment0Slots * 2 ^ (nsegments - 1)

/-- `cachetag_object_segment_count_for_capacity` -/
def objectSegmentCountForCapacity (capacity : Nat) : Nat :=
  if capacity = 0 then 0
  else
    match (List.range objectSegments).find? fun n => capacity ≤ objectCapacityForSegments (n + 1) with
    | some n => n + 1
    | none => objectSegments + 1

/-- `TAG_OBJECT_GROW_RUNWAY_DIVISOR` -/
def objectGrowRunwayDivisor : Nat := 8

/-- `TAG_OBJECT_GROW_RUNWAY_ABSOLUTE` -/
def objectGrowRunwayAbsolute : Nat := 32768

/-- `cachetag_object_growth_runway` -/
def objectGrowthRunway (capacity : Nat) : Nat :=
  let runway := capacity / objectGrowRunwayDivisor
  if objectGrowRunwayAbsolute < runway then objectGrowRunwayAbsolute else runway

/-- `cachetag_object_segment_for_slot`. The width of the shifted slot is its logarithm and one more. -/
def objectSegmentForSlot (slot : Nat) : Nat := if slot < objectSegment0Slots then 0 else Nat.log2 (slot / 64) + 1

/-- The loop of `cachetag_object_low_water_target_locked`. It doubles 32 times at most. -/
def objectLowWaterLoop (nobjects : Nat) : Nat → Nat → Nat
  | 0, cap => cap
  | fuel + 1, cap => if cap < nobjects * 2 then objectLowWaterLoop nobjects fuel (cap * 2) else cap

/-- `cachetag_object_low_water_target_locked` -/
def objectLowWaterTarget (nobjects capobjects : Nat) : Nat :=
  if nobjects = 0 then 0
  else if capobjects / 4 < nobjects then capobjects
  else objectLowWaterLoop nobjects 32 objectSegment0Slots

/-- `object_segments`, of which only matters which are there, and `capobjects`. -/
structure Directory where
  segments : List Bool
  capobjects : Nat
deriving DecidableEq, Repr

namespace Directory

/-- What `cachetag_object_soft_growth_locked` reports. -/
structure Growth where
  segment : Nat
  oldCapacity : Nat
  newCapacity : Nat
  segmentSlots : Nat
deriving DecidableEq, Repr

/-- `cachetag_object_soft_growth_locked` -/
def softGrowth (d : Directory) (nobjects : Nat) : Option Growth :=
  let segment := objectSegmentCountForCapacity d.capobjects
  if d.capobjects = 0 then none
  else if nobjects < d.capobjects - objectGrowthRunway d.capobjects then none
  else if objectSegments ≤ segment then none
  else if d.segments[segment]? = some true then none
  else some ⟨segment, d.capobjects, objectCapacityForSegments (segment + 1), objectSegmentSlots segment⟩

/-- The directory of an index fresh from `cachetag_index_new`. -/
def new : Directory := ⟨List.replicate objectSegments false, 0⟩

/-- Where `cachetag_object_at` looks for a slot: the segment and the place in it. -/
def address (slot : Nat) : Nat × Nat := (objectSegmentForSlot slot, slot - objectSegmentBase (objectSegmentForSlot slot))

/-- The publication of a segment that was allocated for an array of `oldCapacity` slots. -/
def publishSegment (d : Directory) (oldCapacity : Nat) : Directory :=
  let segment := objectSegmentCountForCapacity oldCapacity
  if d.capobjects = oldCapacity ∧ d.segments[segment]? = some false then
    ⟨d.segments.set segment true, objectCapacityForSegments (segment + 1)⟩
  else d

/-- `cachetag_object_detach_segments_locked` -/
def detachSegments (d : Directory) (targetCapacity : Nat) : Directory :=
  let oldSegments := objectSegmentCountForCapacity d.capobjects
  let newSegments := objectSegmentCountForCapacity targetCapacity
  ⟨d.segments.mapIdx fun u present => if newSegments ≤ u ∧ u < oldSegments then false else present, targetCapacity⟩

/-- The directory of an array with `k` segments, which hold `n` entries. -/
structure Holds (d : Directory) (n k : Nat) : Prop where
  few : k ≤ objectSegments
  segments : d.segments = (List.range objectSegments).map fun u => decide (u < k)
  capobjects : d.capobjects = objectCapacityForSegments k
  room : n ≤ d.capobjects

variable {d : Directory} {n m k : Nat}

theorem countForCapacity_capacity (hk : k ≤ objectSegments) :
    objectSegmentCountForCapacity (objectCapacityForSegments k) = k := by
  have h : ∀ k < 33, objectSegmentCountForCapacity (objectCapacityForSegments k) = k := by decide
  exact h k (Nat.lt_succ_of_le hk)

theorem capacity_succ (j : Nat) : objectCapacityForSegments (j + 1) = objectSegment0Slots * 2 ^ j := by
  unfold objectCapacityForSegments
  rcases j with _ | j
  · rfl
  · rw [if_neg (by omega), if_neg (by omega)]
    rfl

theorem capacity_mono (hk : k ≤ m) : objectCapacityForSegments k ≤ objectCapacityForSegments m := by
  rcases k with _ | i
  · exact Nat.zero_le _
  · obtain ⟨j, rfl⟩ : ∃ j, m = j + 1 := ⟨m - 1, by omega⟩
    rw [capacity_succ, capacity_succ]
    exact Nat.mul_le_mul_left _ (Nat.pow_le_pow_right (by omega) (by omega))

theorem Holds.new : Holds Directory.new 0 0 where
  few := Nat.zero_le _
  segments := by decide
  capobjects := rfl
  room := Nat.le_refl _

theorem Holds.fewer (h : d.Holds n k) (hm : m ≤ n) : d.Holds m k :=
  ⟨h.few, h.segments, h.capobjects, Nat.le_trans hm h.room⟩

theorem Holds.getElem? (h : d.Holds n k) (u : Nat) :
    d.segments[u]? = if u < objectSegments then some (decide (u < k)) else none := by
  rw [h.segments, List.getElem?_map]
  split
  · rename_i hu
    rw [List.getElem?_range hu]
    rfl
  · rename_i hu
    rw [List.getElem?_eq_none (by simpa using hu)]
    rfl

theorem Holds.of_getElem? (hfew : k ≤ objectSegments)
    (h : ∀ u, d.segments[u]? = if u < objectSegments then some (decide (u < k)) else none)
    (hcap : d.capobjects = objectCapacityForSegments k) (hroom : n ≤ d.capobjects) : d.Holds n k where
  few := hfew
  segments := by
    refine List.ext_getElem? fun u => ?_
    rw [h u, List.getElem?_map]
    split
    · rename_i hu
      rw [List.getElem?_range hu]
      rfl
    · rename_i hu
      rw [List.getElem?_eq_none (by simpa using hu)]
      rfl
  capobjects := hcap
  room := hroom

/-- A new segment comes behind the last one. -/
theorem Holds.publishSegment (h : d.Holds n k) (oldCapacity : Nat) : ∃ k', (d.publishSegment oldCapacity).Holds n k' := by
  unfold Directory.publishSegment
  dsimp only
  split
  · rename_i hc
    obtain ⟨hcap, hnull⟩ := hc
    rw [← hcap, h.capobjects, countForCapacity_capacity h.few] at hnull ⊢
    have hk : k < objectSegments := by
      by_contra hk
      rw [h.getElem?, if_neg hk] at hnull
      cases hnull
    refine ⟨k + 1, .of_getElem? hk (fun u => ?_) rfl ?_⟩
    · rw [List.getElem?_set, h.getElem?]
      have hlen : k < d.segments.length := (List.getElem?_eq_some_iff.mp hnull).1
      by_cases hu : k = u
      · subst hu
        simp [hlen, hk]
      · have : u < k ↔ u < k + 1 := by omega
        simp [hu, this]
    · have := h.room
      rw [h.capobjects] at this
      exact Nat.le_trans this (capacity_mono (Nat.le_succ k))
  · exact ⟨k, h⟩

/-- The last segments go. -/
theorem Holds.detachSegments (h : d.Holds n k) {j : Nat} (hj : j ≤ k) (hm : m ≤ objectCapacityForSegments j) :
    (d.detachSegments (objectCapacityForSegments j)).Holds m j := by
  refine .of_getElem? (Nat.le_trans hj h.few) (fun u => ?_) rfl hm
  unfold Directory.detachSegments
  rw [h.capobjects, countForCapacity_capacity h.few, countForCapacity_capacity (Nat.le_trans hj h.few)]
  rw [List.getElem?_mapIdx, h.getElem?]
  by_cases hu : u < objectSegments
  · rw [if_pos hu, if_pos hu, Option.map_some]
    congr 1
    split
    · simp
      omega
    · have : u < k ↔ u < j := by omega
      simp [this]
  · rw [if_neg hu, if_neg hu]
    rfl

/-- The target of a shrink is the capacity of some segments, and holds the entries. -/
theorem lowWaterLoop_spec (fuel j : Nat) (hfuel : n * 2 ≤ objectSegment0Slots * 2 ^ (j + fuel)) :
    ∃ i, objectLowWaterLoop n fuel (objectSegment0Slots * 2 ^ j) = objectSegment0Slots * 2 ^ i ∧
      n * 2 ≤ objectSegment0Slots * 2 ^ i := by
  induction fuel generalizing j with
  | zero => exact ⟨j, rfl, hfuel⟩
  | succ fuel ih =>
    unfold objectLowWaterLoop
    split
    · have := ih (j + 1) (by rwa [Nat.add_right_comm, Nat.add_assoc] at *)
      rwa [pow_succ, ← Nat.mul_assoc] at this
    · rename_i hle
      exact ⟨j, rfl, Nat.le_of_not_lt hle⟩

theorem Holds.lowWater (h : d.Holds n k) (hlt : objectLowWaterTarget n d.capobjects < d.capobjects) :
    ∃ j, (d.detachSegments (objectLowWaterTarget n d.capobjects)).Holds n j := by
  unfold objectLowWaterTarget at hlt ⊢
  by_cases hn : n = 0
  · rw [if_pos hn]
    exact ⟨0, h.detachSegments (j := 0) (Nat.zero_le _) (by rw [hn]; exact Nat.zero_le _)⟩
  rw [if_neg hn] at hlt ⊢
  split at hlt
  · exact absurd hlt (Nat.lt_irrefl _)
  · rename_i hfull
    rw [if_neg hfull]
    have hk := h.capobjects
    have hcap : objectCapacityForSegments k ≤ objectSegment0Slots * 2 ^ 31 := capacity_mono h.few
    obtain ⟨i, hi, hle⟩ := lowWaterLoop_spec (n := n) 32 0 (by unfold objectSegment0Slots at *; omega)
    rw [pow_zero, Nat.mul_one] at hi
    rw [hi, ← capacity_succ] at hlt ⊢
    rw [← capacity_succ] at hle
    have hik : i + 1 ≤ k := by
      by_contra hik
      have := capacity_mono (k := k) (m := i + 1) (by omega)
      omega
    exact ⟨i + 1, h.detachSegments hik (by omega)⟩

/-! ### Slots -/

theorem segmentForSlot_lt {slot : Nat} (hslot : slot < objectCapacityForSegments k) : objectSegmentForSlot slot < k := by
  obtain ⟨j, rfl⟩ : ∃ j, k = j + 1 := ⟨k - 1, by
    rcases k with _ | j
    · exact absurd hslot (Nat.not_lt_zero _)
    · rfl⟩
  rw [capacity_succ] at hslot
  unfold objectSegmentForSlot
  split
  · omega
  · rename_i hge
    unfold objectSegment0Slots at *
    have hne : slot / 64 ≠ 0 := by omega
    have := (Nat.log2_lt hne (k := j)).mpr (Nat.div_lt_of_lt_mul hslot)
    omega

/-- A slot lies behind the base of its segment and before its end. -/
theorem base_le (slot : Nat) : objectSegmentBase (objectSegmentForSlot slot) ≤ slot ∧
    slot < objectSegmentBase (objectSegmentForSlot slot) + objectSegmentSlots (objectSegmentForSlot slot) := by
  unfold objectSegmentForSlot objectSegmentBase objectSegmentSlots objectSegment0Slots
  split
  · simp
    omega
  · rename_i hge
    have hne : slot / 64 ≠ 0 := by omega
    have hle := Nat.log2_self_le hne
    have hlt := Nat.lt_log2_self (n := slot / 64)
    rw [if_neg (by omega), Nat.add_sub_cancel]
    split
    · rename_i hone
      have : (slot / 64).log2 = 0 := by omega
      rw [this] at hle hlt ⊢
      omega
    · rw [pow_succ] at hlt
      omega

/-- Two slots have two places. -/
theorem address_inj {slot slot' : Nat} (h : address slot = address slot') : slot = slot' := by
  obtain ⟨hseg, hplace⟩ := Prod.mk.inj h
  have h₁ := (base_le slot).1
  have h₂ := (base_le slot').1
  rw [hseg] at hplace h₁
  omega

/-- Every slot in use lies in a segment that is there. -/
theorem Holds.address (h : d.Holds n k) {slot : Nat} (hslot : slot < n) :
    d.segments[(address slot).1]? = some true ∧ (address slot).2 < objectSegmentSlots (address slot).1 := by
  have hlt := @segmentForSlot_lt k slot (by have := h.room; rw [h.capobjects] at this; omega)
  refine ⟨?_, ?_⟩
  · show d.segments[objectSegmentForSlot slot]? = some true
    rw [h.getElem?, if_pos (Nat.lt_of_lt_of_le hlt h.few)]
    simp [hlt]
  · have := base_le slot
    show slot - objectSegmentBase (objectSegmentForSlot slot) < objectSegmentSlots (objectSegmentForSlot slot)
    omega

end Directory
end Cachetag
