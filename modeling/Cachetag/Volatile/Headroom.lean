import Cachetag.SideTable.Counts
import Cachetag.SideTable.Room
import Cachetag.Volatile.Directory

/-! Whether the tables that a low-water shrink leaves are large enough: no growth may be due as soon as the shrink is
over. The thresholds of the two come from different formulas.

The smallest side table is the exception. Its soft limit leaves a runway of 32 buckets below a hard limit of 44, and
a shrink puts up to 16 objects into it. -/

namespace Cachetag
open SideIndex LinearProbe Machine

namespace Directory
variable {d : Directory} {m n : Nat}

theorem objectGrowthRunway_le (capacity : Nat) : objectGrowthRunway capacity ≤ capacity / 8 := by
  unfold objectGrowthRunway objectGrowRunwayDivisor objectGrowRunwayAbsolute
  dsimp only
  split <;> omega

/-- A low-water target is the capacity of some segments, and half of it is free. -/
theorem lowWaterTarget_spec (hn : n ≠ 0) (hcap : d.capobjects ≤ objectCapacityForSegments objectSegments)
    (hlt : objectLowWaterTarget n d.capobjects < d.capobjects) : ∃ k ≤ objectSegments,
      objectLowWaterTarget n d.capobjects = objectCapacityForSegments k ∧ n * 2 ≤ objectCapacityForSegments k := by
  unfold objectLowWaterTarget at hlt ⊢
  rw [if_neg hn] at hlt ⊢
  split at hlt
  · exact absurd hlt (Nat.lt_irrefl _)
  · rename_i hfull
    rw [if_neg hfull]
    have hmax : objectCapacityForSegments objectSegments = objectSegment0Slots * 2 ^ 31 := rfl
    obtain ⟨i, hi, hle⟩ := lowWaterLoop_spec (n := n) 32 0 (by unfold objectSegment0Slots at *; omega)
    rw [pow_zero, Nat.mul_one] at hi
    rw [hi, ← capacity_succ] at hlt ⊢
    rw [← capacity_succ] at hle
    have hik : i + 1 ≤ objectSegments := by
      by_contra hik
      have := capacity_mono (k := objectSegments) (m := i + 1) (by omega)
      omega
    exact ⟨i + 1, hik, rfl, hle⟩

/-- Below the runway no growth is due. -/
theorem softGrowth_eq_none (h : n < d.capobjects - objectGrowthRunway d.capobjects) : d.softGrowth n = none := by
  unfold softGrowth
  dsimp only
  split_ifs <;> rfl

end Directory

namespace SideIndex
variable {α β : Type*} {H : SideHash α} {s s' : SideIndex α β} {n T : Nat}

/-- The shrink of the side tables to a number of buckets is taken. -/
structure Shrinks (s : SideIndex α β) (buckets : Nat) : Prop where
  idle : s.migrationActive = false
  done : (s.publishShrink buckets).2 = none
  active : (s.publishShrink buckets).1.migrationActive = true

instance (s : SideIndex α β) (buckets : Nat) : Decidable (s.Shrinks buckets) :=
  decidable_of_iff (s.migrationActive = false ∧ (s.publishShrink buckets).2 = none ∧
    (s.publishShrink buckets).1.migrationActive = true)
    ⟨fun h => ⟨h.1, h.2.1, h.2.2⟩, fun h => ⟨h.idle, h.done, h.active⟩⟩

/-- The loop stops at the first size that four times the objects fit. -/
theorem lowWaterLoop_first (s : SideIndex α β) (fuel : Nat) {b i : Nat} (hb : b = sideDefaultBuckets * 2 ^ i)
    (hsmall : i = 0 ∨ b / 8 < s.objects.length) :
    s.lowWaterLoop fuel b = s.primary.buckets ∨ ∃ j, s.lowWaterLoop fuel b = sideDefaultBuckets * 2 ^ j ∧
      s.objects.length ≤ s.lowWaterLoop fuel b / 4 ∧ (j = 0 ∨ s.lowWaterLoop fuel b / 8 < s.objects.length) := by
  induction fuel generalizing b i with
  | zero => exact .inl rfl
  | succ fuel ih =>
    unfold lowWaterLoop
    split_ifs with hle hmax
    · exact .inr ⟨i, hb, hle, hsmall⟩
    · exact .inl rfl
    · exact ih (i := i + 1) (by rw [hb, pow_succ, Nat.mul_assoc]) (.inr (by omega))

/-- What is known of a shrink that is taken. -/
structure Shrunk (s : SideIndex α β) (buckets : Nat) : Prop where
  target : s.lowWaterTarget = buckets
  lt : buckets < s.primary.buckets
  primary : (s.publishShrink buckets).1.primary = .fresh buckets
  retiring : (s.publishShrink buckets).1.retiring = s.primary
  objects : (s.publishShrink buckets).1.objects = s.objects

theorem Shrinks.shrunk (h : s.Shrinks T) : s.Shrunk T := by
  obtain ⟨hidle, hdone, hactive⟩ := h
  unfold SideIndex.publishShrink at hdone hactive
  split_ifs at hdone hactive with hc
  · have hpublish : s.publishShrink T = autoIfPublished (s.publishAllocated T .shrink) := if_pos hc
    obtain ⟨-, -, htarget, hlt⟩ := hc
    have hb : s.primary.buckets ≠ 0 := by omega
    have hreason : ¬(SideReason.shrink = .shrink ∧ s.primary.buckets ≤ T) := fun hle => absurd hle.2 (by omega)
    have hallocated : s.publishAllocated T .shrink = s.publishMigration T .shrink := by
      rw [SideIndex.publishAllocated, if_neg (by simp [hidle]), if_neg (by simp), if_neg (by simp), if_neg hreason]
    rw [hallocated] at hdone hactive hpublish
    unfold SideIndex.publishMigration at hdone hactive hpublish
    split_ifs at hdone hactive hpublish with hbad hon
    · cases hdone
    · exact absurd hon (by simp [hidle])
    · exact ⟨htarget, hlt, by rw [hpublish]; rfl, by rw [hpublish]; rfl, by rw [hpublish]; rfl⟩
  · rw [hidle] at hactive
    cases hactive

/-- How large the table is that a shrink goes to. -/
theorem Shrunk.size (h : s.Shrunk T) (hn : s.objects.length ≠ 0) (hidle : s.migrationActive = false) :
    ∃ j, T = sideDefaultBuckets * 2 ^ j ∧ s.objects.length ≤ T / 4 ∧ (j = 0 ∨ T / 8 < s.objects.length) := by
  have htarget := h.target
  have hlt := h.lt
  have hb : ¬(s.primary.buckets = 0 ∨ s.migrationActive = true) := by
    rw [hidle]
    simp only [Bool.false_eq_true, or_false]
    omega
  rw [lowWaterTarget, if_neg hn, if_neg hb] at htarget
  subst htarget
  rcases s.lowWaterLoop_first 59 (i := 0) (by rw [pow_zero, Nat.mul_one]) (.inl rfl) with heq | hfirst
  · exact absurd heq hlt.ne
  · exact hfirst

/-- The soft limit of the table that a shrink goes to. -/
theorem Shrunk.lt_limit (h : s.Shrunk T) (hn : s.objects.length ≠ 0) (hidle : s.migrationActive = false) :
    s.objects.length < sideSoftGrowLimit T ↔ ¬(12 ≤ s.objects.length ∧ s.objects.length ≤ 16) := by
  obtain ⟨j, hT, hquarter, hfirst⟩ := h.size hn hidle
  rcases j with _ | j
  · have hT : T = 64 := by rw [hT, pow_zero, Nat.mul_one, sideDefaultBuckets]
    subst hT
    have hlimit : sideSoftGrowLimit 64 = 12 := rfl
    rw [hlimit]
    omega
  · have hlarge : 128 ≤ T := by
      have := Nat.one_le_two_pow (n := j)
      rw [hT, pow_succ, sideDefaultBuckets]
      omega
    have hfirst := hfirst.resolve_left (Nat.succ_ne_zero j)
    refine iff_of_true ?_ (by omega)
    unfold sideSoftGrowLimit hardGrowLoad sideDefaultBuckets sideGrowMinRunway
    dsimp only
    rw [if_neg (by omega), if_neg (by omega)]
    split <;> omega

section Runs
variable [DecidableEq α]

/-- A section that comes while a migration is under way, and attaches nothing. -/
def Settling (s : SideIndex α β) (e : SideEvent α β) : Prop := s.migrationActive = true ∧ AttachFree e

/-- `AttachFree`, computed. -/
def attachFree : SideEvent α β → Bool
  | .prepare _ => false
  | .attach _ => false
  | .migrateSideBatch overrun => !overrun
  | _ => true

omit [DecidableEq α] in
theorem attachFree_iff {e : SideEvent α β} : attachFree e = true ↔ AttachFree e := by
  cases e <;> simp [attachFree, AttachFree]

instance (s : SideIndex α β) (e : SideEvent α β) : Decidable (Settling s e) :=
  decidable_of_iff (s.migrationActive = true ∧ attachFree e = true) (and_congr_right fun _ => attachFree_iff)

/-- A table that takes fewer entries than its soft limit needs no grow when a migration into it is over. -/
theorem Counted.no_grow (h : Counted s) (hload : s.load ≤ n) (hlimit : n < sideSoftGrowLimit T)
    (hb : s.primary.buckets = T) (hsettled : Reach (step H) Settling s s') (m : Nat) :
    s'.softResize ≠ some (m, .grow) := by
  have hinv : Counted s' ∧ s'.load ≤ n ∧ (s'.primary.buckets = T ∨ s'.primary.buckets = 0) := by
    refine hsettled.inv (I := fun t => Counted t ∧ t.load ≤ n ∧ (t.primary.buckets = T ∨ t.primary.buckets = 0))
      ⟨h, hload, .inl hb⟩ ?_
    rintro t t' e - ⟨hcounted, hload, hb⟩ ⟨hactive, hfree⟩ hst
    obtain ⟨r, hr, rfl⟩ := Option.map_eq_some_iff.mp hst
    have heases := (hcounted.act hr).2 hfree
    refine ⟨heases.counted, heases.load.trans hload, ?_⟩
    rcases heases.buckets hactive with heq | hzero
    · rwa [heq]
    · exact .inr hzero
  obtain ⟨-, hload', hb'⟩ := hinv
  intro hgrow
  unfold SideIndex.softResize at hgrow
  dsimp only at hgrow
  split_ifs at hgrow with hidle hrebuild hlow hmax
  · cases hgrow
  · rcases hb' with heq | hzero
    · rw [heq] at hlow
      unfold load at hload'
      omega
    · exact hidle (.inr hzero)

end Runs
end SideIndex

section
variable {α β : Type*} [DecidableEq α]

/-- What a low-water shrink of an index leaves: a side table below its soft limit, an object array of whole segments
below its runway, and no growth of either once the shrink is over. -/
structure Headroom (H : SideHash α) (s : SideIndex α β) (d : Directory) : Prop where
  side : ∀ T, s.Shrinks T → s.objects.length < sideSoftGrowLimit T
  settled : ∀ T, s.Shrinks T → Reach (step H) always SideIndex.new s → ∀ s' m,
    Reach (step H) Settling (s.publishShrink T).1 s' → s'.softResize ≠ some (m, .grow)
  objects : ∀ C, objectLowWaterTarget s.objects.length d.capobjects = C → C < d.capobjects →
    s.objects.length < C - objectGrowthRunway C ∧ ∃ k ≤ objectSegments, C = objectCapacityForSegments k
  detached : ∀ C, objectLowWaterTarget s.objects.length d.capobjects = C → C < d.capobjects →
    ∀ n ≤ s.objects.length, (d.detachSegments C).softGrowth n = none

/-- A shrink leaves headroom unless it puts 12 to 16 objects into the smallest side table. -/
theorem shrink_leaves_headroom (H : SideHash α) (s : SideIndex α β) (d : Directory) (hn : 1 ≤ s.objects.length)
    (hcap : d.capobjects ≤ objectCapacityForSegments objectSegments) :
    Headroom H s d ↔ ∀ T, s.Shrinks T → ¬(12 ≤ s.objects.length ∧ s.objects.length ≤ 16) := by
  have hn : s.objects.length ≠ 0 := by omega
  have hobjects : ∀ C, objectLowWaterTarget s.objects.length d.capobjects = C → C < d.capobjects →
      s.objects.length < C - objectGrowthRunway C ∧ ∃ k ≤ objectSegments, C = objectCapacityForSegments k := by
    rintro C rfl hlt
    obtain ⟨k, hk, htarget, htwice⟩ := Directory.lowWaterTarget_spec hn hcap hlt
    have hrunway := Directory.objectGrowthRunway_le (objectCapacityForSegments k)
    rw [htarget]
    exact ⟨by omega, k, hk, rfl⟩
  refine ⟨fun h T hT => (hT.shrunk.lt_limit hn hT.idle).mp (h.side T hT), fun h => ?_⟩
  have hside : ∀ T, s.Shrinks T → s.objects.length < sideSoftGrowLimit T :=
    fun T hT => (hT.shrunk.lt_limit hn hT.idle).mpr (h T hT)
  refine ⟨hside, fun T hT hreach s' m hsettled => ?_, hobjects, ?_⟩
  · have hcounted := reach_counted hreach
    have heases := hcounted.publishShrink (n := T)
    have hshrunk := hT.shrunk
    refine heases.counted.no_grow ?_ (hside T hT) (by rw [hshrunk.primary, SideTable.buckets_fresh]) hsettled m
    have hsum := hcounted.sum
    rw [load, hshrunk.primary, hshrunk.retiring]
    show 0 + 0 + s.primary.live ≤ s.objects.length
    omega
  · rintro C htarget hlt n hle
    have := (hobjects C htarget hlt).1
    exact Directory.softGrowth_eq_none (Nat.lt_of_le_of_lt hle this)

/-- Twelve attaches and a grow, as the soft limit of the smallest table has it. -/
def twelve : List (SideEvent Nat Unit) :=
  .publishForInsert 64 .grow :: (List.range 12).map (fun i => .attach ⟨i, ()⟩) ++
    [.publishSideDestination 128 .grow, .migrateSideBatch false]

/-- Two objects in 128 buckets. -/
def two : List (SideEvent Nat Unit) :=
  twelve ++ (List.range 10).map fun i => .invalidate i

theorem shrink_leaves_headroom_two : ∃ s, run (step plainHash) SideIndex.new two = some s ∧ s.Shrinks 64 ∧
    Headroom plainHash s ⟨List.replicate 32 true, 128⟩ := by
  have hrun : (run (step plainHash) SideIndex.new two).map (fun s =>
      (decide (s.Shrinks 64), s.objects.length)) = some (true, 2) := by decide +kernel
  obtain ⟨s, hs, heq⟩ := Option.map_eq_some_iff.mp hrun
  obtain ⟨hshrinks, htwo⟩ : s.Shrinks 64 ∧ s.objects.length = 2 := by simpa using heq
  refine ⟨s, hs, hshrinks, (shrink_leaves_headroom plainHash s _ (by omega) (by decide)).mpr fun T _ => ?_⟩
  omega

/-- A shrink to the smallest side table is followed by a grow to the size before. -/
theorem shrink_leaves_none : ¬∀ (H : SideHash Nat) (s : SideIndex Nat Unit) (d : Directory), 1 ≤ s.objects.length →
    d.capobjects ≤ objectCapacityForSegments objectSegments → Headroom H s d := by
  intro h
  have hrun : (run (step plainHash) SideIndex.new twelve).map (fun s => (decide (s.Shrinks 64), s.objects.length,
      ((run (guarded (step plainHash) Settling) (s.publishShrink 64).1 [.migrateSideBatch false]).map (·.softResize)))) =
      some (true, 12, some (some (128, .grow))) := by decide +kernel
  obtain ⟨s, hs, heq⟩ := Option.map_eq_some_iff.mp hrun
  obtain ⟨hshrinks, hlen, hgrow⟩ : s.Shrinks 64 ∧ s.objects.length = 12 ∧
      (run (guarded (step plainHash) Settling) (s.publishShrink 64).1 [.migrateSideBatch false]).map (·.softResize) =
        some (some (128, .grow)) := by
    simpa using heq
  obtain ⟨s', hs', hgrow⟩ := Option.map_eq_some_iff.mp hgrow
  exact (h plainHash s ⟨[], 0⟩ (by omega) (by decide)).settled 64 hshrinks (.of_run hs) s' 128 (.of_guarded hs') hgrow

end
end Cachetag
