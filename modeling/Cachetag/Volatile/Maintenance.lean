import Cachetag.Volatile.Sections

/-! `cachetag_resize_maintenance` of `src/vmod_cachetag_index.c`, critical section by critical section, and the
low-water fields that it works with.

A call goes from stage to stage. At each it takes the locks once, and may read the clock or allocate first; what the
clock says, and whether the allocation comes off, are parameters. -/

namespace Cachetag
open SideIndex

/-- `TAG_RESIZE_LOW_WATER_OBSERVE_USEC` -/
def resizeLowWaterObserveUsec : UInt64 := 5000000

/-- `TAG_RESIZE_LOW_WATER_REARM_USEC` -/
def resizeLowWaterRearmUsec : UInt64 := 100000

/-- `TAG_RESIZE_LOW_WATER_GROW_TOLERANCE_DIVISOR` -/
def resizeLowWaterGrowToleranceDivisor : Nat := 8

/-- `cachetag_elapsed_usec` -/
def elapsedUsec (start «end» : UInt64) : UInt64 := if start = 0 ∨ «end» ≤ start then 0 else «end» - start

/-- The fields `resize_low_water_*` of `struct cachetag_index`. -/
structure LowWater where
  active : Bool
  startUsec : UInt64
  live : Nat
  force : Bool
  rearmAtUsec : UInt64
deriving DecidableEq, Repr

namespace SideIndex
variable {α β : Type*} {s t : SideIndex α β} {n : Nat} {reason : SideReason} {e : SideErr}

/-- A publication that comes off. -/
structure Published (s t : SideIndex α β) (buckets : Nat) (reason : SideReason) : Prop where
  primary : t.primary = .fresh buckets
  retiring : t.retiring = s.primary ∨ t.retiring = .null
  migration : t.migrationReason = reason ∨ t.migrationActive = false
  objects : t.objects = s.objects
  larger : reason = .shrink → buckets < s.primary.buckets

theorem published (h : autoIfPublished (s.publishAllocated n reason) = (t, none)) : Published s t n reason := by
  unfold publishAllocated at h
  split_ifs at h with hactive hgrow hrebuild hshrink
  · cases h
  · cases h
  · cases h
  · cases h
  · have hlarger : reason = .shrink → n < s.primary.buckets := by
      intro hreason
      simpa [hreason] using hshrink
    unfold publishMigration at h
    split_ifs at h with hbad hprim
    · cases h
    · cases h
      exact ⟨rfl, .inl rfl, .inl rfl, rfl, hlarger⟩
    · cases h
      exact ⟨rfl, .inr rfl, .inr rfl, rfl, hlarger⟩

end SideIndex

namespace LowWater

/-- The fields of an index fresh from `cachetag_index_new`. -/
def new : LowWater := ⟨false, 0, 0, false, 0⟩

/-- `cachetag_low_water_overrun_locked` -/
def overrun (w : LowWater) (nobjects : Nat) : Bool :=
  if !w.active then false
  else if w.live = 0 then decide (nobjects ≠ 0)
  else
    let tolerance := w.live / resizeLowWaterGrowToleranceDivisor
    decide (w.live + (if tolerance = 0 then 1 else tolerance) < nobjects)

/-- `cachetag_low_water_cancel_locked` -/
def cancel (w : LowWater) : LowWater := ⟨false, 0, 0, false, w.rearmAtUsec⟩

/-- `cachetag_low_water_start_locked` -/
def start (now : UInt64) (nobjects : Nat) : LowWater := ⟨true, now, nobjects, false, 0⟩

/-- `cachetag_low_water_rearm_locked` -/
def rearm (w : LowWater) (now : UInt64) : LowWater := { w with rearmAtUsec := now + resizeLowWaterRearmUsec }

end LowWater

/-- An index with its low-water fields. -/
structure Maintained (α : Type*) where
  index : Index α
  lowWater : LowWater

/-- Where a call of `cachetag_resize_maintenance` is: before the section of one of its functions, in the middle of
    one that allocates, or at its end. -/
inductive MaintStage where
  | promote
  | intern
  | side
  | object
  | segment (oldCapacity : Nat)
  | lowWater
  | shrink (buckets currentBuckets : Nat)
  | destination
  | publish (buckets : Nat) (reason : SideReason)
  | done (did : Bool)
deriving DecidableEq, Repr

namespace MaintStage

/-- The sections that may still come. -/
def left : MaintStage → Nat
  | .promote => 9
  | .intern => 8
  | .side => 7
  | .object => 6
  | .segment _ => 5
  | .lowWater => 4
  | .shrink _ _ => 3
  | .destination => 2
  | .publish _ _ => 1
  | .done _ => 0

/-- What a call returns, once it is at its end. -/
def did : MaintStage → Bool
  | .done did => did
  | _ => false

end MaintStage

namespace Maintained
variable {α : Type*}

/-- `idx->nobjects` -/
def nobjects (m : Maintained α) : Nat := m.index.side.objects.length

def overrun (m : Maintained α) : Bool := m.lowWater.overrun m.nobjects

/-- Whether nothing is recorded and something can be freed. -/
def Empty (m : Maintained α) : Prop :=
  m.nobjects = 0 ∧ (m.index.directory.capobjects ≠ 0 ∨ m.index.side.primary.buckets + m.index.side.retiring.buckets ≠ 0)

instance (m : Maintained α) : Decidable m.Empty := inferInstanceAs (Decidable (_ ∧ _))

/-- `cachetag_object_low_water_target_locked` -/
def objectTarget (m : Maintained α) : Nat := objectLowWaterTarget m.nobjects m.index.directory.capobjects

/-- `cachetag_low_water_ready_locked`: the fields it leaves, and what it reports. -/
def lowWaterReady (m : Maintained α) (now : UInt64) : LowWater × Bool :=
  let w := m.lowWater
  if !w.active then (w, false)
  else if m.overrun then (w.cancel.rearm now, false)
  else if (m.index.directory.softGrowth m.nobjects).isSome then (w.cancel, false)
  else if ¬m.index.side.LowWaterReady then (w.cancel, false)
  else if !w.force ∧ elapsedUsec w.startUsec now < resizeLowWaterObserveUsec then (w, false)
  else if m.Empty ∨ m.objectTarget < m.index.directory.capobjects ∨
      (!m.index.side.migrationActive ∧ m.index.side.lowWaterTarget < m.index.side.primary.buckets) then (w, true)
  else (w.cancel, false)

/-- `cachetag_low_water_promote_rearm` -/
def promoteRearm (m : Maintained α) (now : UInt64) : Maintained α :=
  if !m.lowWater.active ∧ m.lowWater.rearmAtUsec ≠ 0 ∧ m.lowWater.rearmAtUsec ≤ now then
    { m with lowWater := .start now m.nobjects }
  else m

/-- `cachetag_resize_migrate_intern_batch` -/
def migrateInternBatch (m : Maintained α) : Maintained α × Bool :=
  if m.index.registry.migrationActive then
    ({ m with index := { m.index with registry := m.index.registry.migrate resizeInternBatchSteps } }, true)
  else (m, false)

/-- `cachetag_resize_migrate_side_batch`. A batch that succeeds either goes on or leaves a table to be freed. -/
def migrateSideBatch [DecidableEq α] (cfg : Config α) (m : Maintained α) : Maintained α × Bool :=
  let (side, r) := m.index.side.migrateSideBatch cfg.sideHash m.overrun
  ({ m with index := { m.index with side } },
    m.index.side.migrationActive && m.index.side.migrationAuto && r.isNone)

/-- The first section of `cachetag_resize_apply_low_water`. -/
def applyLowWater (m : Maintained α) (now : UInt64) : Maintained α × MaintStage :=
  let (w, ready) := m.lowWaterReady now
  if !ready then ({ m with lowWater := w }, .destination)
  else if m.Empty then (⟨m.index.applyLowWater, w.cancel⟩, .done true)
  else if m.objectTarget < m.index.directory.capobjects then (⟨m.index.applyLowWater, w⟩, .done true)
  else if m.index.side.primary.buckets ≤ m.index.side.lowWaterTarget then
    ({ m with lowWater := w.cancel }, .destination)
  else ({ m with lowWater := w }, .shrink m.index.side.lowWaterTarget m.index.side.primary.buckets)

/-- Its second section. -/
def publishShrink (m : Maintained α) (buckets currentBuckets : Nat) (now : UInt64) : Maintained α × MaintStage :=
  let (w, ready) := m.lowWaterReady now
  if ready ∧ !m.index.side.migrationActive ∧ m.index.side.lowWaterTarget = buckets ∧
      m.index.side.primary.buckets = currentBuckets then
    match autoIfPublished (m.index.side.publishAllocated buckets .shrink) with
    | (side, none) => (⟨{ m.index with side }, w⟩, .done true)
    | (_, some _) => ({ m with lowWater := w }, .destination)
  else ({ m with lowWater := w }, .destination)

/-- The second section of `cachetag_resize_publish_side_destination`. -/
def publishDestination (m : Maintained α) (buckets : Nat) (reason : SideReason) : Maintained α × Bool :=
  if m.index.side.softResize = some (buckets, reason) then
    match autoIfPublished (m.index.side.publishAllocated buckets reason) with
    | (side, none) => ({ m with index := { m.index with side } }, true)
    | (_, some _) => (m, false)
  else (m, false)

/-- The next critical section of a call. -/
def advance [DecidableEq α] (cfg : Config α) (m : Maintained α) (now : UInt64) (ok : Bool) :
    MaintStage → Maintained α × MaintStage
  | .promote => (m.promoteRearm now, if cfg.interned then .intern else .side)
  | .intern =>
    match m.migrateInternBatch with
    | (m', true) => (m', .done true)
    | (m', false) => (m', .side)
  | .side =>
    match m.migrateSideBatch cfg with
    | (m', true) => (m', .done true)
    | (m', false) => (m', .object)
  | .object =>
    match m.index.directory.softGrowth m.nobjects with
    | some g => (m, .segment g.oldCapacity)
    | none => (m, .lowWater)
  | .segment oldCapacity =>
    let d := m.index.directory
    if ok ∧ d.capobjects = oldCapacity ∧ d.segments[objectSegmentCountForCapacity oldCapacity]? = some false then
      ({ m with index := { m.index with directory := d.publishSegment oldCapacity } }, .done true)
    else (m, .lowWater)
  | .lowWater => m.applyLowWater now
  | .shrink buckets currentBuckets =>
    if ok then m.publishShrink buckets currentBuckets now
    else ({ m with lowWater := m.lowWater.cancel }, .destination)
  | .destination =>
    match m.index.side.softResize with
    | some (buckets, reason) => (m, .publish buckets reason)
    | none => (m, .done false)
  | .publish buckets reason =>
    if ok then
      match m.publishDestination buckets reason with
      | (m', did) => (m', .done did)
    else (m, .done false)
  | .done did => (m, .done did)

/-! ### Calls -/

section Calls
variable {m : Maintained α} {now : UInt64} {b n : Nat} {st : MaintStage}

theorem left_applyLowWater : (m.applyLowWater now).2.left < 4 := by
  rcases hr : m.lowWaterReady now with ⟨w, ready⟩
  simp only [applyLowWater, hr]
  split_ifs <;> simp [MaintStage.left]

theorem left_publishShrink : (m.publishShrink b n now).2.left < 3 := by
  rcases hr : m.lowWaterReady now with ⟨w, ready⟩
  rcases hp : autoIfPublished (m.index.side.publishAllocated b .shrink) with ⟨side, _ | r⟩ <;>
    simp only [publishShrink, hr, hp] <;> split_ifs <;> simp [MaintStage.left]

/-- A call does not go back. -/
theorem left_advance [DecidableEq α] (cfg : Config α) (m : Maintained α) (now : UInt64) (ok : Bool) (h : st.left ≠ 0) :
    (m.advance cfg now ok st).2.left < st.left := by
  cases st with
  | lowWater => exact left_applyLowWater
  | shrink b n =>
    simp only [advance]
    split_ifs
    · exact left_publishShrink
    · simp [MaintStage.left]
  | done did => exact absurd rfl h
  | _ =>
    simp only [advance]
    split <;> simp [MaintStage.left]

end Calls

/-- The clock readings and the allocations of one call. -/
structure Env where
  now : MaintStage → UInt64
  ok : MaintStage → Bool

/-- The rest of a call. -/
def finish [DecidableEq α] (cfg : Config α) (env : Env) (m : Maintained α) (st : MaintStage) : Maintained α × Bool :=
  if h : st.left = 0 then (m, st.did)
  else
    have := left_advance cfg m (env.now st) (env.ok st) h
    let r := m.advance cfg (env.now st) (env.ok st) st
    finish cfg env r.1 r.2
termination_by st.left

/-- `cachetag_resize_maintenance`, with no other section in between. -/
def resizeMaintenance [DecidableEq α] (cfg : Config α) (env : Env) (m : Maintained α) : Maintained α × Bool :=
  finish cfg env m .promote

/-! ### Sections of the index -/

section Sections
variable {m m' : Maintained α} {now : UInt64} {w : LowWater} {b n : Nat} {reason : SideReason} {st : MaintStage}

/-- What is known where `cachetag_low_water_ready_locked` reports 1. -/
structure Ready (m : Maintained α) (w : LowWater) : Prop where
  fields : w = m.lowWater
  active : m.lowWater.active = true
  overrun : m.overrun = false
  objects : m.index.directory.softGrowth m.nobjects = none
  side : m.index.side.LowWaterReady

theorem ready_of (h : m.lowWaterReady now = (w, true)) : Ready m w := by
  unfold lowWaterReady at h
  dsimp only at h
  split_ifs at h with hactive hover hgrowth hready <;> cases h
  exact ⟨rfl, by simpa using hactive, by simpa using hover, by simpa using hgrowth, hready⟩

/-- Every section of a call is one of the index, or leaves it as it is. -/
theorem advance_index [DecidableEq α] (cfg : Config α) (m : Maintained α) (now : UInt64) (ok : Bool) (st : MaintStage) :
    (m.advance cfg now ok st).1.index = m.index ∨
      ∃ e, Index.step cfg m.index e = some (m.advance cfg now ok st).1.index := by
  cases st with
  | promote =>
    simp only [advance, promoteRearm]
    split_ifs <;> exact .inl rfl
  | intern =>
    by_cases hactive : m.index.registry.migrationActive = true
    · refine .inr ⟨.migrateIntern, ?_⟩
      simp [advance, migrateInternBatch, Index.step, hactive]
    · exact .inl (by simp [advance, migrateInternBatch, hactive])
  | side =>
    refine .inr ⟨.migrateSideBatch m.overrun, ?_⟩
    simp only [advance, migrateSideBatch, Index.step]
    split <;> rename_i heq <;> obtain ⟨rfl, -⟩ := Prod.mk.inj heq <;> rfl
  | object =>
    simp only [advance]
    split <;> exact .inl rfl
  | segment oldCapacity =>
    simp only [advance]
    split_ifs
    · exact .inr ⟨.publishObjectSegment oldCapacity, rfl⟩
    · exact .inl rfl
  -- Where it is ready, the section drops everything or trims the directory, or leaves the index alone.
  | lowWater =>
    rcases hr : m.lowWaterReady now with ⟨w, _ | _⟩ <;> simp only [advance, applyLowWater, hr]
    · exact .inl rfl
    · have hlow : Index.step cfg m.index .lowWater = some m.index.applyLowWater := by
        simp [Index.step, (ready_of hr).side]
      simp only [Bool.not_true, Bool.false_eq_true, if_false]
      split_ifs
      · exact .inr ⟨.lowWater, hlow⟩
      · exact .inr ⟨.lowWater, hlow⟩
      · exact .inl rfl
      · exact .inl rfl
  -- The destination was allocated outside the lock, so that all is checked again before it is published.
  | shrink b n =>
    simp only [advance]
    split_ifs
    · rcases hr : m.lowWaterReady now with ⟨w, ready⟩
      simp only [publishShrink, hr]
      split_ifs with hc
      · rcases hp : autoIfPublished (m.index.side.publishAllocated b .shrink) with ⟨side, _ | e⟩
        · obtain ⟨rfl, hidle, htarget, -⟩ := hc
          refine .inr ⟨.publishShrink b, ?_⟩
          have hlt := (published hp).larger rfl
          simp only [Index.step, SideIndex.publishShrink]
          rw [if_pos ⟨(ready_of hr).side, hidle, htarget, hlt⟩, hp]
        · exact .inl rfl
      · exact .inl rfl
    · exact .inl rfl
  | destination =>
    simp only [advance]
    split <;> exact .inl rfl
  | publish b reason =>
    simp only [advance]
    split_ifs
    · simp only [publishDestination]
      split_ifs with hc
      · rcases hp : autoIfPublished (m.index.side.publishAllocated b reason) with ⟨side, _ | e⟩
        · refine .inr ⟨.publishSideDestination b reason, ?_⟩
          simp only [Index.step, SideIndex.publishSideDestination]
          rw [if_pos hc, hp]
        · exact .inl rfl
      · exact .inl rfl
    · exact .inl rfl
  | done did => exact .inl rfl

end Sections
end Maintained
end Cachetag
