import Cachetag.SideTable.Counts
import Cachetag.Volatile.Index

/-! What holds of the volatile index in every reachable state, also where a side table has become full: the counts of
the side tables, the segments, and chains whose nodes exist. -/

namespace Cachetag
open Chains SideIndex

namespace Registry
variable {r r' : Registry} {n : Nat}

/-- Every node in a chain has been published. -/
structure Wired (r : Registry) : Prop where
  nodes : ∀ old, ∀ n ∈ (r.table old).flatten, n < r.nodes.length
  cursor : r.migrateCursor ≤ r.oldBuckets.length

/-- What a migration has left to do. -/
def work (r : Registry) : Nat :=
  if r.migrationActive then r.oldBuckets.flatten.length + (r.oldBuckets.length - r.migrateCursor) + 1 else 0

theorem Wired.new : Wired .new := ⟨by intro old; cases old <;> simp [Registry.new, table], Nat.le_refl _⟩

theorem Wired.setRefs (h : Wired r) {k : Nat} : Wired (r.setRefs n k) := by
  refine ⟨fun old m hm => ?_, h.cursor⟩
  have := h.nodes old m (by cases old <;> exact hm)
  simpa [Registry.setRefs] using this

theorem Wired.endMigration (h : Wired r) : Wired r.endMigration := by
  refine ⟨fun old m hm => ?_, Nat.le_refl _⟩
  cases old with
  | false => exact h.nodes false m hm
  | true => cases hm

/-- A turn of the migration gets nearer to its end. -/
theorem Wired.migrateStep (h : Wired r) (hactive : r.migrationActive = true) :
    Wired r.migrateStep ∧ r.migrateStep.work < r.work := by
  unfold Registry.migrateStep
  split_ifs with hend
  · exact ⟨h.endMigration, by simp [work, Registry.endMigration, hactive]⟩
  · have hlt : r.migrateCursor < r.oldBuckets.length := Nat.lt_of_le_of_ne h.cursor hend
    cases hchain : chain r.oldBuckets r.migrateCursor with
    | nil =>
      refine ⟨⟨h.nodes, hlt⟩, ?_⟩
      simp only [work, hactive, if_true]
      omega
    | cons n l =>
      have hmem : n ∈ chain r.oldBuckets r.migrateCursor := by simp [hchain]
      have hn : n < r.nodes.length := h.nodes true n (mem_flatten_iff.mpr ⟨_, hmem⟩)
      simp only [List.getElem?_eq_getElem hn]
      refine ⟨⟨fun old m hm => ?_, by simpa using h.cursor⟩, ?_⟩
      · cases old with
        | false =>
          rcases mem_push hm with rfl | hm
          · exact hn
          · exact h.nodes false m hm
        | true => exact h.nodes true m (mem_unlink hm)
      · have hlen := (flatten_unlink hmem).length_eq
        simp only [work, hactive, if_true, length_unlink]
        simp only [List.length_cons] at hlen
        omega

theorem Wired.migrateLoop (h : Wired r) (steps : Nat) :
    Wired (migrateLoop steps r) ∧ (migrateLoop steps r).work ≤ r.work := by
  induction steps generalizing r with
  | zero => exact ⟨h, Nat.le_refl _⟩
  | succ steps ih =>
    unfold Registry.migrateLoop
    split_ifs with hactive
    · obtain ⟨hstep, hlt⟩ := h.migrateStep hactive
      obtain ⟨hloop, hle⟩ := ih hstep
      exact ⟨hloop, hle.trans hlt.le⟩
    · exact ⟨h, Nat.le_refl _⟩

theorem Wired.migrate (h : Wired r) (steps : Nat) : Wired (r.migrate steps) ∧ (r.migrate steps).work ≤ r.work := by
  obtain ⟨hloop, hle⟩ := h.migrateLoop steps
  unfold Registry.migrate
  dsimp only
  split_ifs
  · exact ⟨hloop.endMigration, Nat.zero_le _⟩
  · exact ⟨hloop, hle⟩

/-- Steps that are taken bring an active migration nearer to its end. -/
theorem Wired.work_migrate (h : Wired r) (hactive : r.migrationActive = true) (steps : Nat) :
    (r.migrate (steps + 1)).work < r.work := by
  obtain ⟨hstep, hlt⟩ := h.migrateStep hactive
  obtain ⟨-, hle⟩ := hstep.migrateLoop steps
  unfold Registry.migrate
  dsimp only
  rw [show Registry.migrateLoop (steps + 1) r = Registry.migrateLoop steps r.migrateStep by
    rw [Registry.migrateLoop, if_pos hactive]]
  split_ifs
  · simp [work, Registry.endMigration, hactive]
  · exact Nat.lt_of_le_of_lt hle hlt

theorem Wired.lookup (h : Wired r) (folds : List Nat) (hash : Nat) : Wired (r.lookup folds hash).2 := by
  unfold Registry.lookup
  split
  · exact h
  · rename_i n hn
    have hrefs := h.setRefs (n := n) (k := r.refsOf n + 1)
    exact ⟨hrefs.nodes, hrefs.cursor⟩

theorem Wired.publish (h : Wired r) (candidate : InternedSet) : Wired (r.publish candidate).2 := by
  refine ⟨fun old m hm => ?_, h.cursor⟩
  have hlen : (r.publish candidate).2.nodes.length = r.nodes.length + 1 := by simp [Registry.publish]
  rw [hlen]
  cases old with
  | false =>
    rcases mem_push hm with rfl | hm
    · exact Nat.lt_succ_self _
    · exact Nat.lt_succ_of_lt (h.nodes false m hm)
  | true => exact Nat.lt_succ_of_lt (h.nodes true m hm)

theorem Wired.publishTable (h : Wired r) {nbuckets generation : Nat}
    (hp : r.publishTable nbuckets generation = some r') : Wired r' := by
  have hfresh : ∀ m, m ∉ (List.replicate nbuckets ([] : List Nat)).flatten := by simp
  unfold Registry.publishTable at hp
  split_ifs at hp <;> cases hp
  · refine ⟨fun old m hm => ?_, h.cursor⟩
    cases old with
    | false => exact absurd hm (hfresh m)
    | true => exact h.nodes true m hm
  · refine ⟨fun old m hm => ?_, Nat.zero_le _⟩
    cases old with
    | false => exact absurd hm (hfresh m)
    | true => exact h.nodes false m hm

theorem Wired.discard (h : Wired r) {set : InternedSet} : Wired (r.discard n set) := by
  unfold Registry.discard
  by_cases hin : n ∈ chain r.buckets (internBucketFor r.buckets.length set.hash)
  · simp only [if_pos hin]
    refine ⟨fun old m hm => ?_, h.cursor⟩
    cases old with
    | false => exact h.nodes false m (mem_unlink hm)
    | true => exact h.nodes true m hm
  · simp only [if_neg hin]
    refine ⟨fun old m hm => ?_, by simpa using h.cursor⟩
    cases old with
    | false => exact h.nodes false m hm
    | true => exact h.nodes true m (mem_unlink hm)

theorem Wired.release (h : Wired r) (n : Nat) : Wired (r.release n) := by
  unfold Registry.release
  split
  · exact h
  · rename_i set hset
    have hset := h.setRefs (n := n) (k := set.refs - 1)
    have hrefs : Wired { r.setRefs n (set.refs - 1) with refs := r.refs - 1 } := ⟨hset.nodes, hset.cursor⟩
    dsimp only
    split_ifs
    · exact hrefs
    · exact hrefs.discard

theorem Wired.detachAll : Wired r.detachAll := ⟨by intro old; cases old <;> simp [Registry.detachAll, table], Nat.le_refl _⟩

end Registry

/-! ### The dense array -/

namespace SideIndex
variable {α β : Type*} {H : SideHash α} {s s' : SideIndex α β}

theorem objects_rollbackShrink (h : s.rollbackShrink = some s') : s'.objects = s.objects := by
  obtain ⟨-, -, -, rfl⟩ := rollbackShrink_eq h
  rfl

theorem objects_prepareInsert : s.prepareInsert.1.objects = s.objects := by
  unfold prepareInsert
  dsimp only
  split_ifs <;> try rfl
  split
  · exact objects_rollbackShrink ‹_›
  · rfl

variable [DecidableEq α]

theorem objects_migrateBucket : (s.migrateBucket H).1.objects = s.objects := by
  unfold migrateBucket
  split
  · split
    · rfl
    · split <;> rfl
  · rfl

theorem objects_migrateLoop : (migrateLoop H n s).1.objects = s.objects := by
  induction n generalizing s with
  | zero => rfl
  | succ n ih =>
    have hbucket := objects_migrateBucket (H := H) (s := s)
    rcases hm : s.migrateBucket H with ⟨t, _ | r⟩ <;> rw [hm] at hbucket <;> simp only [migrateLoop, hm]
    · split_ifs
      · exact ih.trans hbucket
      · rfl
    · split_ifs
      · exact hbucket
      · rfl

theorem objects_migrateSome : (s.migrateSome H n).1.objects = s.objects := by
  have hloop := objects_migrateLoop (H := H) (s := s) (n := n)
  rcases hm : migrateLoop H n s with ⟨t, _ | r⟩ <;> rw [hm] at hloop <;> simp only [migrateSome, hm] <;>
    split_ifs <;> first | rfl | exact hloop

theorem objects_migrateSideBatch {overrun : Bool} : (s.migrateSideBatch H overrun).1.objects = s.objects := by
  rcases migrateSideBatch_cases H s overrun with ⟨-, hsame⟩ | ⟨-, s', t, hfrom, hstep⟩
  · rw [hsame]
  · have hs' : s'.objects = s.objects := by
      rcases hfrom with rfl | ⟨-, hr⟩
      · rfl
      · exact objects_rollbackShrink hr
    have hsome := objects_migrateSome (H := H) (s := s') (n := resizeSideBatchBuckets)
    rcases hstep with ⟨hm, hbatch⟩ | ⟨e, hm, hbatch⟩ <;> rw [hm] at hsome <;> rw [hbatch] <;> exact hsome.trans hs'

end SideIndex

/-! ### Every section -/

namespace Index
variable {α : Type*} {cfg : Config α} {s s' : Index α} {i : Nat} {c : AttachCall α} {side : SideIndex α ObjVal}
  {r : Registry} {d : Directory}

/-- The invariant of every run. -/
structure Footing (s : Index α) : Prop where
  counted : Counted s.side
  directory : ∃ k, s.directory.Holds s.side.objects.length k
  wired : s.registry.Wired

theorem Footing.new : Footing (Index.new : Index α) := ⟨.new, ⟨0, .new⟩, .new⟩

theorem Footing.resize (h : Footing s) (hcounted : Counted side)
    (hlen : side.objects.length ≤ s.side.objects.length) : Footing { s with side } := by
  obtain ⟨k, hk⟩ := h.directory
  exact ⟨hcounted, ⟨k, hk.fewer hlen⟩, h.wired⟩

theorem Footing.settle (h : Footing s) (hr : r.Wired) : Footing { s with registry := r } :=
  ⟨h.counted, h.directory, hr⟩

theorem Footing.direct (h : Footing s) (hd : ∃ k, d.Holds s.side.objects.length k) : Footing { s with directory := d } :=
  ⟨h.counted, hd, h.wired⟩

theorem Footing.stop (h : Footing s) {point : AttachPoint} : Footing (s.stop i c point) :=
  ⟨h.counted, h.directory, h.wired⟩

section Sections
variable [DecidableEq α]

theorem Footing.attachAppend (h : Footing s) (hroom : s.side.objects.length ≠ s.directory.capobjects)
    {membership : Membership} : Footing (attachAppend cfg s i c membership) := by
  obtain ⟨k, hk⟩ := h.directory
  have happ := @Counted.append _ _ cfg.sideHash s.side ⟨c.oc, ⟨c.regSeq, objcountCode c.folds.length, membership, i⟩⟩ _
    h.counted
  unfold Index.attachAppend
  unfold SideIndex.append at happ ⊢
  dsimp only at happ ⊢
  cases hins : s.side.primary.insert cfg.sideHash s.side.ocs c.oc s.side.objects.length with
  | error e =>
    cases membership with
    | set n => exact ⟨h.counted, h.directory, h.wired.release n⟩
    | inlineOne fold => exact h.stop
    | vector v => exact h.stop
  | ok t =>
    rw [hins] at happ
    have hlt : s.side.objects.length < s.directory.capobjects := Nat.lt_of_le_of_ne hk.room hroom
    refine ⟨happ, ⟨k, hk.few, hk.segments, hk.capobjects, ?_⟩, h.wired⟩
    simpa [Index.stop] using hlt

theorem Footing.attachLookup (h : Footing s) (hroom : s.side.objects.length ≠ s.directory.capobjects) :
    Footing (attachLookup cfg s i c) := by
  have hl := h.wired.lookup c.folds (cfg.internHash c.folds)
  unfold Index.attachLookup
  rcases hlook : s.registry.lookup c.folds (cfg.internHash c.folds) with ⟨_ | n, r⟩ <;> rw [hlook] at hl
  · dsimp only at hl ⊢
    split
    · exact (h.settle hl).stop
    · split_ifs
      · exact (h.settle hl).stop
      · split
        · exact (h.settle hl).stop
        · exact (h.settle (hl.publish _)).attachAppend hroom
  · exact (h.settle hl).attachAppend hroom

theorem Footing.attachAgain (h : Footing s) : Footing (attachAgain cfg s i c) := by
  unfold Index.attachAgain
  by_cases hret : s.retired = true
  · simpa [hret] using h.stop
  by_cases hmax : sideMaxObjects ≤ s.side.objects.length
  · simpa [hret, hmax] using h.stop
  rw [if_neg hret, if_neg hmax]
  split
  · exact h.stop
  · exact h.stop
  · by_cases hcap : s.side.objects.length = s.directory.capobjects
    · rw [if_pos hcap]
      split_ifs <;> exact h.stop
    · rw [if_neg hcap]
      have hobj := objects_prepareInsert (s := s.side)
      have hp := h.counted.prepareInsert
      rcases hprep : s.side.prepareInsert with ⟨side, p⟩
      rw [hprep] at hobj hp
      have hres := h.resize hp (by rw [hobj])
      have hroom : side.objects.length ≠ s.directory.capobjects := by rw [hobj]; exact hcap
      cases p with
      | again buckets reason => exact hres.stop
      | busy => exact hres.stop
      | overflow => exact hres.stop
      | ready =>
        dsimp only
        split_ifs
        · unfold Index.attachIntern
          split_ifs
          · obtain ⟨hm, -⟩ := h.wired.migrate internMigrateSteps
            exact (hres.settle hm).attachLookup hroom
          · exact hres.attachLookup hroom
        · unfold Index.attachPlain
          split
          · exact hres.attachAppend hroom
          · split
            · exact hres
            · exact hres.attachAppend hroom

theorem Footing.attachSection (h : Footing s) {ok : Bool} (hs : attachSection cfg s i c ok = some s') : Footing s' := by
  unfold Index.attachSection at hs
  split at hs <;> cases hs
  · exact h.attachAgain
  · split_ifs
    · obtain ⟨k, hk⟩ := h.directory
      exact (h.direct (hk.publishSegment _)).stop
    · exact h.stop
  · exact h.stop
  · split_ifs
    · exact (h.resize h.counted.publishForInsert.counted h.counted.publishForInsert.length).stop
    · exact h.stop
  · split_ifs
    · cases hp : s.registry.publishTable _ _ with
      | none => exact h.stop
      | some r => exact (h.settle (h.wired.publishTable hp)).stop
    · exact h.stop
    · exact h.stop
  · split_ifs <;> exact h.stop

theorem Footing.removeObject (h : Footing s) (cfg : Config α) (slot : Nat) {settle : Registry → Registry}
    (hsettle : ∀ {r : Registry}, r.Wired → (settle r).Wired) : Footing (removeObject cfg s slot settle).1 := by
  have hrem := h.counted.remove (H := cfg.sideHash) slot
  unfold Index.removeObject
  split
  · exact h
  · rcases hr : s.side.remove cfg.sideHash slot with ⟨side, _ | e⟩ <;> rw [hr] at hrem <;>
      have hres := h.resize hrem.counted hrem.length
    · refine ⟨hres.counted, hres.directory, ?_⟩
      dsimp only
      unfold releaseHeld
      split
      · exact (hsettle h.wired).release _
      · exact hsettle h.wired
    · exact hres

theorem Footing.killLoop (h : Footing s) (n : Nat) : Footing (killLoop cfg n s) := by
  induction n generalizing s with
  | zero => exact h
  | succ n ih =>
    have hrem := @removeObject _ _ _ h cfg (s.side.objects.length - 1) id id
    unfold Index.killLoop
    split <;> rename_i heq <;> rw [heq] at hrem
    · exact ih hrem
    · exact hrem

omit [DecidableEq α] in
theorem Footing.swept (h : Footing s) {active : Bool} {remaining : Nat} :
    Footing { s with side := { s.side with sweepActive := active, sweepRemaining := remaining } } :=
  h.resize h.counted.sweptTo.counted (Nat.le_refl _)

omit [DecidableEq α] in
theorem Footing.applyLowWater (h : Footing s) : Footing s.applyLowWater := by
  obtain ⟨k, hk⟩ := h.directory
  unfold Index.applyLowWater
  split_ifs with hempty hlow
  · refine ⟨(eases_detachAll hempty.1).counted, ⟨0, ?_⟩, h.wired⟩
    exact hk.detachSegments (j := 0) (Nat.zero_le k) (by simp [SideIndex.detachAll, SideIndex.endMigration, hempty.1])
  · exact h.direct (hk.lowWater hlow)
  · exact h

/-- Every section keeps the invariant. -/
theorem Footing.step (h : Footing s) {e : IndexEvent α} (hs : step cfg s e = some s') : Footing s' := by
  cases e with
  | begin oc given regSeq allocated =>
    cases hs
    exact ⟨h.counted, h.directory, h.wired⟩
  -- A section of an attach does to the index what its point says.
  | attach i ok =>
    simp only [Index.step] at hs
    split at hs
    · cases hs
    · exact h.attachSection hs
  | invalidate oc =>
    cases hs
    show Footing (s.invalidate cfg oc)
    unfold Index.invalidate
    split
    · exact h
    · exact h
    · split
      · exact h
      · split_ifs
        · exact h
        · exact h.removeObject cfg _ fun hr => (hr.migrate _).1
        · exact h.removeObject cfg _ id
  | sweepStart =>
    simp only [Index.step] at hs
    split at hs <;> cases hs
    exact h.swept
  | sweepProbe verdict =>
    simp only [Index.step] at hs
    split at hs <;> cases hs
    unfold Index.sweepProbe
    dsimp only
    split
    · exact h
    -- A broken table makes the removal fail, and the sweep ends with that.
    · have hrem := @removeObject _ _ _ h cfg (s.side.sweepRemaining - 1) id id
      split_ifs
      · split <;> rename_i heq <;> rw [heq] at hrem
        · exact hrem
        · exact hrem.swept
      · exact @Footing.swept _ _ h s.side.sweepActive _
  | sweepEnd =>
    simp only [Index.step] at hs
    split at hs <;> cases hs
    exact h.swept
  | sweepAbort =>
    simp only [Index.step] at hs
    split at hs <;> cases hs
    exact h.swept
  | killAll =>
    cases hs
    exact h.killLoop _
  | retire =>
    cases hs
    have hmark : Footing { s with retired := true } := ⟨h.counted, h.directory, h.wired⟩
    exact hmark.killLoop _
  | detachAll =>
    simp only [Index.step] at hs
    split at hs <;> cases hs
    -- No object is left, so the directory may lose every segment.
    obtain ⟨k, hk⟩ := h.directory
    have hempty : ({ s.side with objects := [] } : SideIndex α ObjVal).objects.length = 0 := rfl
    refine ⟨(eases_detachAll hempty).counted, ⟨0, hk.detachSegments (j := 0) (Nat.zero_le k) (Nat.le_refl 0)⟩, ?_⟩
    unfold Index.detachAll
    dsimp only
    split_ifs
    · exact .detachAll
    · exact h.wired
  | migrateIntern =>
    simp only [Index.step] at hs
    cases hs
    split_ifs
    · exact h.settle (h.wired.migrate _).1
    · exact h
  | migrateSideBatch overrun =>
    cases hs
    exact h.resize (h.counted.migrateSideBatch overrun).1 (by rw [objects_migrateSideBatch])
  | publishObjectSegment oldCapacity =>
    cases hs
    obtain ⟨k, hk⟩ := h.directory
    exact h.direct (hk.publishSegment oldCapacity)
  | lowWater =>
    simp only [Index.step] at hs
    cases hs
    split_ifs
    · exact h.applyLowWater
    · exact h
  | publishShrink n =>
    cases hs
    exact h.resize h.counted.publishShrink.counted h.counted.publishShrink.length
  | publishSideDestination n reason =>
    cases hs
    exact h.resize h.counted.publishSideDestination.counted h.counted.publishSideDestination.length

theorem reach_footing (h : Machine.Reach (Index.step cfg) Machine.always Index.new s) : Footing s :=
  h.inv .new fun _ hf _ hst => hf.step hst

end Sections
end Index
end Cachetag
