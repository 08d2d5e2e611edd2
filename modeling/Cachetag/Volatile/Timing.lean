import Cachetag.Volatile.Drain
import Cachetag.Volatile.Workers

/-! Whether an attach can fail because of when the resize worker runs.

An attach that finds the primary table full in mid-migration gives up the lock and calls the maintenance itself, which
reports 0 where it finds nothing to do. The attach takes that for a failure. But the worker may have done everything
in between. -/

namespace Cachetag

/-! ### Sizes -/

namespace SideIndex
variable {α β : Type*} {H : SideHash α} {s t : SideIndex α β} {b n : Nat} {reason : SideReason} {ent : ObjEnt α β}

/-- What no side table outgrows with fewer than the maximum number of objects. -/
def bucketLimit : Nat := 2 ^ 36

structure Limited (s : SideIndex α β) : Prop where
  primary : s.primary.buckets ≤ bucketLimit
  retiring : s.retiring.buckets ≤ bucketLimit

theorem Limited.new : Limited (SideIndex.new : SideIndex α β) := ⟨Nat.zero_le _, Nat.zero_le _⟩

/-- A resize that the load asks for stays below the limit. -/
theorem softResize_le (h : s.softResize = some (b, reason)) (hs : Limited s) (hlive : s.primary.live < sideMaxObjects) :
    b ≤ bucketLimit := by
  have hprim := hs.primary
  unfold softResize at h
  dsimp only at h
  split_ifs at h with hidle hrebuild hlow hmax <;> cases h
  · exact hprim
  · unfold sideSoftGrowLimit hardGrowLoad sideGrowMinRunway sideDefaultBuckets at hlow
    unfold hardGrowLoad at hrebuild
    unfold sideMaxObjects at hlive
    unfold bucketLimit
    dsimp only at hlow
    split_ifs at hlow <;> omega

theorem Limited.rollbackShrink (h : Limited s) (hr : s.rollbackShrink = some t) : Limited t := by
  obtain ⟨-, -, -, rfl⟩ := rollbackShrink_eq hr
  exact ⟨h.retiring, h.primary⟩

/-- So does the size that an attach asks for. -/
theorem Limited.prepareInsert (h : Limited s) (hlive : s.primary.live < sideMaxObjects) {p : SidePrepare}
    (hp : s.prepareInsert = (t, p)) :
    Limited t ∧ (∀ b reason, p = .again b reason → b ≤ bucketLimit) ∧ p ≠ .overflow := by
  have hprim := h.primary
  unfold SideIndex.prepareInsert at hp
  dsimp only at hp
  split_ifs at hp with hb hload hactive hrebuild hmax
  · cases hp
    refine ⟨h, ?_, by simp⟩
    rintro b reason ⟨⟩
    simp [sideDefaultBuckets, bucketLimit]
  · cases hp
    exact ⟨h, by simp, by simp⟩
  · cases hr : s.rollbackShrink with
    | none =>
      rw [hr] at hp
      cases hp
      exact ⟨h, by simp, by simp⟩
    | some u =>
      rw [hr] at hp
      cases hp
      refine ⟨h.rollbackShrink hr, ?_, ?_⟩ <;> split <;> simp
  · cases hp
    refine ⟨h, ?_, by simp⟩
    rintro b reason ⟨⟩
    exact hprim
  · unfold sizeMax at hmax
    unfold bucketLimit at hprim
    omega
  · cases hp
    refine ⟨h, ?_, by simp⟩
    rintro b reason ⟨⟩
    unfold SideTable.UnderHardLoad hardGrowLoad at hload
    unfold hardGrowLoad at hrebuild
    unfold sideMaxObjects at hlive
    unfold bucketLimit
    omega

/-- Where an attach has to wait, a migration is under way, and an automatic one if all are. -/
theorem prepareInsert_busy (hauto : s.migrationActive = true → s.migrationAuto = true)
    (hp : s.prepareInsert = (t, .busy)) : t.migrationActive = true ∧ t.migrationAuto = true := by
  unfold SideIndex.prepareInsert at hp
  dsimp only at hp
  split_ifs at hp with hb hload hactive
  · cases hp
  · cases hp
  · cases hr : s.rollbackShrink with
    | none =>
      rw [hr] at hp
      cases hp
      exact ⟨hactive, hauto hactive⟩
    | some u =>
      rw [hr] at hp
      obtain ⟨-, -, -, rfl⟩ := rollbackShrink_eq hr
      obtain ⟨rfl, -⟩ := Prod.mk.inj hp
      exact ⟨hactive, rfl⟩
  all_goals cases hp

theorem Limited.publishForInsert (h : Limited s) (hb : b ≤ bucketLimit) : Limited (s.publishForInsert b reason).1 := by
  have publish : Limited (autoIfPublished (s.publishMigration b reason)).1 := by
    unfold SideIndex.publishMigration
    split_ifs
    · exact h
    · exact h
    · exact ⟨by simpa [autoIfPublished] using hb, h.primary⟩
    · exact ⟨by simpa [autoIfPublished, SideIndex.endMigration] using hb, Nat.zero_le _⟩
  unfold SideIndex.publishForInsert
  cases reason <;> dsimp only <;> split_ifs <;> first | exact h | exact publish

theorem Published.limited (h : Published s t b reason) (hs : Limited s) (hb : b ≤ bucketLimit) : Limited t := by
  refine ⟨?_, ?_⟩
  · rw [h.primary]
    simpa using hb
  · rcases h.retiring with hr | hr <;> rw [hr]
    · exact hs.primary
    · exact Nat.zero_le _

variable [DecidableEq α]

theorem buckets_insert {objects : List α} {u v : SideTable} {oc : α} {a : Nat}
    (h : u.insert H objects oc a = .ok v) : v.buckets = u.buckets := by
  unfold SideTable.insert at h
  split_ifs at h
  split at h <;> cases h
  exact SideTable.buckets_fill

theorem Limited.append (h : Limited s) : Limited (s.append H ent).1 := by
  unfold SideIndex.append
  split
  · exact h
  · rename_i t hins
    exact ⟨(buckets_insert hins).trans_le h.primary, h.retiring⟩

theorem Limited.migrateBucket (h : Limited s) : Limited (s.migrateBucket H).1 := by
  unfold SideIndex.migrateBucket
  split
  · split
    · exact h
    · split
      · exact h
      · rename_i t hins
        exact ⟨(buckets_insert hins).trans_le h.primary, by simpa using h.retiring⟩
  · exact h

theorem Limited.migrateLoop (h : Limited s) (n : Nat) : Limited (SideIndex.migrateLoop H n s).1 := by
  induction n generalizing s with
  | zero => exact h
  | succ n ih =>
    have hbucket := h.migrateBucket (H := H)
    unfold SideIndex.migrateLoop
    rcases hm : s.migrateBucket H with ⟨t, _ | r⟩ <;> rw [hm] at hbucket <;> split_ifs
    · exact ih ⟨hbucket.primary, hbucket.retiring⟩
    · exact h
    · exact hbucket
    · exact h

theorem Limited.migrateSome (h : Limited s) (n : Nat) : Limited (s.migrateSome H n).1 := by
  have hloop := h.migrateLoop (H := H) n
  unfold SideIndex.migrateSome
  rcases hm : SideIndex.migrateLoop H n s with ⟨t, _ | r⟩ <;> rw [hm] at hloop <;> dsimp only <;> split_ifs <;>
    first | exact h | exact hloop | exact ⟨hloop.primary, Nat.zero_le _⟩

theorem Limited.migrateSideBatch (h : Limited s) {overrun : Bool} : Limited (s.migrateSideBatch H overrun).1 := by
  rcases migrateSideBatch_cases H s overrun with ⟨-, hsame⟩ | ⟨-, s', t, hfrom, hstep⟩
  · rw [hsame]
    exact h
  · have hs' : Limited s' := by
      rcases hfrom with rfl | ⟨-, hr⟩
      · exact h
      · exact h.rollbackShrink hr
    have hsome := hs'.migrateSome (H := H) resizeSideBatchBuckets
    rcases hstep with ⟨hm, hbatch⟩ | ⟨e, hm, hbatch⟩ <;> rw [hm] at hsome <;> rw [hbatch]
    · exact hsome
    · exact ⟨hsome.primary, hsome.retiring⟩

omit [DecidableEq α] in
theorem Thins.limited (h : Thins s t) (hs : Limited s) : Limited t :=
  ⟨(h.buckets false).trans_le hs.primary, (h.buckets true).trans_le hs.retiring⟩

end SideIndex

/-! ### Attaches -/

namespace Index
open Registry SideIndex

variable {α : Type*} {cfg : Config α} {s s' t : Index α} {i : Nat} {c d : AttachCall α} {point : AttachPoint}
  {r : Registry}

/-- An attach that has met no failure. -/
structure Going (c : AttachCall α) : Prop where
  grew : c.growFailed = false
  fine : ∀ e, c.point ≠ .done (some e)
  side : ∀ b reason, c.point = .side b reason → b ≤ bucketLimit

/-- What a section of the attach `i` leaves that meets no failure. -/
structure Advances (s s' : Index α) (i : Nat) (c : AttachCall α) : Prop where
  retired : s'.retired = s.retired
  limited : Limited s'.side
  calls : ∃ d, s'.calls = s.calls.set i d ∧ d.oc = c.oc ∧ Going d

/-- An attach goes on at a point that is no failure. -/
theorem advances_stop (hretired : t.retired = s.retired) (hlimited : Limited t.side) (hcalls : t.calls = s.calls)
    (hoc : d.oc = c.oc) (hgrew : d.growFailed = false) (hfine : ∀ e, point ≠ .done (some e))
    (hside : ∀ b reason, point = .side b reason → b ≤ bucketLimit) : Advances s (t.stop i d point) i c := by
  refine ⟨hretired, hlimited, { d with point }, ?_, hoc, hgrew, hfine, hside⟩
  show t.calls.set i { d with point } = s.calls.set i { d with point }
  rw [hcalls]

theorem Advances.of_rest (h : Advances t s' i c) (hretired : t.retired = s.retired) (hcalls : t.calls = s.calls) :
    Advances s s' i c := by
  obtain ⟨hretired', hlimited, hd⟩ := h
  rw [hcalls] at hd
  exact ⟨hretired'.trans hretired, hlimited, hd⟩

section Sections
variable [DecidableEq α]

theorem advances_append (hsound : Sound cfg.sideHash s.side) (hopen : s.side.Open) (hlimited : Limited s.side)
    (hb : s.side.primary.buckets ≠ 0) (htakes : s.side.TakesIn c.oc) (hoc : d.oc = c.oc) (hgrew : d.growFailed = false)
    (membership : Membership) : Advances s (attachAppend cfg { s with registry := r } i d membership) i c := by
  rw [← hoc] at htakes
  obtain ⟨side, happ, -⟩ := @Sound.append _ _ _ _
    ⟨d.oc, ⟨d.regSeq, objcountCode d.folds.length, membership, i⟩⟩ _ hsound hopen hb htakes
  have hlimited' : Limited (s.side.append cfg.sideHash
      ⟨d.oc, ⟨d.regSeq, objcountCode d.folds.length, membership, i⟩⟩).1 := hlimited.append
  rw [happ] at hlimited'
  unfold Index.attachAppend
  simp only [happ]
  exact advances_stop rfl hlimited' rfl hoc hgrew (by simp) (by simp)

omit [DecidableEq α] in
theorem prepareInsert_ready (h : r.prepareInsert = .ready) : r.buckets.length ≠ 0 := by
  intro hnull
  unfold Registry.prepareInsert at h
  rw [if_pos hnull] at h
  cases h

/-- An attach that has its place in the primary table. -/
structure Placed (cfg : Config α) (s : Index α) (c : AttachCall α) : Prop where
  sound : Sound cfg.sideHash s.side
  open' : s.side.Open
  limited : Limited s.side
  table : s.side.primary.buckets ≠ 0
  takes : s.side.TakesIn c.oc

theorem Placed.append (h : Placed cfg s c) (hoc : d.oc = c.oc) (hgrew : d.growFailed = false) (membership : Membership) :
    Advances s (attachAppend cfg { s with registry := r } i d membership) i c :=
  advances_append h.sound h.open' h.limited h.table h.takes hoc hgrew membership

theorem Placed.lookup (h : Placed cfg s c) (hoc : d.oc = c.oc) (hgrew : d.growFailed = false) :
    Advances s (attachLookup cfg s i d) i c := by
  unfold Index.attachLookup
  rcases hl : s.registry.lookup d.folds (cfg.internHash d.folds) with ⟨_ | n, r⟩
  · dsimp only
    rw [if_neg (by simp [hgrew])]
    cases hprep : r.prepareInsert with
    | again n => exact advances_stop rfl h.limited rfl hoc hgrew (by simp) (by simp)
    | ready =>
      dsimp only
      rw [if_neg (prepareInsert_ready hprep)]
      cases hcand : d.candidate with
      | none => exact advances_stop rfl h.limited rfl hoc hgrew (by simp) (by simp)
      | some candidate =>
        dsimp only
        exact h.append (d := { d with candidate := none }) hoc hgrew _
  · exact h.append hoc hgrew _

theorem Placed.intern (h : Placed cfg s c) (hgrew : c.growFailed = false) : Advances s (attachIntern cfg s i c) i c := by
  unfold Index.attachIntern
  split
  · have h' : Placed cfg { s with registry := s.registry.migrate internMigrateSteps } c :=
      ⟨h.sound, h.open', h.limited, h.table, h.takes⟩
    exact (h'.lookup (d := { c with budgetUsed := true }) rfl hgrew).of_rest rfl rfl
  · exact h.lookup rfl hgrew

theorem Placed.plain (h : Placed cfg s c) (hc : s.calls[i]? = some c) (hgoing : Going c) :
    Advances s (attachPlain cfg s i c) i c := by
  unfold Index.attachPlain
  split
  · exact h.append rfl hgoing.grew _
  · split
    · refine ⟨rfl, h.limited, c, ?_, rfl, hgoing⟩
      obtain ⟨hi, hget⟩ := List.getElem?_eq_some_iff.mp hc
      rw [← hget, List.set_getElem_self]
    · exact h.append rfl hgoing.grew _

/-- The section from `again:` on, with every migration automatic. -/
theorem Inv.advances_again (h : Inv cfg s) (hopen : s.side.Open) (hlimited : Limited s.side)
    (hauto : s.side.migrationActive = true → s.side.migrationAuto = true)
    (hfew : s.side.objects.length < sideMaxObjects) (hretired : s.retired = false) (hc : s.calls[i]? = some c)
    (hgoing : Going c) (hfresh : c.oc ∉ s.side.ocs) : Advances s (Index.attachAgain cfg s i c) i c := by
  have hlive : s.side.primary.live < sideMaxObjects := by
    have := h.sound.filed.sum
    omega
  unfold Index.attachAgain
  rw [if_neg (by simp [hretired]), if_neg (by omega), h.sound.filed.find_absent hopen hfresh]
  dsimp only
  split
  · -- The last segment would have more slots than there are objects.
    rename_i hcap
    obtain ⟨k, hk⟩ := h.directory
    rw [if_neg ?_]
    · exact advances_stop rfl hlimited rfl rfl hgoing.grew (by simp) (by simp)
    · rw [hk.capobjects, Directory.countForCapacity_capacity hk.few]
      intro hle
      have hlast : k = objectSegments := Nat.le_antisymm hk.few hle
      rw [hk.capobjects, hlast] at hcap
      rw [hcap] at hfew
      revert hfew
      decide
  · rcases hp : s.side.prepareInsert with ⟨side, p⟩
    obtain ⟨hlimited', hagain, hover⟩ := hlimited.prepareInsert hlive hp
    have hprep := h.sound.prepareInsert
    rw [hp] at hprep
    cases p with
    | again b reason =>
      refine advances_stop rfl hlimited' rfl rfl hgoing.grew (by simp) ?_
      rintro b' reason' ⟨⟩
      exact hagain b reason rfl
    -- A busy table is one that migrates, and an automatic migration makes the attach wait for a batch.
    | busy =>
      dsimp only
      rw [if_pos (prepareInsert_busy hauto hp)]
      exact advances_stop rfl hlimited' rfl rfl hgoing.grew (by simp) (by simp)
    -- A table below its limit does not overflow.
    | overflow => exact absurd rfl hover
    | ready =>
      have hobj := hprep.resizes.objects
      have hplaced : Placed cfg { s with side } c :=
        { sound := hprep.resizes.sound
          open' := hprep.open' hopen
          limited := hlimited'
          table := (hprep.ready rfl).1
          takes := by
            show side.TakesIn c.oc
            unfold TakesIn
            rw [hobj, ocs_congr hobj]
            exact ⟨hfew, hfresh⟩ }
      dsimp only
      split
      · exact (hplaced.intern hgoing.grew).of_rest rfl rfl
      · exact (hplaced.plain hc hgoing).of_rest rfl rfl

/-- A section of an attach that waits. -/
theorem Inv.advances_section (h : Inv cfg s) (hopen : s.side.Open) (hlimited : Limited s.side)
    (hauto : s.side.migrationActive = true → s.side.migrationAuto = true)
    (hfew : s.side.objects.length < sideMaxObjects) (hretired : s.retired = false) (hc : s.calls[i]? = some c)
    (hgoing : Going c) (hfresh : (∀ e, c.point ≠ .done e) → c.oc ∉ s.side.ocs)
    (hs : Index.attachSection cfg s i c true = some s') : Advances s s' i c := by
  have again : ∀ {t : Index α} {d : AttachCall α}, t.retired = s.retired → Limited t.side → t.calls = s.calls →
      d.oc = c.oc → d.growFailed = false → Advances s (t.stop i d .again) i c :=
    fun hret hlim hcalls hoc hgrew => advances_stop hret hlim hcalls hoc hgrew (by simp) (by simp)
  unfold Index.attachSection at hs
  cases hpt : c.point <;> rw [hpt] at hs <;> cases hs
  case again =>
    exact h.advances_again hopen hlimited hauto hfew hretired hc hgoing (hfresh (by simp [hpt]))
  case objects oldCapacity => exact again rfl hlimited rfl rfl hgoing.grew
  case maintenance => exact again rfl hlimited rfl rfl hgoing.grew
  case side b reason => exact again rfl (hlimited.publishForInsert (hgoing.side b reason hpt)) rfl rfl hgoing.grew
  case table b generation => exact again rfl hlimited rfl rfl hgoing.grew
  case candidate => exact again rfl hlimited rfl rfl hgoing.grew

end Sections

/-- What a section leaves that is not one of an attach. -/
structure Apart (s s' : Index α) : Prop where
  retired : s'.retired = s.retired
  calls : s'.calls = s.calls
  ocs : s'.side.ocs ⊆ s.side.ocs
  limited : Limited s'.side

theorem apart_side {side : SideIndex α ObjVal} (hobj : side.objects = s.side.objects) (hlimited : Limited side) :
    Apart s { s with side } :=
  ⟨rfl, rfl, by rw [ocs_congr hobj]; exact fun _ => id, hlimited⟩

theorem Apart.of_side (hretired : s'.retired = s.retired) (hcalls : s'.calls = s.calls) (hside : s'.side = s.side)
    (hlimited : Limited s.side) : Apart s s' :=
  ⟨hretired, hcalls, by rw [hside]; exact fun _ => id, hside ▸ hlimited⟩

theorem apart_applyLowWater (hlimited : Limited s.side) : Apart s s.applyLowWater := by
  unfold Index.applyLowWater
  split_ifs
  · exact ⟨rfl, rfl, fun _ => id, Nat.zero_le _, Nat.zero_le _⟩
  · exact .of_side rfl rfl rfl hlimited
  · exact .of_side rfl rfl rfl hlimited

theorem TakesOut.apart [DecidableEq α] {a : Nat} {ent : ObjEnt α ObjVal} (h : TakesOut cfg s s' a)
    (hsound : Sound cfg.sideHash s.side) (ha : s.side.objects[a]? = some ent) (hlimited : Limited s.side) :
    Apart s s' := by
  refine ⟨h.retired, h.calls, ?_, h.removes.thins.limited hlimited⟩
  have hperm := ((h.removes.perm hsound ha).map (·.oc)).symm
  exact fun oc hoc => hperm.mem_iff.mpr (List.mem_cons_of_mem _ hoc)

end Index

/-! ### Maintenance -/

namespace Maintained
open Workers Index SideIndex

variable {α : Type*} [DecidableEq α] {cfg : Config α} {m : Maintained α} {now : UInt64} {st : MaintStage}

/-- A section of the maintenance touches no attach. -/
theorem advance_apart (hlimited : Limited m.index.side) (hlive : m.index.side.primary.live < sideMaxObjects) :
    Apart m.index (m.advance cfg now true st).1.index := by
  have same : Apart m.index m.index := .of_side rfl rfl rfl hlimited
  cases st with
  | promote =>
    simp only [advance, promoteRearm]
    split_ifs <;> exact same
  | intern =>
    simp only [advance, migrateInternBatch]
    split_ifs
    · exact .of_side rfl rfl rfl hlimited
    · exact same
  | side =>
    have hside : Apart m.index
        { m.index with side := (m.index.side.migrateSideBatch cfg.sideHash m.overrun).1 } :=
      apart_side objects_migrateSideBatch hlimited.migrateSideBatch
    simp only [advance, migrateSideBatch]
    split <;> rename_i heq <;> obtain ⟨rfl, -⟩ := Prod.mk.inj heq <;> exact hside
  | object =>
    simp only [advance]
    split <;> exact same
  | segment oldCapacity =>
    simp only [advance]
    split_ifs
    · exact .of_side rfl rfl rfl hlimited
    · exact same
  | lowWater =>
    rcases hr : m.lowWaterReady now with ⟨w, ready⟩
    simp only [advance, applyLowWater, hr]
    split_ifs
    · exact same
    · exact apart_applyLowWater hlimited
    · exact apart_applyLowWater hlimited
    · exact same
    · exact same
  | shrink b n =>
    rcases hr : m.lowWaterReady now with ⟨w, ready⟩
    simp only [advance, publishShrink, hr, if_true]
    split_ifs
    · rcases hp : autoIfPublished (m.index.side.publishAllocated b .shrink) with ⟨side, _ | e⟩
      -- A shrink leaves a table that is smaller than the one before.
      · have hpub := published hp
        exact apart_side hpub.objects
          (hpub.limited hlimited ((hpub.larger rfl).le.trans hlimited.primary))
      · exact same
    · exact same
  | destination =>
    simp only [advance]
    split <;> exact same
  | publish b reason =>
    simp only [advance, publishDestination, if_true]
    split_ifs with hdue
    · rcases hp : autoIfPublished (m.index.side.publishAllocated b reason) with ⟨side, _ | e⟩
      · have hpub := published hp
        exact apart_side hpub.objects (hpub.limited hlimited (softResize_le hdue hlimited hlive))
      · exact same
    · exact same
  | done did => exact same

omit [DecidableEq α] in
/-- A resize that is due comes off. -/
theorem publishes_due {H : SideHash α} {s : SideIndex α ObjVal} {b : Nat} {reason : SideReason} (h : Sound H s)
    (hopen : s.Open) (hdue : s.softResize = some (b, reason)) :
    ∃ t, autoIfPublished (s.publishAllocated b reason) = (t, none) := by
  obtain ⟨hpow, -⟩ := h.softResize hopen hdue
  have hmask : b &&& (b - 1) = 0 := by rw [LinearProbe.and_mask hpow, Nat.mod_self]
  have hidle : ¬s.migrationActive = true := fun hactive => by
    rw [softResize_of_active hactive] at hdue
    cases hdue
  have hpublish : ∃ t, s.publishMigration b reason = (t, none) := by
    unfold SideIndex.publishMigration
    rw [if_neg (by simp [hpow.pos.ne', hmask]), if_neg hidle]
    split_ifs <;> exact ⟨_, rfl⟩
  have hallocated : s.publishAllocated b reason = s.publishMigration b reason := by
    unfold SideIndex.publishAllocated
    rcases softResize_cases hdue with ⟨rfl, rfl, -⟩ | ⟨rfl, rfl, hzero, -⟩
    · rw [if_neg hidle, if_neg (by simp), if_neg (by simp), if_neg (by simp)]
    · rw [if_neg hidle, if_neg (by simp; omega), if_neg (by simp), if_neg (by simp)]
  obtain ⟨t, ht⟩ := hpublish
  exact ⟨_, by rw [hallocated, ht]; rfl⟩

/-- A call does not end without work where a resize is still due. -/
theorem advance_due (hsound : Sound cfg.sideHash m.index.side) (hopen : m.index.side.Open)
    (hdue : StillDue m.index.side st) (hst : st ≠ .done false) : (m.advance cfg now true st).2 ≠ .done false := by
  cases st with
  | promote =>
    simp only [advance]
    split <;> simp
  | intern =>
    simp only [advance]
    split <;> simp
  | side =>
    simp only [advance]
    split <;> simp
  | object =>
    simp only [advance]
    split <;> simp
  | segment oldCapacity =>
    simp only [advance]
    split <;> simp
  | lowWater =>
    simp only [advance, applyLowWater]
    split_ifs <;> simp
  | shrink b n =>
    simp only [advance, publishShrink, if_true]
    split_ifs
    · split <;> simp
    · simp
  | destination =>
    simp only [advance]
    split
    · simp
    · rename_i hnone
      exact absurd hnone hdue
  | publish b reason =>
    obtain ⟨side, hside⟩ := publishes_due hsound hopen hdue
    simp only [advance, publishDestination, if_true, if_pos (show m.index.side.softResize = _ from hdue), hside]
    simp
  | done did => exact hst

end Maintained

/-! ### Runs -/

namespace Workers
open Index SideIndex

variable {α : Type*} {cfg : Config α}

/-- An index whose attaches have met no failure, with no two of one object under way, and none of a recorded one. -/
structure Healthy (cfg : Config α) (s : Index α) : Prop where
  inv : Index.Inv cfg s
  limited : Limited s.side
  retired : s.retired = false
  going : ∀ c ∈ s.calls, Going c
  fresh : ∀ (i : Nat) (c : AttachCall α), s.calls[i]? = some c → Waiting c → c.oc ∉ s.side.ocs
  distinct : ∀ (i j : Nat) (c d : AttachCall α), s.calls[i]? = some c → s.calls[j]? = some d → Waiting c → Waiting d →
    c.oc = d.oc → i = j

/-- And none has been told that there was nothing to do. -/
structure Inv (cfg : Config α) (s : Workers α) : Prop where
  healthy : Healthy cfg s.index
  stages : ∀ i, s.stages (some i) ≠ .done false

theorem Healthy.new : Healthy cfg (Index.new : Index α) where
  inv := .new
  limited := .new
  retired := rfl
  going := by simp [Index.new]
  fresh := by simp [Index.new]
  distinct := by simp [Index.new]

theorem Inv.new : Inv cfg (Workers.new : Workers α) := ⟨.new, fun _ => by simp [Workers.new]⟩

section
variable {s s' : Index α} {i : Nat} {c : AttachCall α}

theorem Healthy.apart (h : Healthy cfg s) (hinv : Index.Inv cfg s') (ha : Apart s s') : Healthy cfg s' where
  inv := hinv
  limited := ha.limited
  retired := ha.retired.trans h.retired
  going := by
    rw [ha.calls]
    exact h.going
  fresh i c hc hw hoc := by
    rw [ha.calls] at hc
    exact h.fresh i c hc hw (ha.ocs hoc)
  distinct := by
    rw [ha.calls]
    exact h.distinct

/-- A new attach of an object that is neither recorded nor about to be. -/
theorem Healthy.begin (h : Healthy cfg s) {oc : α} {given : List Nat} {regSeq : Nat}
    (hgiven : given.length ≠ 0 ∧ given.length ≤ cfg.maxKeys) (hoc : oc ∉ s.side.ocs)
    (hother : ∀ c ∈ s.calls, Waiting c → c.oc ≠ oc) :
    Healthy cfg { s with calls := s.calls ++ [prepare cfg oc given regSeq true] } := by
  obtain ⟨hnew, hprepare⟩ : (prepare cfg oc given regSeq true).oc = oc ∧ Going (prepare cfg oc given regSeq true) := by
    unfold prepare
    dsimp only
    rw [if_neg (by omega)]
    simp only [if_true]
    split_ifs <;> exact ⟨rfl, rfl, by simp, by simp⟩
  have cases' : ∀ (j : Nat) (d : AttachCall α), (s.calls ++ [prepare cfg oc given regSeq true])[j]? = some d →
      s.calls[j]? = some d ∨ j = s.calls.length ∧ d.oc = oc := by
    intro j d hd
    rcases Nat.lt_trichotomy j s.calls.length with hlt | rfl | hgt
    · rw [List.getElem?_append_left hlt] at hd
      exact .inl hd
    · rw [List.getElem?_append_right (Nat.le_refl _), Nat.sub_self] at hd
      cases hd
      exact .inr ⟨rfl, hnew⟩
    · rw [List.getElem?_eq_none (by rw [List.length_append, List.length_singleton]; omega)] at hd
      cases hd
  refine ⟨(h.inv.begin oc given regSeq true).1, h.limited, h.retired, ?_, ?_, ?_⟩
  · intro c hc
    rcases List.mem_append.mp hc with hc | hc
    · exact h.going c hc
    · rw [List.mem_singleton.mp hc]
      exact hprepare
  · intro j d hd hw
    rcases cases' j d hd with hd | ⟨-, rfl⟩
    · exact h.fresh j d hd hw
    · exact hoc
  · intro j k d e hd he hwd hwe hsame
    rcases cases' j d hd with hd | ⟨rfl, rfl⟩ <;> rcases cases' k e he with he | ⟨rfl, hke⟩
    · exact h.distinct j k d e hd he hwd hwe hsame
    · exact absurd (hsame.trans hke) (hother d (List.mem_of_getElem? hd) hwd)
    · exact absurd hsame.symm (hother e (List.mem_of_getElem? he) hwe)
    · rfl

variable [DecidableEq α]

/-- A section of an attach. -/
theorem Healthy.attach (h : Healthy cfg s) (hopen : s.side.Open)
    (hauto : s.side.migrationActive = true → s.side.migrationAuto = true)
    (hfew : s.side.objects.length < sideMaxObjects) (hc : s.calls[i]? = some c)
    (hs : Index.attachSection cfg s i c true = some s') : Healthy cfg s' := by
  have hgoing := h.going c (List.mem_of_getElem? hc)
  have hwaiting : Waiting c := by
    intro r hr
    unfold Index.attachSection at hs
    rw [hr] at hs
    cases hs
  obtain ⟨hinv, hatt⟩ := h.inv.attachSection hopen hc hs
  obtain ⟨hretired, hlimited, d, hcalls, hdoc, hd⟩ :=
    h.inv.advances_section hopen h.limited hauto hfew h.retired hc hgoing (fun _ => h.fresh i c hc hwaiting) hs
  -- Every other attach is as it was.
  have cases' : ∀ (j : Nat) (x : AttachCall α), s'.calls[j]? = some x → j ≠ i ∧ s.calls[j]? = some x ∨ j = i ∧ x = d := by
    intro j x hx
    rw [hcalls] at hx
    by_cases hji : i = j
    · subst hji
      rw [List.getElem?_set_self (List.getElem?_eq_some_iff.mp hc).1] at hx
      cases hx
      exact .inr ⟨rfl, rfl⟩
    · rw [List.getElem?_set_ne hji] at hx
      exact .inl ⟨fun h => hji h.symm, hx⟩
  refine ⟨hinv, hlimited, hretired.trans h.retired, ?_, ?_, ?_⟩
  · intro x hx
    rw [hcalls] at hx
    rcases List.mem_or_eq_of_mem_set hx with hx | rfl
    · exact h.going x hx
    · exact hd
  · intro j x hx hw
    rcases hatt with ⟨hrests, -⟩ | hdone
    · rw [ocs_congr hrests.objects]
      rcases cases' j x hx with ⟨-, hx⟩ | ⟨rfl, rfl⟩
      · exact h.fresh j x hx hw
      · rw [hdoc]
        exact h.fresh j c hc hwaiting
    · obtain ⟨ent, hobj, hentoc, -⟩ := hdone.objects
      obtain ⟨y, hy, hydone⟩ := hdone.done
      have hocs : s'.side.ocs = s.side.ocs ++ [c.oc] := by
        unfold SideIndex.ocs
        rw [hobj, List.map_append, ← hentoc]
        rfl
      rcases cases' j x hx with ⟨hji, hx'⟩ | ⟨rfl, -⟩
      · rw [hocs, List.mem_append, List.mem_singleton]
        rintro (hmem | heq)
        · exact h.fresh j x hx' hw hmem
        · exact hji (h.distinct j i x c hx' hc hw hwaiting heq)
      · cases hx.symm.trans hy
        exact absurd hydone (hw none)
  · intro j k x y hx hy hwx hwy hsame
    rcases cases' j x hx with ⟨hji, hx⟩ | ⟨rfl, rfl⟩ <;> rcases cases' k y hy with ⟨hki, hy⟩ | ⟨rfl, rfl⟩
    · exact h.distinct j k x y hx hy hwx hwy hsame
    · exact absurd (h.distinct j k x c hx hc hwx hwaiting (hsame.trans hdoc)) hji
    · exact absurd (h.distinct j k c y hc hy hwaiting hwy (hdoc.symm.trans hsame)).symm hki
    · rfl

/-- A section that is not of an attach, nor the start of one. -/
theorem Healthy.other (h : Healthy cfg s) (hopen : s.side.Open) {e : IndexEvent α}
    (he : (∃ oc, e = .invalidate oc) ∨ e = .sweepStart ∨ (∃ verdict, e = .sweepProbe verdict) ∨ e = .sweepEnd ∨
      e = .sweepAbort) (hs : Index.step cfg s e = some s') : Healthy cfg s' := by
  obtain ⟨hinv, heff⟩ := h.inv.step hopen hs
  refine h.apart hinv ?_
  have hsame : ∀ {side : SideIndex α ObjVal}, side.objects = s.side.objects → side.primary = s.side.primary →
      side.retiring = s.side.retiring → Apart s { s with side } := fun hobj hprim hret =>
    apart_side hobj ⟨hprim ▸ h.limited.primary, hret ▸ h.limited.retiring⟩
  rcases he with ⟨oc, rfl⟩ | rfl | ⟨verdict, rfl⟩ | rfl | rfl
  · rcases heff with ⟨-, rfl⟩ | ⟨a, ent, ha, -, htakes⟩
    · exact .of_side rfl rfl rfl h.limited
    · exact htakes.apart h.inv.sound ha h.limited
  · obtain ⟨-, rfl⟩ := heff
    exact hsame rfl rfl rfl
  · obtain ⟨hact, hpos, heff⟩ := heff
    split at heff
    · have hle := h.inv.sound.sweep hact
      exact heff.apart h.inv.sound (List.getElem?_eq_getElem (by omega)) h.limited
    · rw [heff]
      exact hsame rfl rfl rfl
  · rw [show s' = _ from heff]
    exact hsame rfl rfl rfl
  · rw [show s' = _ from heff]
    exact hsame rfl rfl rfl

end

section
variable [DecidableEq α] {s s' : Workers α} {e : WorkersEvent α} {now : UInt64}

omit [DecidableEq α] in
theorem index_needsWork (m : Maintained α) : (m.needsWork cfg now).index = m.index := by
  unfold Maintained.needsWork
  dsimp only
  split_ifs <;> rfl

omit [DecidableEq α] in
theorem index_recordShrink (m : Maintained α) (lockAcquired : UInt64) : (m.recordShrink lockAcquired now).index = m.index := by
  unfold Maintained.recordShrink
  dsimp only
  split_ifs <;> rfl

omit [DecidableEq α] in
theorem Timely.open (h : Timely s e) : s.index.side.Open := by
  unfold Timely at h
  split at h
  · exact h.1
  · exact h

/-- A section of the index leaves the maintenance calls as they are. -/
theorem sectionOf_cases {e : IndexEvent α} (hs : s.sectionOf cfg e = some s') :
    Index.step cfg s.index e = some s'.index ∧ s'.stages = s.stages := by
  unfold sectionOf at hs
  obtain ⟨t, ht, rfl⟩ := Option.map_eq_some_iff.mp hs
  exact ⟨ht, rfl⟩

theorem Inv.sectionOf {e : IndexEvent α} (h : Inv cfg s) (hs : s.sectionOf cfg e = some s')
    (hkeep : ∀ {t}, Index.step cfg s.index e = some t → Healthy cfg t) : Inv cfg s' := by
  obtain ⟨hstep, hstages⟩ := sectionOf_cases hs
  exact ⟨hkeep hstep, hstages ▸ h.stages⟩

/-- An attach goes on. What its maintenance call reports is 1 where it reports at all. -/
theorem Inv.attachSection (h : Inv cfg s) (hopen : s.index.side.Open)
    (hauto : s.index.side.migrationActive = true → s.index.side.migrationAuto = true)
    (hfew : s.index.side.objects.length < sideMaxObjects) {i : Nat} {c : AttachCall α}
    (hc : s.index.calls[i]? = some c) (hs : s.attachSection cfg i c now = some s') : Inv cfg s' := by
  have hkeep : ∀ {t}, Index.step cfg s.index (.attach i true) = some t → Healthy cfg t := by
    intro t ht
    simp only [Index.step, hc] at ht
    exact h.healthy.attach hopen hauto hfew hc ht
  unfold Workers.attachSection at hs
  split at hs
  · split at hs
    · rename_i did hdone
      obtain ⟨t, ht, rfl⟩ := Option.map_eq_some_iff.mp hs
      have hdid : did = true := by
        rcases did with _ | _
        · exact absurd hdone (h.stages i)
        · rfl
      rw [hdid] at ht
      refine ⟨(h.sectionOf ht hkeep).healthy, fun j => ?_⟩
      show Function.update s.stages (some i) MaintStage.promote (some j) ≠ _
      rw [Function.update_apply]
      split
      · simp
      · exact h.stages j
    · cases hs
  · obtain ⟨t, ht, rfl⟩ := Option.map_eq_some_iff.mp hs
    have hinv := h.sectionOf ht hkeep
    split
    · refine ⟨?_, hinv.stages⟩
      show Healthy cfg (t.maintained.attached cfg now).index
      unfold Maintained.attached
      rw [index_needsWork]
      exact hinv.healthy
    · exact hinv

/-- A section of a maintenance call. -/
theorem Inv.maintain (h : Inv cfg s) {who : Option Nat} (ht : Timely s (.maintain who now)) {st : MaintStage}
    (hfew : s.index.side.objects.length < sideMaxObjects) (hnext : s.next who = some st) :
    Inv cfg ⟨(s.maintained.advance cfg now true st).1,
      Function.update s.stages who (s.maintained.advance cfg now true st).2⟩ := by
  have hopen := ht.open
  have hlive : s.index.side.primary.live < sideMaxObjects := by
    have := h.healthy.inv.sound.filed.sum
    omega
  have hindex : Index.Inv cfg (s.maintained.advance cfg now true st).1.index := by
    rcases Maintained.advance_index cfg s.maintained now true st with heq | ⟨e, he⟩
    · rw [heq]
      exact h.healthy.inv
    · exact (h.healthy.inv.step hopen he).1
  refine ⟨h.healthy.apart hindex (Maintained.advance_apart h.healthy.limited hlive), fun j => ?_⟩
  show Function.update s.stages who _ (some j) ≠ _
  rw [Function.update_apply]
  split
  · rename_i hwho
    subst hwho
    simp only [next] at hnext
    split_ifs at hnext with hcall
    cases hnext
    exact Maintained.advance_due h.healthy.inv.sound hopen ht.2 (h.stages j)
  · exact h.stages j

/-- Every section keeps the invariant, whoever takes it. -/
theorem Inv.step (h : Inv cfg s) (ho : Orderly cfg s e) (ht : Timely s e) (hs : step cfg s e = some s') :
    Inv cfg s' := by
  have hopen := ht.open
  cases e with
  | begin oc given regSeq =>
    obtain ⟨hgiven, hoc, hother⟩ := ho.distinct
    refine h.sectionOf hs fun heq => ?_
    cases heq
    exact h.healthy.begin hgiven hoc hother
  | attach i now =>
    simp only [Workers.step] at hs
    split at hs
    · cases hs
    · rename_i c hc
      exact h.attachSection hopen ho.auto ho.few hc hs
  | maintain who now =>
    simp only [Workers.step] at hs
    obtain ⟨st, hst, rfl⟩ := Option.map_eq_some_iff.mp hs
    exact h.maintain ht ho.few hst
  | recordShrink lockAcquired now =>
    cases hs
    refine ⟨?_, h.stages⟩
    show Healthy cfg (s.maintained.recordShrink lockAcquired now).index
    rw [index_recordShrink]
    exact h.healthy
  | invalidate oc => exact h.sectionOf hs fun heq => h.healthy.other hopen (by simp) heq
  | sweepStart => exact h.sectionOf hs fun heq => h.healthy.other hopen (by simp) heq
  | sweepProbe verdict => exact h.sectionOf hs fun heq => h.healthy.other hopen (by simp) heq
  | sweepEnd => exact h.sectionOf hs fun heq => h.healthy.other hopen (by simp) heq
  | sweepAbort => exact h.sectionOf hs fun heq => h.healthy.other hopen (by simp) heq

/-- No attach fails, however the sections interleave, as long as no side table becomes full and no attach comes too
    late for the resize that it is after. -/
theorem timely_attaches_succeed (h : Machine.Reach (step cfg) (fun s e => Orderly cfg s e ∧ Timely s e) new s) :
    AllFine s := by
  have hinv : Inv cfg s := h.inv .new fun _ hinv hok hs => hinv.step hok.1 hok.2 hs
  exact fun c hc => (hinv.healthy.going c hc).fine

omit [DecidableEq α] in
/-- A maintenance call that comes too late ends with nothing done. -/
theorem advance_late [DecidableEq α] {m : Maintained α} {st : MaintStage} (hlate : ¬StillDue m.index.side st) :
    m.advance cfg now true st = (m, .done false) := by
  cases st with
  | destination => simp only [Maintained.advance, not_not.mp hlate]
  | publish b reason =>
    simp only [Maintained.advance, Maintained.publishDestination, if_true,
      if_neg (show ¬m.index.side.softResize = _ from hlate)]
  | _ => exact absurd trivial hlate

theorem step_attach {i : Nat} {c : AttachCall α} (hc : s.index.calls[i]? = some c) :
    step cfg s (.attach i now) = s.attachSection cfg i c now := by
  simp only [Workers.step, hc]

/-- An attach that comes too late goes on to fail. -/
theorem late_attach_fails {i : Nat} {c : AttachCall α} {now' : UInt64} (hc : s.index.calls[i]? = some c)
    (hstage : s.next (some i) = some (s.stages (some i))) (hlate : ¬StillDue s.index.side (s.stages (some i))) :
    ∃ s₁ s₂, step cfg s (.maintain (some i) now) = some s₁ ∧ step cfg s₁ (.attach i now') = some s₂ ∧
      s₂.index = s.index.stop i c (.done (some .ebusy)) := by
  have hpoint : c.point = .maintenance := by
    simp only [next, hc, Option.map_some] at hstage
    split_ifs at hstage with hat
    simpa using hat.1
  obtain ⟨stages, hstages⟩ : ∃ stages, stages = Function.update s.stages (some i) (MaintStage.done false) := ⟨_, rfl⟩
  have hdone : stages (some i) = .done false := by rw [hstages, Function.update_self]
  refine ⟨⟨s.maintained, stages⟩,
    ⟨{ s.maintained with index := s.index.stop i c (.done (some .ebusy)) }, Function.update stages (some i) .promote⟩,
    ?_, ?_, rfl⟩
  · simp only [Workers.step, hstage, Option.map_some]
    rw [advance_late hlate, hstages]
  · have hfails : Index.step cfg s.index (.attach i false) = some (s.index.stop i c (.done (some .ebusy))) := by
      simp only [Index.step, hc, Index.attachSection, hpoint]
      rfl
    have hsection : (⟨s.maintained, stages⟩ : Workers α).sectionOf cfg (.attach i false) =
        some ⟨{ s.maintained with index := s.index.stop i c (.done (some .ebusy)) }, stages⟩ :=
      congrArg (Option.map _) hfails
    rw [step_attach (s := ⟨s.maintained, stages⟩) hc]
    simp only [Workers.attachSection, hpoint, if_true, hdone, hsection]
    rfl

end

/-- An attach of the object `i` by `n` sections. -/
def attaches (i n : Nat) : List (WorkersEvent Nat) := .begin i [5] 1 :: List.replicate n (.attach i 0)

/-- The attaches of the objects from `a` on and below `b`. The first allocates a segment and a side table, the 65th
    a segment. -/
def attachRange (a b : Nat) : List (WorkersEvent Nat) :=
  (List.range' a (b - a)).flatMap fun i => attaches i (if i = 0 then 5 else if i = 64 then 3 else 1)

def works (who : Option Nat) (n : Nat) : List (WorkersEvent Nat) := List.replicate n (.maintain who 0)

/-- The last of 102 attaches finds the primary table full in mid-migration. -/
def toBusy : List (WorkersEvent Nat) := attachRange 0 12 ++ works none 7 ++ attachRange 12 102

/-- It goes on with its maintenance call at once. -/
def timelyRun : List (WorkersEvent Nat) := toBusy ++ works (some 101) 3 ++ List.replicate 4 (.attach 101 0)

/-- The worker ends the migration, publishes the next table and ends that migration as well. -/
def lateRun : List (WorkersEvent Nat) :=
  toBusy ++ works none 3 ++ works none 7 ++ works none 3 ++ works (some 101) 6 ++ [.attach 101 0]

theorem timely_attaches_succeed_busy : ∃ s, Machine.run (step plainConfig) new timelyRun = some s ∧ AllFine s := by
  obtain ⟨s, hs⟩ := Option.isSome_iff_exists.mp (show (Machine.run (Machine.guarded (step plainConfig) fun s e =>
    Orderly plainConfig s e ∧ Timely s e) new timelyRun).isSome = true by decide +kernel)
  exact ⟨s, Machine.run_of_guarded hs, timely_attaches_succeed (.of_guarded hs)⟩

/-- What the last attach of a run comes to. -/
def lastPoint (s : Workers Nat) : Option AttachPoint := s.index.calls.getLast?.map (·.point)

theorem not_allFine {s : Workers Nat} {e : AttachErr} (h : lastPoint s = some (.done (some e))) : ¬AllFine s := by
  intro hfine
  obtain ⟨c, hc, hpoint⟩ := Option.map_eq_some_iff.mp h
  exact hfine c (List.mem_of_getLast? hc) e hpoint

theorem orderly_attaches_fail : ¬∀ (cfg : Config Nat) (s : Workers Nat),
    Machine.Reach (step cfg) (Orderly cfg) new s → AllFine s := by
  intro h
  have hrun : (Machine.run (Machine.guarded (step plainConfig) (Orderly plainConfig)) new lateRun).map lastPoint =
      some (some (.done (some .ebusy))) := by decide +kernel
  obtain ⟨s, hs, hlast⟩ := Option.map_eq_some_iff.mp hrun
  exact not_allFine hlast (h plainConfig s (.of_guarded hs))

end Workers
end Cachetag
