import Cachetag.Lib.Rounds
import Cachetag.Volatile.Footing
import Cachetag.Volatile.Headroom
import Cachetag.Volatile.Maintenance
import Cachetag.Volatile.Refine

/-! Repeated maintenance comes to rest.

Growing, rebuilding, shrinking, rolling back, migrating and the low-water fields can each make work for another. What
they make is ranked lexicographically: the low-water fields come first, then a shrink that is to be rolled back, the
size of the primary side table, the buckets that a migration has left, the segments, and the chains last. -/

namespace Cachetag
open SideIndex

namespace LowWater
variable {w : LowWater} {n : Nat} {now : UInt64}

/-- How far the fields are from rest. An overrun is first, since a call cancels it. -/
def rank (w : LowWater) (nobjects : Nat) : Nat :=
  if w.active then if w.overrun nobjects then 4 else if w.rearmAtUsec = 0 then 1 else 3
  else if w.rearmAtUsec = 0 then 0 else 2

theorem overrun_start : (LowWater.start now n).overrun n = false := by
  unfold overrun LowWater.start
  by_cases hn : n = 0
  · simp [hn]
  · simp [hn]

theorem rank_cancel (h : w.active = true) : w.cancel.rank n < w.rank n := by
  unfold rank
  by_cases hover : w.overrun n = true <;> by_cases hrearm : w.rearmAtUsec = 0 <;> simp [cancel, h, hover, hrearm]

theorem rank_rearm (hover : w.overrun n = true) : (w.cancel.rearm now).rank n < w.rank n := by
  have hactive : w.active = true := by
    by_contra hno
    simp [overrun, hno] at hover
  have hle : (w.cancel.rearm now).rank n ≤ 2 := by
    unfold rank
    simp only [rearm, cancel]
    split_ifs <;> simp_all
  have hfour : w.rank n = 4 := by simp [rank, hactive, hover]
  omega

theorem rank_start (hidle : w.active = false) (hrearm : w.rearmAtUsec ≠ 0) :
    (LowWater.start now n).rank n < w.rank n := by
  have hone : (LowWater.start now n).rank n = 1 := by
    unfold rank
    rw [overrun_start]
    simp [LowWater.start]
  rw [hone, rank]
  simp [hidle, hrearm]

end LowWater

/-! ### A step of the migration -/

namespace SideIndex
variable {α β : Type*} {H : SideHash α} {s t : SideIndex α β} {n : Nat} {r : Option SideErr}

/-- The buckets that an automatic migration has to look at, and one for its end. -/
def migrationLeft (s : SideIndex α β) : Nat :=
  if s.migrationActive ∧ s.migrationAuto then s.retiring.buckets - s.migrateCursor + 1 else 0

/-- What the loop of a migration step leaves. -/
structure Walks (s t : SideIndex α β) : Prop where
  active : t.migrationActive = s.migrationActive
  reason : t.migrationReason = s.migrationReason
  auto : t.migrationAuto = s.migrationAuto
  retiring : t.retiring.buckets = s.retiring.buckets
  primary : t.primary.buckets = s.primary.buckets
  tombstones : t.primary.tombstones ≤ s.primary.tombstones
  cursor : s.migrateCursor ≤ t.migrateCursor

theorem Walks.refl : Walks s s := ⟨rfl, rfl, rfl, rfl, rfl, Nat.le_refl _, Nat.le_refl _⟩

theorem Walks.trans {u : SideIndex α β} (h₁ : Walks s t) (h₂ : Walks t u) : Walks s u :=
  ⟨h₂.active.trans h₁.active, h₂.reason.trans h₁.reason, h₂.auto.trans h₁.auto, h₂.retiring.trans h₁.retiring,
    h₂.primary.trans h₁.primary, h₂.tombstones.trans h₁.tombstones, h₁.cursor.trans h₂.cursor⟩

/-- What a migration step leaves of the work. -/
structure Walked (s t : SideIndex α β) : Prop where
  primary : t.primary.buckets = s.primary.buckets
  tombstones : t.primary.tombstones ≤ s.primary.tombstones
  shrinking : t.Shrinking → s.Shrinking
  left : t.migrationLeft ≤ s.migrationLeft

theorem Walks.walked (h : Walks s t) : Walked s t where
  primary := h.primary
  tombstones := h.tombstones
  shrinking hs := ⟨h.active ▸ hs.1, h.reason ▸ hs.2⟩
  left := by
    have := h.cursor
    simp only [migrationLeft, h.active, h.auto, h.retiring]
    split_ifs <;> omega

variable [DecidableEq α]

theorem Counted.walks_bucket (h : Counted s) : Walks s (s.migrateBucket H).1 := by
  unfold SideIndex.migrateBucket
  split
  · split
    · exact .refl
    · split
      · exact .refl
      · rename_i t hins
        obtain ⟨i, -, -, hfill⟩ := (h.intact false).insert_fills hins
        rw [table_false] at hfill
        subst hfill
        refine ⟨rfl, rfl, rfl, by simp, by simp, ?_, Nat.le_refl _⟩
        simp only [SideTable.fill]
        split_ifs <;> omega
  · exact .refl

omit [DecidableEq α] in
/-- The cursor goes to the next bucket. -/
theorem Counted.next (h : Counted s) (hlt : s.migrateCursor < s.retiring.buckets) :
    Counted { s with migrateCursor := s.migrateCursor + 1 } ∧
      Walks s { s with migrateCursor := s.migrateCursor + 1 } := by
  have hstays : Stays s { s with migrateCursor := s.migrateCursor + 1 } := h.stays_of_tables rfl rfl rfl rfl hlt
  exact ⟨hstays.counted, rfl, rfl, rfl, rfl, rfl, Nat.le_refl _, Nat.le_succ _⟩

/-- A turn that comes off takes the cursor on. -/
theorem Counted.walks_loop (h : Counted s) (n : Nat) : Walks s (SideIndex.migrateLoop H n s).1 ∧
    ((SideIndex.migrateLoop H (n + 1) s).2 = none → s.migrateCursor < s.retiring.buckets →
      s.migrateCursor < (SideIndex.migrateLoop H (n + 1) s).1.migrateCursor) := by
  have turn : ∀ (n : Nat) (s : SideIndex α β), Counted s → Walks s (SideIndex.migrateLoop H n s).1 := by
    intro n
    induction n with
    | zero => exact fun s _ => .refl
    | succ n ih =>
      intro s h
      have hbucket := h.walks_bucket (H := H)
      obtain ⟨hstays, hbuckets, hcursor⟩ := h.migrateBucket (H := H)
      unfold SideIndex.migrateLoop
      split_ifs with hlt
      · rcases hm : s.migrateBucket H with ⟨t, _ | r⟩ <;> rw [hm] at hbucket hstays hbuckets hcursor
        · obtain ⟨hcounted, hnext⟩ := Counted.next hstays.counted (by dsimp only at hbuckets hcursor ⊢; omega)
          exact (hbucket.trans hnext).trans (ih _ hcounted)
        · exact hbucket
      · exact .refl
  refine ⟨turn n s h, fun hnone hlt => ?_⟩
  have hbucket := h.walks_bucket (H := H)
  obtain ⟨hstays, hbuckets, hcursor⟩ := h.migrateBucket (H := H)
  simp only [SideIndex.migrateLoop, if_pos hlt] at hnone ⊢
  rcases hm : s.migrateBucket H with ⟨t, _ | r⟩ <;> rw [hm] at hbucket hstays hbuckets hcursor hnone
  · obtain ⟨hcounted, -⟩ := Counted.next hstays.counted (by dsimp only at hbuckets hcursor ⊢; omega)
    have hrest := (turn n _ hcounted).cursor
    have := hbucket.cursor
    dsimp only at hrest this ⊢
    omega
  · cases hnone

/-- A migration step leaves less work where it comes off, and no more where it fails. -/
theorem Counted.walks_some (h : Counted s) (hactive : s.migrationActive = true) (hauto : s.migrationAuto = true)
    (hm : s.migrateSome H (n + 1) = (t, r)) : Walked s t ∧ (r = none → t.migrationLeft < s.migrationLeft) := by
  have hleft : s.migrationLeft = s.retiring.buckets - s.migrateCursor + 1 := by simp [migrationLeft, hactive, hauto]
  have hret := h.active.mp hactive
  have hprim := h.both hret
  obtain ⟨-, hon⟩ := h.walks_loop (H := H) n
  obtain ⟨hwalks, -⟩ := h.walks_loop (H := H) (n + 1)
  have hcounted := (h.migrateLoop (H := H) (n + 1)).counted
  rcases hl : SideIndex.migrateLoop H (n + 1) s with ⟨u, _ | e⟩
  all_goals
    rw [hl] at hwalks hcounted hon
    simp only [SideIndex.migrateSome, hactive, hret, hprim, hl, Bool.not_true, Bool.false_eq_true, or_self, if_false,
      Nat.succ_ne_zero] at hm
  · have hcur := hcounted.cursor
    have hb := hwalks.retiring
    split_ifs at hm with hend hlive <;> cases hm
    · exact ⟨hwalks.walked, fun hnone => by cases hnone⟩
    · have hzero : u.endMigration.migrationLeft = 0 := by simp [migrationLeft, SideIndex.endMigration]
      refine ⟨⟨hwalks.primary, hwalks.tombstones, fun hs => ?_, by omega⟩, fun _ => by omega⟩
      simp [Shrinking, SideIndex.endMigration] at hs
    · refine ⟨hwalks.walked, fun _ => ?_⟩
      have ht : t.migrationLeft = t.retiring.buckets - t.migrateCursor + 1 := by
        have h₁ := hwalks.active
        have h₂ := hwalks.auto
        dsimp only at h₁ h₂
        simp [migrationLeft, h₁, h₂, hactive, hauto]
      have hc := hwalks.cursor
      dsimp only at hc hcur hb
      have hlt : s.migrateCursor < s.retiring.buckets := by omega
      have := hon rfl hlt
      dsimp only at this
      omega
  · cases hm
    exact ⟨hwalks.walked, fun hnone => by cases hnone⟩

/-- What a batch leaves: nothing is changed, a shrink that overran is rolled back, or the migration has gone on. -/
theorem Counted.walks_batch (h : Counted s) {overrun : Bool} (hm : s.migrateSideBatch H overrun = (t, r)) :
    (¬(s.migrationActive = true ∧ s.migrationAuto = true) ∧ t = s) ∨
    (s.Shrinking ∧ overrun = true ∧ ¬t.Shrinking) ∨
    (Walked s t ∧ (r = none → t.migrationLeft < s.migrationLeft)) := by
  rcases migrateSideBatch_cases H s overrun with ⟨hoff, hsame⟩ | ⟨⟨hactive, hauto⟩, s', u, hfrom, hstep⟩
  · cases hsame.symm.trans hm
    exact .inl ⟨hoff, rfl⟩
  -- What comes of the step from `s'`.
  have walk : Counted s' → s'.migrationActive = true → s'.migrationAuto = true →
      Walked s' t ∧ (r = none → t.migrationLeft < s'.migrationLeft) := by
    intro hs' hactive' hauto'
    rcases hstep with ⟨hsome, hbatch⟩ | ⟨e, hsome, hbatch⟩ <;> cases hbatch.symm.trans hm
    · exact hs'.walks_some (n := 8191) hactive' hauto' hsome
    · obtain ⟨hw, -⟩ := hs'.walks_some (n := 8191) hactive' hauto' hsome
      have hzero : ({ u with migrationAuto := false } : SideIndex α β).migrationLeft = 0 := by simp [migrationLeft]
      exact ⟨⟨hw.primary, hw.tombstones, hw.shrinking, by omega⟩, fun hnone => by cases hnone⟩
  rcases hfrom with rfl | ⟨hover, hr⟩
  · exact .inr (.inr (walk h hactive hauto))
  · have hcounted := h.rollbackShrink hr
    obtain ⟨-, hreason, -, rfl⟩ := rollbackShrink_eq hr
    obtain ⟨hw, -⟩ := walk hcounted hactive rfl
    refine .inr (.inl ⟨⟨hactive, hreason⟩, hover, fun hs => ?_⟩)
    cases (hw.shrinking hs).2

end SideIndex

/-! ### Segments -/

namespace Directory
variable {d : Directory} {n k : Nat} {g : Growth}

/-- The segment that a growth asks for can be published, and no other growth is due behind it. -/
theorem Holds.grows (h : d.Holds n k) (hg : d.softGrowth n = some g) :
    (d.publishSegment g.oldCapacity).softGrowth n = none := by
  unfold softGrowth at hg
  dsimp only at hg
  split_ifs at hg with hzero hlow hmany hthere
  cases hg
  have hk := h.capobjects
  have hroom := h.room
  have hseg : objectSegmentCountForCapacity d.capobjects = k := by rw [hk, countForCapacity_capacity h.few]
  rw [hseg] at hmany
  obtain ⟨j, rfl⟩ : ∃ j, k = j + 1 := by
    rcases k with _ | j
    · exact absurd (hk.trans rfl) hzero
    · exact ⟨j, rfl⟩
  have hfree : d.segments[j + 1]? = some false := by
    rw [h.getElem?, if_pos (Nat.lt_of_not_le hmany), decide_eq_false (Nat.lt_irrefl _)]
  have hcap : (d.publishSegment d.capobjects).capobjects = objectCapacityForSegments (j + 1 + 1) := by
    simp [Directory.publishSegment, hseg, hfree]
  refine softGrowth_eq_none ?_
  rw [hcap]
  have hrunway := objectGrowthRunway_le (objectCapacityForSegments (j + 1 + 1))
  have hdouble : objectCapacityForSegments (j + 1 + 1) = objectCapacityForSegments (j + 1) * 2 := by
    rw [capacity_succ, capacity_succ, pow_succ, Nat.mul_assoc]
  have hpos : 0 < objectCapacityForSegments (j + 1) := by
    rw [capacity_succ]
    exact Nat.mul_pos (by decide) (Nat.two_pow_pos j)
  omega

/-- The target of a shrink is its own target. -/
theorem lowWaterTarget_target {cap : Nat} :
    objectLowWaterTarget n (objectLowWaterTarget n cap) = objectLowWaterTarget n cap := by
  unfold objectLowWaterTarget
  split_ifs <;> rfl

end Directory

/-! ### Every section -/

namespace Maintained
variable {α : Type*} {cfg : Config α} {m m' : Maintained α} {now : UInt64} {w : LowWater}
  {side : SideIndex α ObjVal} {b n : Nat} {reason : SideReason} {st : MaintStage}

def rollbackRank (m : Maintained α) : Nat := if m.index.side.Shrinking ∧ m.overrun then 1 else 0

/-- A table is replaced by one without tombstones, which is smaller as long as low water is observed, and no smaller
    otherwise. -/
def sizeRank (m : Maintained α) : Nat :=
  (if m.lowWater.active then m.index.side.primary.buckets else 2 * (2 ^ 64 - m.index.side.primary.buckets)) +
    if m.index.side.primary.tombstones = 0 then 0 else 1

def objectRank (m : Maintained α) : Nat :=
  if (m.index.directory.softGrowth m.nobjects).isSome then 2
  else if m.objectTarget < m.index.directory.capobjects then 1
  else 0

/-- The rank of all work. -/
def rank (m : Maintained α) : ℕ ×ₗ ℕ ×ₗ ℕ ×ₗ ℕ ×ₗ ℕ ×ₗ ℕ :=
  toLex (m.lowWater.rank m.nobjects, toLex (m.rollbackRank, toLex (m.sizeRank,
    toLex (m.index.side.migrationLeft, toLex (m.objectRank, m.index.registry.work)))))

theorem rank_lt_iff : m'.rank < m.rank ↔
    m'.lowWater.rank m'.nobjects < m.lowWater.rank m.nobjects ∨
      m'.lowWater.rank m'.nobjects = m.lowWater.rank m.nobjects ∧ (m'.rollbackRank < m.rollbackRank ∨
        m'.rollbackRank = m.rollbackRank ∧ (m'.sizeRank < m.sizeRank ∨
          m'.sizeRank = m.sizeRank ∧ (m'.index.side.migrationLeft < m.index.side.migrationLeft ∨
            m'.index.side.migrationLeft = m.index.side.migrationLeft ∧ (m'.objectRank < m.objectRank ∨
              m'.objectRank = m.objectRank ∧ m'.index.registry.work < m.index.registry.work)))) := by
  simp only [rank, Prod.Lex.toLex_lt_toLex]

theorem rank_le_iff : m'.rank ≤ m.rank ↔
    m'.lowWater.rank m'.nobjects < m.lowWater.rank m.nobjects ∨
      m'.lowWater.rank m'.nobjects = m.lowWater.rank m.nobjects ∧ (m'.rollbackRank < m.rollbackRank ∨
        m'.rollbackRank = m.rollbackRank ∧ (m'.sizeRank < m.sizeRank ∨
          m'.sizeRank = m.sizeRank ∧ (m'.index.side.migrationLeft < m.index.side.migrationLeft ∨
            m'.index.side.migrationLeft = m.index.side.migrationLeft ∧ (m'.objectRank < m.objectRank ∨
              m'.objectRank = m.objectRank ∧ m'.index.registry.work ≤ m.index.registry.work)))) := by
  simp only [rank, Prod.Lex.toLex_le_toLex]

/-- What is known of the state at a stage, as long as nothing else has come in between. -/
def Due (m : Maintained α) : MaintStage → Prop
  | .segment oldCapacity => ∃ g, m.index.directory.softGrowth m.nobjects = some g ∧ g.oldCapacity = oldCapacity
  | .shrink _ _ => m.lowWater.active = true
  | .destination => m.lowWater.active = true → m.index.side.LowWaterReady
  | .publish _ reason => m.lowWater.active = true → reason ≠ .grow
  | _ => True

/-- What a section of a call leaves: the objects, and no more work than before. A call that ends with 1 has left
    less. -/
structure Eased (m m' : Maintained α) (st : MaintStage) : Prop where
  objects : m'.index.side.objects = m.index.side.objects
  due : m'.Due st
  rank : m'.rank ≤ m.rank
  less : st = .done true → m'.rank < m.rank

theorem Eased.of_lt (ho : m'.index.side.objects = m.index.side.objects) (hdue : m'.Due st) (hlt : m'.rank < m.rank) :
    Eased m m' st := ⟨ho, hdue, hlt.le, fun _ => hlt⟩

theorem Eased.same (hdue : m.Due st) (hst : st ≠ .done true) : Eased m m st :=
  ⟨rfl, hdue, le_rfl, fun h => absurd h hst⟩

theorem nobjects_congr (ho : m'.index.side.objects = m.index.side.objects) : m'.nobjects = m.nobjects :=
  congrArg List.length ho

/-- The low-water fields get nearer to rest. -/
theorem lt_of_lowWater (ho : m'.index.side.objects = m.index.side.objects)
    (hlt : m'.lowWater.rank m.nobjects < m.lowWater.rank m.nobjects) : m'.rank < m.rank := by
  rw [← nobjects_congr ho] at hlt
  rw [rank_lt_iff]
  refine .inl ?_
  rwa [← nobjects_congr ho]

theorem objects_applyLowWater : m.index.applyLowWater.side.objects = m.index.side.objects := by
  unfold Index.applyLowWater
  split_ifs <;> rfl

/-- Where `cachetag_low_water_ready_locked` reports 0, it has cancelled, or no growth is due. -/
theorem not_ready_of (h : m.lowWaterReady now = (w, false)) :
    w = m.lowWater ∧ (m.lowWater.active = true → m.index.side.LowWaterReady) ∨
      w.active = false ∧ w.rank m.nobjects < m.lowWater.rank m.nobjects := by
  unfold lowWaterReady at h
  dsimp only at h
  by_cases hidle : m.lowWater.active = false
  · rw [if_pos (by simpa using hidle)] at h
    cases h
    exact .inl ⟨rfl, fun hactive => by simp [hidle] at hactive⟩
  have hactive : m.lowWater.active = true := by simpa using hidle
  rw [if_neg (by simp [hactive])] at h
  by_cases hready : m.index.side.LowWaterReady
  · rw [if_neg (not_not.mpr hready)] at h
    split_ifs at h with hover <;> cases h
    · exact .inr ⟨rfl, LowWater.rank_rearm hover⟩
    · exact .inr ⟨rfl, LowWater.rank_cancel hactive⟩
    · exact .inl ⟨rfl, fun _ => hready⟩
    · exact .inr ⟨rfl, LowWater.rank_cancel hactive⟩
  · rw [if_pos hready] at h
    split_ifs at h with hover <;> cases h
    · exact .inr ⟨rfl, LowWater.rank_rearm hover⟩
    · exact .inr ⟨rfl, LowWater.rank_cancel hactive⟩
    · exact .inr ⟨rfl, LowWater.rank_cancel hactive⟩

theorem eased_not_ready (h : m.lowWaterReady now = (w, false)) :
    Eased m { m with lowWater := w } .destination := by
  rcases not_ready_of h with ⟨rfl, hdue⟩ | ⟨hidle, hlt⟩
  · exact .same hdue (by simp)
  · exact .of_lt rfl (fun hactive => by simp [hidle] at hactive) (lt_of_lowWater rfl hlt)

/-- A resize that the load asks for leaves no tombstones behind. -/
theorem softResize_cases {s : SideIndex α ObjVal} (h : s.softResize = some (b, reason)) :
    reason = .rebuild ∧ b = s.primary.buckets ∧ s.primary.tombstones ≠ 0 ∨
      reason = .grow ∧ b = s.primary.buckets * 2 ∧ s.primary.buckets ≠ 0 ∧ s.primary.buckets ≤ sizeMax / 2 := by
  unfold SideIndex.softResize at h
  dsimp only at h
  split_ifs at h with hidle hrebuild hlow hmax <;> cases h
  · exact .inl ⟨rfl, rfl, by omega⟩
  · exact .inr ⟨rfl, rfl, fun h0 => hidle (.inr h0), Nat.le_of_not_lt hmax⟩

/-- The state with other side tables. -/
def withSide (m : Maintained α) (side : SideIndex α ObjVal) : Maintained α := { m with index := { m.index with side } }

theorem rollbackRank_withSide (ho : side.objects = m.index.side.objects) :
    (m.withSide side).rollbackRank = if side.Shrinking ∧ m.overrun then 1 else 0 := by
  have hn : (m.withSide side).nobjects = m.nobjects := nobjects_congr ho
  rw [rollbackRank, overrun, hn]
  rfl

theorem sizeRank_withSide : (m.withSide side).sizeRank =
    (if m.lowWater.active then side.primary.buckets else 2 * (2 ^ 64 - side.primary.buckets)) +
      if side.primary.tombstones = 0 then 0 else 1 := rfl

theorem objectRank_withSide (ho : side.objects = m.index.side.objects) : (m.withSide side).objectRank = m.objectRank := by
  have hn : (m.withSide side).nobjects = m.nobjects := nobjects_congr ho
  rw [objectRank, objectTarget, hn]
  rfl

/-- The side tables have less to do. -/
theorem lt_of_side (ho : side.objects = m.index.side.objects)
    (h : (m.withSide side).rollbackRank < m.rollbackRank ∨ (m.withSide side).rollbackRank ≤ m.rollbackRank ∧
      ((m.withSide side).sizeRank < m.sizeRank ∨ (m.withSide side).sizeRank ≤ m.sizeRank ∧
        side.migrationLeft < m.index.side.migrationLeft)) : (m.withSide side).rank < m.rank := by
  have hn : (m.withSide side).nobjects = m.nobjects := nobjects_congr ho
  rw [rank_lt_iff, hn, show (m.withSide side).lowWater = m.lowWater from rfl,
    show (m.withSide side).index.side = side from rfl]
  omega

theorem le_of_side (ho : side.objects = m.index.side.objects) (hback : (m.withSide side).rollbackRank ≤ m.rollbackRank)
    (hsize : (m.withSide side).sizeRank ≤ m.sizeRank) (hleft : side.migrationLeft ≤ m.index.side.migrationLeft) :
    (m.withSide side).rank ≤ m.rank := by
  have hn : (m.withSide side).nobjects = m.nobjects := nobjects_congr ho
  rw [rank_le_iff, hn, objectRank_withSide ho, show (m.withSide side).lowWater = m.lowWater from rfl,
    show (m.withSide side).index.side = side from rfl,
    show (m.withSide side).index.registry = m.index.registry from rfl]
  omega

/-- A publication under another reason than a shrink. -/
theorem eased_published (hp : Published m.index.side side b reason) (hreason : reason ≠ .shrink)
    (hsize : (m.withSide side).sizeRank < m.sizeRank) : Eased m (m.withSide side) (.done true) := by
  refine .of_lt hp.objects trivial (lt_of_side hp.objects (.inr ⟨?_, .inl hsize⟩))
  rw [rollbackRank_withSide hp.objects, if_neg]
  · exact Nat.zero_le _
  · rintro ⟨⟨hactive, hshrink⟩, -⟩
    rcases hp.migration with hm | hm
    · exact hreason (hm.symm.trans hshrink)
    · simp [hm] at hactive

section Stages
variable [DecidableEq α] {ok : Bool}

omit [DecidableEq α] in
theorem eased_promote (hst : ∀ m : Maintained α, m.Due st) (hne : st ≠ .done true) :
    Eased m (m.promoteRearm now) st := by
  unfold promoteRearm
  split_ifs with hc
  · obtain ⟨hidle, hrearm, -⟩ := hc
    exact .of_lt rfl (hst _) (lt_of_lowWater rfl (LowWater.rank_start (by simpa using hidle) hrearm))
  · exact .same (hst _) hne

theorem eased_intern (h : m.index.registry.Wired) :
    Eased m (m.advance cfg now ok .intern).1 (m.advance cfg now ok .intern).2 := by
  by_cases hactive : m.index.registry.migrationActive = true
  · simp only [advance, migrateInternBatch, hactive, if_true]
    refine .of_lt rfl trivial ?_
    have hlt := h.work_migrate hactive 63
    rw [rank_lt_iff]
    exact .inr ⟨rfl, .inr ⟨rfl, .inr ⟨rfl, .inr ⟨rfl, .inr ⟨rfl, hlt⟩⟩⟩⟩⟩
  · have hsame : Eased m m .side := .same trivial (by simp)
    simpa [advance, migrateInternBatch, hactive] using hsame

theorem eased_side (h : Counted m.index.side) :
    Eased m (m.advance cfg now ok .side).1 (m.advance cfg now ok .side).2 := by
  have hobj : (m.index.side.migrateSideBatch cfg.sideHash m.overrun).1.objects = m.index.side.objects :=
    objects_migrateSideBatch
  rcases hm : m.index.side.migrateSideBatch cfg.sideHash m.overrun with ⟨side, r⟩
  rw [hm] at hobj
  have hadvance : m.advance cfg now ok .side = (m.withSide side,
      if (m.index.side.migrationActive && m.index.side.migrationAuto && r.isNone) = true then .done true
      else .object) := by
    simp only [advance, Maintained.migrateSideBatch, hm, withSide]
    cases m.index.side.migrationActive && m.index.side.migrationAuto && r.isNone <;> rfl
  rw [hadvance]
  have ends : (m.withSide side).rank < m.rank → Eased m (m.withSide side)
      (if (m.index.side.migrationActive && m.index.side.migrationAuto && r.isNone) = true then .done true
        else .object) := by
    intro hlt
    split_ifs
    · exact .of_lt hobj trivial hlt
    · exact .of_lt hobj trivial hlt
  -- The batch is idle, or rolls a shrink back, or walks on over the retiring table.
  rcases h.walks_batch hm with ⟨hoff, rfl⟩ | ⟨hshrinking, hover, hback⟩ | ⟨hw, hlt⟩
  · rw [if_neg (by simpa [Bool.and_eq_true] using fun h₁ h₂ => absurd ⟨h₁, h₂⟩ hoff)]
    exact .same trivial (by simp)
  · refine ends (lt_of_side hobj (.inl ?_))
    rw [rollbackRank_withSide hobj, if_neg (fun hs => hback hs.1), rollbackRank, if_pos ⟨hshrinking, hover⟩]
    exact Nat.zero_lt_one
  · have hrollback : (m.withSide side).rollbackRank ≤ m.rollbackRank := by
      rw [rollbackRank_withSide hobj, rollbackRank]
      split_ifs with hs hs'
      · exact Nat.le_refl _
      · exact absurd ⟨hw.shrinking hs.1, hs.2⟩ hs'
      · exact Nat.zero_le _
      · exact Nat.le_refl _
    have hsize : (m.withSide side).sizeRank ≤ m.sizeRank := by
      have htomb := hw.tombstones
      rw [sizeRank_withSide, sizeRank, hw.primary]
      split_ifs <;> omega
    by_cases hnone : r = none
    · exact ends (lt_of_side hobj (.inr ⟨hrollback, .inr ⟨hsize, hlt hnone⟩⟩))
    · rw [if_neg (by simp [hnone])]
      exact ⟨hobj, trivial, le_of_side hobj hrollback hsize hw.left, by simp⟩

theorem eased_segment {k oldCapacity : Nat} (h : m.index.directory.Holds m.nobjects k)
    (hdue : m.Due (.segment oldCapacity)) :
    Eased m (m.advance cfg now ok (.segment oldCapacity)).1 (m.advance cfg now ok (.segment oldCapacity)).2 := by
  obtain ⟨g, hg, rfl⟩ := hdue
  simp only [advance]
  split_ifs
  · have hgrown := h.grows hg
    have htwo : m.objectRank = 2 := by simp [objectRank, hg]
    refine .of_lt rfl trivial ?_
    rw [rank_lt_iff, htwo]
    refine .inr ⟨rfl, .inr ⟨rfl, .inr ⟨rfl, .inr ⟨rfl, .inl ?_⟩⟩⟩⟩
    have hsmall : objectRank ⟨{ m.index with directory := m.index.directory.publishSegment g.oldCapacity }, m.lowWater⟩ ≤
        1 := by
      have hnone : ¬((m.index.directory.publishSegment g.oldCapacity).softGrowth m.nobjects).isSome = true := by
        simp [hgrown]
      refine (if_neg hnone).trans_le ?_
      split_ifs
      · exact Nat.le_refl _
      · exact Nat.zero_le _
    exact Nat.lt_succ_of_le hsmall
  · exact .same trivial (by simp)

theorem eased_lowWater {k : Nat} (h : m.index.directory.Holds m.nobjects k) :
    Eased m (m.advance cfg now ok .lowWater).1 (m.advance cfg now ok .lowWater).2 := by
  rcases hr : m.lowWaterReady now with ⟨w, _ | _⟩ <;> simp only [advance, applyLowWater, hr]
  · exact eased_not_ready hr
  · obtain ⟨rfl, hactive, hover, hgrowth, hside⟩ := ready_of hr
    have hcancel := LowWater.rank_cancel (n := m.nobjects) hactive
    simp only [Bool.not_true, Bool.false_eq_true, if_false]
    split_ifs with hempty hobj hlow
    · exact .of_lt objects_applyLowWater trivial (lt_of_lowWater objects_applyLowWater hcancel)
    -- The directory is trimmed, to a capacity at which neither a growth nor another trim is due.
    · have hn : m.nobjects ≠ 0 := by
        intro hzero
        simp [objectTarget, objectLowWaterTarget, hzero] at hobj
        exact hempty ⟨hzero, .inl (by omega)⟩
      have happly : m.index.applyLowWater =
          { m.index with directory := m.index.directory.detachSegments m.objectTarget } :=
        (if_neg hempty).trans (if_pos hobj)
      have hcap : m.index.directory.capobjects ≤ objectCapacityForSegments objectSegments := by
        rw [h.capobjects]
        exact Directory.capacity_mono h.few
      obtain ⟨j, -, htarget, htwice⟩ := Directory.lowWaterTarget_spec hn hcap hobj
      have hrunway := Directory.objectGrowthRunway_le (objectCapacityForSegments j)
      have hgrowth' : (m.index.directory.detachSegments m.objectTarget).softGrowth m.nobjects = none := by
        refine Directory.softGrowth_eq_none ?_
        show m.nobjects < m.objectTarget - objectGrowthRunway m.objectTarget
        rw [objectTarget, htarget]
        omega
      rw [happly]
      refine .of_lt rfl trivial ?_
      rw [rank_lt_iff]
      -- Only the rank of the directory falls, which stands behind four that stay.
      refine .inr ⟨rfl, .inr ⟨rfl, .inr ⟨rfl, .inr ⟨rfl, .inl ?_⟩⟩⟩⟩
      have hzero : objectRank ⟨{ m.index with directory := m.index.directory.detachSegments m.objectTarget },
          m.lowWater⟩ = 0 := by
        have hnone : ¬((m.index.directory.detachSegments m.objectTarget).softGrowth m.nobjects).isSome = true := by
          simp [hgrowth']
        refine (if_neg hnone).trans (if_neg fun hlt => ?_)
        have : objectLowWaterTarget m.nobjects m.objectTarget < m.objectTarget := hlt
        rw [objectTarget, Directory.lowWaterTarget_target] at this
        exact Nat.lt_irrefl _ this
      have hone : m.objectRank = 1 := by simp [objectRank, hgrowth, hobj]
      rw [hzero, hone]
      exact Nat.zero_lt_one
    · exact .of_lt rfl (fun hon => by simp [LowWater.cancel] at hon) (lt_of_lowWater rfl hcancel)
    · exact .same hactive (by simp)

theorem eased_shrink (hdue : m.Due (.shrink b n)) :
    Eased m (m.advance cfg now ok (.shrink b n)).1 (m.advance cfg now ok (.shrink b n)).2 := by
  simp only [advance]
  split_ifs
  · rcases hr : m.lowWaterReady now with ⟨w, _ | _⟩ <;> simp only [publishShrink, hr]
    · simpa using eased_not_ready hr
    · obtain ⟨rfl, hactive, hover, -, hside⟩ := ready_of hr
      split_ifs with hc
      · rcases hp : autoIfPublished (m.index.side.publishAllocated b .shrink) with ⟨side, _ | e⟩
        · have hpub := published hp
          have hlt := hpub.larger rfl
          have hback : (m.withSide side).rollbackRank = 0 := by
            rw [rollbackRank_withSide hpub.objects, hover]
            simp
          have hsize : (m.withSide side).sizeRank < m.sizeRank := by
            rw [sizeRank_withSide, sizeRank, hpub.primary, hactive, SideTable.buckets_fresh]
            simp only [SideTable.fresh, if_true]
            omega
          exact .of_lt hpub.objects trivial (lt_of_side hpub.objects (.inr ⟨hback ▸ Nat.zero_le _, .inl hsize⟩))
        · exact .same (fun _ => hside) (by simp)
      · exact .same (fun _ => hside) (by simp)
  · exact .of_lt rfl (fun hon => by simp [LowWater.cancel] at hon) (lt_of_lowWater rfl (LowWater.rank_cancel hdue))

theorem eased_destination (hdue : m.Due .destination) :
    Eased m (m.advance cfg now ok .destination).1 (m.advance cfg now ok .destination).2 := by
  simp only [advance]
  split
  · rename_i b reason hr
    refine .same (fun hactive hgrow => hdue hactive ?_) (by simp)
    rw [hr, hgrow]
    rfl
  · exact .same trivial (by simp)

theorem eased_publish (hdue : m.Due (.publish b reason)) :
    Eased m (m.advance cfg now ok (.publish b reason)).1 (m.advance cfg now ok (.publish b reason)).2 := by
  simp only [advance, publishDestination]
  split_ifs with hok hr
  · rcases hp : autoIfPublished (m.index.side.publishAllocated b reason) with ⟨side, _ | e⟩
    · have hpub := published hp
      rcases softResize_cases hr with ⟨rfl, rfl, htomb⟩ | ⟨rfl, rfl, hzero, hmax⟩
      · refine eased_published hpub (by simp) ?_
        rw [sizeRank_withSide, sizeRank, hpub.primary, SideTable.buckets_fresh, if_neg htomb]
        simp only [SideTable.fresh, if_true]
        omega
      · refine eased_published hpub (by simp) ?_
        have hidle : m.lowWater.active = false := by
          by_contra hon
          exact hdue (by simpa using hon) rfl
        unfold sizeMax at hmax
        rw [sizeRank_withSide, sizeRank, hpub.primary, hidle, SideTable.buckets_fresh]
        simp only [SideTable.fresh, if_true, Bool.false_eq_true, if_false]
        omega
    · exact .same trivial (by simp)
  · exact .same trivial (by simp)
  · exact .same trivial (by simp)

/-- Every section of a call. -/
theorem eased_advance (cfg : Config α) (now : UInt64) (ok : Bool) (h : m.index.Footing) (hst : st.left ≠ 0)
    (hdue : m.Due st) :
    Eased m (m.advance cfg now ok st).1 (m.advance cfg now ok st).2 := by
  obtain ⟨k, hk⟩ := h.directory
  cases st with
  | promote =>
    simp only [advance]
    split_ifs
    · exact eased_promote (fun _ => trivial) (by simp)
    · exact eased_promote (fun _ => trivial) (by simp)
  | intern => exact eased_intern h.wired
  | side => exact eased_side h.counted
  | object =>
    simp only [advance]
    split
    · rename_i g hg
      exact .same ⟨g, hg, rfl⟩ (by simp)
    · exact .same trivial (by simp)
  | segment oldCapacity => exact eased_segment hk hdue
  | lowWater => exact eased_lowWater hk
  | shrink b n => exact eased_shrink hdue
  | destination => exact eased_destination hdue
  | publish b reason => exact eased_publish hdue
  | done did => exact absurd rfl hst

theorem footing_advance (cfg : Config α) (now : UInt64) (ok : Bool) (st : MaintStage) (h : m.index.Footing) :
    (m.advance cfg now ok st).1.index.Footing := by
  rcases advance_index cfg m now ok st with heq | ⟨e, he⟩
  · rwa [heq]
  · exact h.step he

/-- The rest of a call. -/
theorem eased_finish {env : Env} (h : m.index.Footing) (hst : st.left ≠ 0) (hdue : m.Due st) :
    Eased m (finish cfg env m st).1 (.done (finish cfg env m st).2) ∧ (finish cfg env m st).1.index.Footing := by
  induction hleft : st.left using Nat.strong_induction_on generalizing m st with
  | _ l ih =>
    subst hleft
    have heased := eased_advance cfg (env.now st) (env.ok st) h hst hdue
    have hfoot := footing_advance cfg (env.now st) (env.ok st) st h
    have hlt := left_advance cfg m (env.now st) (env.ok st) hst
    rw [finish, dif_neg hst]
    dsimp only
    rcases hadvance : m.advance cfg (env.now st) (env.ok st) st with ⟨m', st'⟩
    rw [hadvance] at heased hfoot hlt
    dsimp only at heased hfoot hlt ⊢
    by_cases hend : st'.left = 0
    · obtain ⟨did, rfl⟩ : ∃ did, st' = .done did := by
        cases st' with
        | done did => exact ⟨did, rfl⟩
        | _ => simp [MaintStage.left] at hend
      rw [finish, dif_pos hend]
      exact ⟨heased, hfoot⟩
    · obtain ⟨hrest, hfoot'⟩ := ih _ hlt hfoot hend heased.due rfl
      exact ⟨⟨hrest.objects.trans heased.objects, trivial, hrest.rank.trans heased.rank,
        fun hdid => (hrest.less hdid).trans_le heased.rank⟩, hfoot'⟩

/-- A call that returns 1 leaves less work than it found. -/
theorem eased_maintenance (cfg : Config α) (env : Env) (h : m.index.Footing) :
    Eased m (resizeMaintenance cfg env m).1 (.done (resizeMaintenance cfg env m).2) ∧
      (resizeMaintenance cfg env m).1.index.Footing :=
  eased_finish h (by simp [MaintStage.left]) trivial

/-- What every call keeps of the index `s`. -/
structure Stands (s : Index α) (m : Maintained α) : Prop where
  footing : m.index.Footing
  objects : m.index.side.objects = s.side.objects

/-- Maintenance that nothing else interrupts comes to rest, whatever the clock says and whichever allocations fail. No
    call changes the objects, and each leaves room for them in the segments that are there. So every loop around it
    ends. -/
theorem maintenance_drains (cfg : Config α) {s : Index α} (h : Machine.Reach (Index.step cfg) Machine.always Index.new s)
    (w : LowWater) (env : Nat → Env) :
    (∃ k, Rounds.reports (resizeMaintenance cfg) env ⟨s, w⟩ k = false ∧
      ∀ j < k, Rounds.reports (resizeMaintenance cfg) env ⟨s, w⟩ j = true) ∧
    (∀ k, (Rounds.after (resizeMaintenance cfg) env ⟨s, w⟩ k).index.side.objects = s.side.objects ∧
      ∃ j, (Rounds.after (resizeMaintenance cfg) env ⟨s, w⟩ k).index.directory.Holds s.side.objects.length j) ∧
    ∀ stop, ∃ fuel t, Rounds.loop (resizeMaintenance cfg) env stop fuel 0 ⟨s, w⟩ = some t := by
  have init : Stands s ⟨s, w⟩ := ⟨Index.reach_footing h, rfl⟩
  have keep : ∀ (e : Env) (m : Maintained α), Stands s m → Stands s (resizeMaintenance cfg e m).1 := by
    intro e m hm
    obtain ⟨heased, hfoot⟩ := eased_maintenance cfg e hm.footing
    exact ⟨hfoot, heased.objects.trans hm.objects⟩
  have lower : ∀ (e : Env) (m : Maintained α), Stands s m → (resizeMaintenance cfg e m).2 = true →
      (resizeMaintenance cfg e m).1.rank < m.rank := by
    intro e m hm hdid
    exact (eased_maintenance cfg e hm.footing).1.less (congrArg MaintStage.done hdid)
  refine ⟨Rounds.exists_idle init keep lower, fun k => ?_, fun stop => ?_⟩
  · obtain ⟨hfoot, hobj⟩ := Rounds.after_inv init keep k
    obtain ⟨j, hj⟩ := hfoot.directory
    rw [hobj] at hj
    exact ⟨hobj, j, hj⟩
  · obtain ⟨fuel, t, hloop, -⟩ := Rounds.loop_ends init keep lower stop 0
    exact ⟨fuel, t, hloop⟩

end Stages

/-- Twelve attaches, the first of which has the tables made. -/
def twelve : List (IndexEvent Nat) :=
  (List.range 12).flatMap fun i => .begin i [i] 1 true :: List.replicate (if i = 0 then 5 else 1) (.attach i true)

/-- With twelve objects, as low water is observed, the first two calls have something to do. -/
theorem maintenance_drains_twelve : ∃ s, Machine.run (Index.step Index.plainConfig) Index.new twelve = some s ∧
    s.side.objects.length = 12 ∧
    ∃ k, 2 ≤ k ∧ Rounds.reports (resizeMaintenance Index.plainConfig) (fun _ => ⟨fun _ => 7, fun _ => true⟩)
      ⟨s, .start 1 1⟩ k = false := by
  have hrun : (Machine.run (Index.step Index.plainConfig) Index.new twelve).map (fun s => (s.side.objects.length,
      [0, 1].all (Rounds.reports (resizeMaintenance Index.plainConfig) (fun _ => ⟨fun _ => 7, fun _ => true⟩)
        ⟨s, .start 1 1⟩))) = some (12, true) := by decide +kernel
  obtain ⟨s, hs, heq⟩ := Option.map_eq_some_iff.mp hrun
  obtain ⟨hlen, hdid⟩ := Prod.mk.inj heq
  obtain ⟨⟨k, hk, -⟩, -⟩ := maintenance_drains Index.plainConfig (.of_run hs) (.start 1 1)
    fun _ => ⟨fun _ => 7, fun _ => true⟩
  refine ⟨s, hs, hlen, k, ?_, hk⟩
  by_contra hlt
  have hmem : k ∈ [0, 1] := by
    rw [List.mem_pair]
    omega
  exact absurd hk (by simp [List.all_eq_true.mp hdid k hmem])

end Maintained
end Cachetag
