import Cachetag.SideTable.Counts

/-! What each critical section does to an index whose tables have not become full: the objects stay filed,
and only attaches and removals change the dense array. -/

namespace Cachetag.SideIndex
open LinearProbe SideTable

variable {α β : Type*} {H : SideHash α} {s s' : SideIndex α β} {oc : α} {ent : ObjEnt α β} {n : Nat}
  {reason : SideReason}

/-- What the resizing relies on. -/
structure Steady (s : SideIndex α β) : Prop where
  active : s.migrationActive = true ↔ s.retiring.buckets ≠ 0
  both : s.retiring.buckets ≠ 0 → s.primary.buckets ≠ 0
  cursor : s.migrateCursor ≤ s.retiring.buckets
  passed : ∀ i < s.migrateCursor, ∀ f a, s.retiring.bucket i ≠ .live f a

/-- The invariant of the side tables, as long as none has become full. -/
structure Sound (H : SideHash α) (s : SideIndex α β) : Prop where
  filed : Filed H s
  steady : Steady s
  sweep : s.sweepActive = true → s.sweepRemaining ≤ s.objects.length

/-- The primary table can take what is still in the retiring one, and both have an EMPTY bucket then. -/
structure Roomy (s : SideIndex α β) : Prop where
  primary : s.primary.buckets ≠ 0 → s.retiring.live < s.primary.empties
  retiring : s.retiring.buckets ≠ 0 → 0 < s.retiring.empties

/-- What a section leaves when it does not touch the dense array. -/
structure Resizes (H : SideHash α) (s s' : SideIndex α β) : Prop where
  sound : Sound H s'
  objects : s'.objects = s.objects
  sweepActive : s'.sweepActive = s.sweepActive
  sweepRemaining : s'.sweepRemaining = s.sweepRemaining

theorem Roomy.open (h : s.Roomy) : s.Open := by
  intro r hr
  cases r with
  | false => exact Nat.lt_of_le_of_lt (Nat.zero_le _) (h.primary hr)
  | true => exact h.retiring hr

theorem Sound.resizes (h : Sound H s) : Resizes H s s := ⟨h, rfl, rfl, rfl⟩

theorem Resizes.trans {t : SideIndex α β} (h₁ : Resizes H s s') (h₂ : Resizes H s' t) : Resizes H s t :=
  ⟨h₂.sound, h₂.objects.trans h₁.objects, h₂.sweepActive.trans h₁.sweepActive,
    h₂.sweepRemaining.trans h₁.sweepRemaining⟩

theorem Sound.new : Sound H (SideIndex.new : SideIndex α β) where
  filed := .new
  steady :=
    { active := by simp [SideIndex.new]
      both := fun h => absurd rfl h
      cursor := Nat.le_refl _
      passed := fun i hi => absurd hi (Nat.not_lt_zero i) }
  sweep := by simp [SideIndex.new]

theorem Roomy.new : Roomy (SideIndex.new : SideIndex α β) := ⟨fun h => absurd rfl h, fun h => absurd rfl h⟩

theorem Open.new : Open (SideIndex.new : SideIndex α β) := Roomy.new.open

theorem Steady.thins (h : Steady s) (ht : Thins s s') : Steady s' where
  active := by
    have hr := ht.buckets true
    rw [table_true, table_true] at hr
    rw [ht.active, hr]
    exact h.active
  both := by
    have hp := ht.buckets false
    have hr := ht.buckets true
    rw [table_false, table_false] at hp
    rw [table_true, table_true] at hr
    rw [hp, hr]
    exact h.both
  cursor := by
    have hr := ht.buckets true
    rw [table_true, table_true] at hr
    rw [ht.cursor, hr]
    exact h.cursor
  passed i hi f a hb := by
    obtain ⟨b, hb⟩ := ht.bucket true i f a hb
    exact h.passed i (ht.cursor ▸ hi) f b hb

theorem Roomy.thins (h : s.Roomy) (ht : Thins s s') : s'.Roomy where
  primary hne := by
    have hp := ht.buckets false
    have he := ht.empties false
    have hl := ht.live true
    rw [table_false, table_false] at hp he
    rw [table_true, table_true] at hl
    rw [he]
    exact Nat.lt_of_le_of_lt hl (h.primary (hp ▸ hne))
  retiring := ht.open h.open true

/-- A table with an EMPTY bucket has fewer live entries than buckets. -/
theorem Filed.live_lt (h : Filed H s) (hopen : s.Open) (r : Bool) (hr : (s.table r).buckets ≠ 0) :
    (s.table r).live < (s.table r).buckets := by
  have := (h.intact r).kinds
  have := hopen r hr
  omega

theorem Sound.retiring_null (h : Sound H s) (hidle : ¬s.migrationActive = true) : s.retiring.live = 0 := by
  have hb : s.retiring.buckets = 0 := by
    by_contra hne
    exact hidle (h.steady.active.mpr hne)
  have := (h.filed.intact true).kinds
  rw [table_true] at this
  omega

/-! ### Publications -/

/-- What a publication does, if it does anything. -/
def Publishes (H : SideHash α) (s : SideIndex α β) (r : SideIndex α β × Option SideErr) : Prop :=
  Resizes H s r.1 ∧ r.2 ≠ some .efault ∧ (s.Roomy → r.1.Roomy)

theorem Sound.publishes (h : Sound H s) {e : Option SideErr} (he : e ≠ some .efault) : Publishes H s (s, e) :=
  ⟨h.resizes, he, id⟩

theorem Sound.publishMigration (h : Sound H s) (hn : PowTwo n) (hroom : s.primary.buckets ≠ 0 → s.primary.live < n) :
    Publishes H s (s.publishMigration n reason) := by
  have hmask : n &&& (n - 1) = 0 := by rw [and_mask hn, Nat.mod_self]
  rw [SideIndex.publishMigration, if_neg (by simp [hn.pos.ne', hmask])]
  split_ifs with hactive hprim
  · exact h.publishes (by simp)
  · have hlive := h.retiring_null hactive
    refine ⟨⟨⟨h.filed.shuffled rfl Bool.not Bool.not_not fun r => ?_, ?_, h.sweep⟩, rfl, rfl, rfl⟩, by simp, fun hr => ?_⟩
    · cases r with
      | false => exact .inr ⟨.fresh hn, hlive⟩
      | true => exact .inl rfl
    · exact
        { active := by simpa using hprim
          both := fun _ => by simpa using hn.pos.ne'
          cursor := Nat.zero_le _
          passed := fun i hi => absurd hi (Nat.not_lt_zero i) }
    · exact ⟨fun _ => by simpa using hroom hprim, hr.open false⟩
  · have hlive := h.retiring_null hactive
    have hz : s.primary.live = 0 := by
      have := (h.filed.intact false).kinds
      rw [table_false] at this
      omega
    refine ⟨⟨⟨h.filed.shuffled rfl id (fun _ => rfl) fun r => ?_, ?_, h.sweep⟩, rfl, rfl, rfl⟩, by simp, fun _ => ?_⟩
    · cases r with
      | false => exact .inr ⟨.fresh hn, hz⟩
      | true => exact .inr ⟨.null, hlive⟩
    · exact
        { active := by simp [endMigration]
          both := fun hb => absurd rfl hb
          cursor := Nat.zero_le _
          passed := fun i hi => absurd hi (Nat.not_lt_zero i) }
    · refine ⟨fun _ => ?_, fun hb => absurd rfl hb⟩
      show 0 < (fresh n).empties
      rw [empties_fresh]
      exact hn.pos

theorem Publishes.auto {r : SideIndex α β × Option SideErr} (h : Publishes H s r) : Publishes H s (autoIfPublished r) := by
  obtain ⟨t, e⟩ := r
  cases e with
  | some e => exact h
  | none =>
    obtain ⟨⟨⟨hf, hs, hw⟩, ho, ha, hr⟩, -, hroom⟩ := h
    have hf' : Filed H { t with migrationAuto := t.migrationActive } :=
      hf.shuffled rfl id (fun _ => rfl) fun r => .inl (by cases r <;> rfl)
    exact ⟨⟨⟨hf', ⟨hs.active, hs.both, hs.cursor, hs.passed⟩, hw⟩, ho, ha, hr⟩, by simp [autoIfPublished],
      fun h => ⟨(hroom h).primary, (hroom h).retiring⟩⟩

theorem Sound.publishAllocated (h : Sound H s) (hn : PowTwo n) (hroom : s.primary.buckets ≠ 0 → s.primary.live < n) :
    Publishes H s (s.publishAllocated n reason) := by
  unfold SideIndex.publishAllocated
  split_ifs
  · exact h.publishes (by simp)
  · exact h.publishes (by simp)
  · exact h.publishes (by simp)
  · exact h.publishes (by simp)
  · exact h.publishMigration hn hroom

theorem Sound.pow_primary (h : Sound H s) (hb : s.primary.buckets ≠ 0) : PowTwo s.primary.buckets :=
  (h.filed.intact false).pow hb

theorem powTwo_sideDefaultBuckets : PowTwo sideDefaultBuckets := ⟨6, rfl⟩

theorem Sound.publishForInsert (h : Sound H s) (hopen : s.Open) : Publishes H s (s.publishForInsert n reason) := by
  unfold SideIndex.publishForInsert
  by_cases hb : s.primary.buckets = 0
  · rw [if_pos hb]
    split_ifs with hn
    · exact h.publishes (by simp)
    · rw [not_not.mp hn]
      exact (h.publishMigration powTwo_sideDefaultBuckets fun hne => absurd hb hne).auto
  · have hlt := h.filed.live_lt hopen false hb
    rw [table_false] at hlt
    rw [if_neg hb]
    by_cases hactive : s.migrationActive = true
    · rw [if_pos hactive]
      exact h.publishes (by simp)
    rw [if_neg hactive]
    by_cases hload : s.primary.UnderHardLoad
    · rw [if_pos hload]
      exact h.publishes (by simp)
    rw [if_neg hload]
    cases reason with
    | rebuild =>
      dsimp only
      split_ifs with hn
      · exact h.publishes (by simp)
      · rw [not_not.mp hn]
        exact (h.publishMigration (h.pow_primary hb) fun _ => hlt).auto
    | grow =>
      dsimp only
      split_ifs with hn
      · exact h.publishes (by simp)
      · rw [not_not.mp hn]
        exact (h.publishMigration (h.pow_primary hb).double fun _ => by omega).auto
    | none => exact h.publishes (by simp)
    | shrink => exact h.publishes (by simp)
    | rollback => exact h.publishes (by simp)

/-- A resize that the load asks for goes to the same size or to the double. -/
theorem Sound.softResize (h : Sound H s) (hopen : s.Open) (hr : s.softResize = some (n, reason)) :
    PowTwo n ∧ (s.primary.buckets ≠ 0 → s.primary.live < n) := by
  unfold SideIndex.softResize at hr
  dsimp only at hr
  split_ifs at hr with hidle
  · cases hr
    have hb := (not_or.mp hidle).2
    exact ⟨h.pow_primary hb, fun hb => h.filed.live_lt hopen false hb⟩
  · cases hr
    have hb := (not_or.mp hidle).2
    have hlt := h.filed.live_lt hopen false hb
    rw [table_false] at hlt
    exact ⟨(h.pow_primary hb).double, fun _ => by omega⟩

theorem Sound.publishSideDestination (h : Sound H s) (hopen : s.Open) :
    Publishes H s (s.publishSideDestination n reason) := by
  unfold SideIndex.publishSideDestination
  split_ifs with hr
  · obtain ⟨hn, hroom⟩ := h.softResize hopen hr
    exact (h.publishAllocated hn hroom).auto
  · exact h.publishes (by simp)

/-- The size that a shrink goes to is a power of two, four times the number of objects or more. -/
theorem lowWaterLoop_spec (s : SideIndex α β) (fuel : Nat) {b : Nat} (hb : PowTwo b) :
    s.lowWaterLoop fuel b = s.primary.buckets ∨
      PowTwo (s.lowWaterLoop fuel b) ∧ s.objects.length ≤ s.lowWaterLoop fuel b / 4 := by
  induction fuel generalizing b with
  | zero => exact .inl rfl
  | succ fuel ih =>
    unfold lowWaterLoop
    split_ifs with hle hmax
    · exact .inr ⟨hb, hle⟩
    · exact .inl rfl
    · exact ih hb.double

theorem Sound.publishShrink (h : Sound H s) : Publishes H s (s.publishShrink n) := by
  unfold SideIndex.publishShrink
  split_ifs with hc
  · obtain ⟨-, hidle, rfl, hlt⟩ := hc
    have hidle : ¬s.migrationActive = true := by simpa using hidle
    have hb : s.primary.buckets ≠ 0 := by omega
    unfold lowWaterTarget at hlt ⊢
    by_cases hzero : s.objects.length = 0
    · -- Nothing is published for a target of no buckets.
      rw [if_pos hzero]
      have hno : s.publishAllocated 0 .shrink = (s, some .einval) := by
        simp [SideIndex.publishAllocated, SideIndex.publishMigration, hidle, hb]
      rw [hno]
      exact h.publishes (by simp)
    · rw [if_neg hzero, if_neg (by simp [hb, hidle])] at hlt ⊢
      rcases lowWaterLoop_spec s 59 powTwo_sideDefaultBuckets with heq | ⟨hn, hle⟩
      · omega
      · have hsum := h.filed.sum
        exact (h.publishAllocated hn fun _ => by omega).auto
  · exact h.publishes (by simp)

theorem Sound.detachAll (h : Sound H s) (hzero : s.objects.length = 0) :
    Resizes H s s.detachAll ∧ s.detachAll.Roomy := by
  refine ⟨⟨⟨?_, ?_, h.sweep⟩, rfl, rfl, rfl⟩, fun hb => absurd rfl hb, fun hb => absurd rfl hb⟩
  · refine h.filed.shuffled rfl id (fun _ => rfl) fun r => .inr ?_
    have := h.filed.sum
    cases r with
    | false => exact ⟨.null, by show s.primary.live = 0; omega⟩
    | true => exact ⟨.null, by show s.retiring.live = 0; omega⟩
  · exact
      { active := by simp [SideIndex.detachAll, endMigration]
        both := fun hb => absurd rfl hb
        cursor := Nat.zero_le _
        passed := fun i hi => absurd hi (Nat.not_lt_zero i) }

/-- A shrink that is under way. -/
def Shrinking (s : SideIndex α β) : Prop := s.migrationActive = true ∧ s.migrationReason = .shrink

instance (s : SideIndex α β) : Decidable s.Shrinking := inferInstanceAs (Decidable (_ ∧ _))

/-- The larger table of a shrink has room for what the smaller one holds. -/
def RollbackRoom (s : SideIndex α β) : Prop := s.primary.live < s.retiring.empties

instance (s : SideIndex α β) : Decidable s.RollbackRoom := inferInstanceAs (Decidable (_ < _))

/-- A rollback makes the tables change places. -/
structure RollsBack (H : SideHash α) (s s' : SideIndex α β) : Prop where
  resizes : Resizes H s s'
  shrinking : s.Shrinking
  primary : s'.primary = s.retiring
  retiring : s'.retiring = s.primary
  active : s'.migrationActive = true
  roomy : s.RollbackRoom → s.Roomy → s'.Roomy

theorem Sound.rollbackShrink (h : Sound H s) (hr : s.rollbackShrink = some s') : RollsBack H s s' := by
  obtain ⟨hactive, hreason, hb, rfl⟩ := rollbackShrink_eq hr
  have hp := h.steady.both hb
  refine ⟨⟨⟨?_, ?_, h.sweep⟩, rfl, rfl, rfl⟩, ⟨hactive, hreason⟩, rfl, rfl, hactive, fun hroom hr => ?_⟩
  · exact h.filed.shuffled rfl Bool.not Bool.not_not fun r => .inl (by cases r <;> rfl)
  · exact
      { active := by simpa [hactive] using hp
        both := fun _ => hb
        cursor := Nat.zero_le _
        passed := fun i hi => absurd hi (Nat.not_lt_zero i) }
  · exact ⟨fun _ => hroom, fun hb => hr.open false hb⟩

theorem RollsBack.open (h : RollsBack H s s') (hopen : s.Open) : s'.Open := by
  intro r hr
  cases r with
  | false =>
    rw [table_false, h.primary] at hr ⊢
    exact hopen true hr
  | true =>
    rw [table_true, h.retiring] at hr ⊢
    exact hopen false hr

/-! ### Inserts -/

/-- A prepare, with or without a rollback. -/
structure Prepares (H : SideHash α) (s s' : SideIndex α β) (p : SidePrepare) : Prop where
  resizes : Resizes H s s'
  open' : s.Open → s'.Open
  roomy : (¬s.primary.UnderHardLoad → s.Shrinking → s.RollbackRoom) → s.Roomy → s'.Roomy
  ready : p = .ready → s'.primary.buckets ≠ 0 ∧
    (s' = s ∧ s.primary.UnderHardLoad ∨
      ¬s.primary.UnderHardLoad ∧ s.Shrinking ∧ s.retiring.UnderHardLoad ∧
        s'.primary = s.retiring ∧ s'.retiring = s.primary)

theorem Sound.prepares (h : Sound H s) {p : SidePrepare} (hp : p ≠ .ready) : Prepares H s s p :=
  ⟨h.resizes, id, fun _ => id, fun hr => absurd hr hp⟩

theorem Sound.prepareInsert (h : Sound H s) : Prepares H s s.prepareInsert.1 s.prepareInsert.2 := by
  unfold SideIndex.prepareInsert
  dsimp only
  by_cases hb : s.primary.buckets = 0
  · rw [if_pos hb]
    exact h.prepares (by simp)
  rw [if_neg hb]
  by_cases hload : s.primary.UnderHardLoad
  · rw [if_pos hload]
    exact ⟨h.resizes, id, fun _ => id, fun _ => ⟨hb, .inl ⟨rfl, hload⟩⟩⟩
  rw [if_neg hload]
  by_cases hactive : s.migrationActive = true
  · rw [if_pos hactive]
    cases hr : s.rollbackShrink with
    | none => exact h.prepares (by simp)
    | some s' =>
      have hrb := h.rollbackShrink hr
      refine ⟨hrb.resizes, hrb.open, fun hroll => hrb.roomy (hroll hload hrb.shrinking), fun hready => ?_⟩
      dsimp only at hready
      split at hready
      · rename_i hload'
        rw [hrb.primary] at hload'
        refine ⟨?_, .inr ⟨hload, hrb.shrinking, hload', hrb.primary, hrb.retiring⟩⟩
        dsimp only
        rw [hrb.primary]
        exact h.steady.active.mp hactive
      · cases hready
  rw [if_neg hactive]
  split_ifs
  · exact h.prepares (by simp)
  · exact h.prepares (by simp)
  · exact h.prepares (by simp)

/-- An attach that gets as far as `cachetag_side_prepare_insert_locked`. -/
def TakesIn (s : SideIndex α β) (oc : α) : Prop := s.objects.length < sideMaxObjects ∧ oc ∉ s.ocs

instance [DecidableEq α] (s : SideIndex α β) (oc : α) : Decidable (s.TakesIn oc) := inferInstanceAs (Decidable (_ ∧ _))

/-- `t` has room for an object and for all entries of `other`: the bucket for the object is a tombstone, or
    an EMPTY one that `other` does not need. -/
def InsertRoom (H : SideHash α) (t other : SideTable) (oc : α) : Prop :=
  other.live + (if TombOnPath H t oc then 0 else 1) < t.empties

instance (H : SideHash α) (t other : SideTable) (oc : α) : Decidable (InsertRoom H t other oc) :=
  inferInstanceAs (Decidable (_ < _))

section Sections
variable [DecidableEq α]

/-- The first part of an attach, which does not insert. -/
structure Attaches (H : SideHash α) (s s' : SideIndex α β) (oc : α) (e : Option SideErr) : Prop where
  resizes : Resizes H s s'
  open' : s.Open → s'.Open
  fine : e ≠ some .efault
  roomy : (s.TakesIn oc → ¬s.primary.UnderHardLoad → s.Shrinking → s.RollbackRoom) → s.Roomy → s'.Roomy
  ready : e = none → s.TakesIn oc ∧ s.prepareInsert.2 = .ready ∧ s' = s.prepareInsert.1

theorem Sound.attachPrepare (h : Sound H s) (hopen : s.Open) (oc : α) :
    Attaches H s (s.attachPrepare H oc).1 oc (s.attachPrepare H oc).2 := by
  have refused : ∀ e : SideErr, e ≠ .efault → Attaches H s s oc (some e) := fun e he =>
    ⟨h.resizes, id, by simpa using he, fun _ => id, fun hr => by cases hr⟩
  unfold SideIndex.attachPrepare
  by_cases hfew : sideMaxObjects ≤ s.objects.length
  · rw [if_pos hfew]
    exact refused _ (by simp)
  rw [if_neg hfew]
  by_cases ho : oc ∈ s.ocs
  · obtain ⟨a, ha⟩ := List.mem_iff_getElem?.mp ho
    obtain ⟨r, i, hf, -⟩ := h.filed.find_found hopen ha
    rw [hf]
    exact refused _ (by simp)
  · rw [h.filed.find_absent hopen ho]
    have htakes : s.TakesIn oc := ⟨by omega, ho⟩
    have hprep := h.prepareInsert
    dsimp only
    cases hp : s.prepareInsert with
    | mk s' p =>
      rw [hp] at hprep
      have hroomy : (s.TakesIn oc → ¬s.primary.UnderHardLoad → s.Shrinking → s.RollbackRoom) → s.Roomy → s'.Roomy :=
        fun hroll => hprep.roomy (hroll htakes)
      cases p with
      | ready => exact ⟨hprep.resizes, hprep.open', by simp, hroomy, fun _ => ⟨htakes, by rw [hp], by rw [hp]⟩⟩
      | again n reason => exact ⟨hprep.resizes, hprep.open', by simp, hroomy, fun hr => by cases hr⟩
      | busy => exact ⟨hprep.resizes, hprep.open', by simp, hroomy, fun hr => by cases hr⟩
      | overflow => exact ⟨hprep.resizes, hprep.open', by simp, hroomy, fun hr => by cases hr⟩

/-- An entry behind the last one. -/
theorem Sound.append (h : Sound H s) (hopen : s.Open) (hb : s.primary.buckets ≠ 0) (htakes : s.TakesIn ent.oc) :
    ∃ s', s.append H ent = (s', none) ∧ Sound H s' ∧ s'.objects = s.objects ++ [ent] ∧
      s'.sweepActive = s.sweepActive ∧ s'.sweepRemaining = s.sweepRemaining ∧
      (InsertRoom H s.primary s.retiring ent.oc → s.Roomy → s'.Roomy) := by
  have hscan : s.primary.Scannable s.ocs := (h.filed.searchable hopen).tables false hb
  have hlacks : Lacks s.ocs s.primary ent.oc := fun _ _ _ _ ho => htakes.2 (List.mem_of_getElem? ho)
  obtain ⟨i, hi, hins, hpath, hkind⟩ := hscan.insert_ok H htakes.1 hlacks
  have hfree : s.primary.bucket i = .tombstone ∨ s.primary.bucket i = .empty := hkind.imp_right And.left
  have hfiled := h.filed.attached hi hfree hpath htakes.2 htakes.1
  have hsteady := h.steady
  refine ⟨_, by rw [SideIndex.append, hins], ⟨hfiled, ?_, fun hact => ?_⟩, rfl, rfl, rfl, fun hroom hr => ?_⟩
  · exact
      { active := hsteady.active
        both := fun hb => by simpa using hsteady.both hb
        cursor := hsteady.cursor
        passed := hsteady.passed }
  · have := h.sweep hact
    show s.sweepRemaining ≤ (s.objects ++ [ent]).length
    rw [List.length_append]
    omega
  · refine ⟨fun _ => ?_, hr.retiring⟩
    show s.retiring.live < (s.primary.fill i (H.mark ent.oc) s.objects.length).empties
    unfold InsertRoom at hroom
    rw [empties_fill hi]
    rcases hkind with htomb | ⟨hempty, hno⟩
    · rw [if_neg (by rw [htomb]; simp)]
      omega
    · rw [if_neg hno] at hroom
      rw [if_pos hempty]
      omega

/-- A whole attach, which refuses and changes no entry or appends the new one. -/
theorem Sound.attach (h : Sound H s) (hopen : s.Open) (ent : ObjEnt α β) :
    (s.attach H ent).2 ≠ some .efault ∧ Sound H (s.attach H ent).1 ∧
      (s.attach H ent).1.sweepActive = s.sweepActive ∧ (s.attach H ent).1.sweepRemaining = s.sweepRemaining ∧
      ((s.attach H ent).2 = none ∧ s.TakesIn ent.oc ∧ (s.attach H ent).1.objects = s.objects ++ [ent] ∨
        (s.attach H ent).2 ≠ none ∧ (s.attach H ent).1.objects = s.objects) := by
  have hatt := h.attachPrepare hopen ent.oc
  unfold SideIndex.attach
  cases hp : s.attachPrepare H ent.oc with
  | mk s' e =>
    rw [hp] at hatt
    cases e with
    | some e =>
      exact ⟨hatt.fine, hatt.resizes.sound, hatt.resizes.sweepActive, hatt.resizes.sweepRemaining,
        .inr ⟨by simp, hatt.resizes.objects⟩⟩
    | none =>
      obtain ⟨htakes, hready, heq⟩ := hatt.ready rfl
      obtain ⟨hb, -⟩ := h.prepareInsert.ready hready
      have htakes' : s'.TakesIn ent.oc := by
        unfold TakesIn
        rw [hatt.resizes.objects, ocs_congr hatt.resizes.objects]
        exact htakes
      obtain ⟨t, happ, hsound, hobj, hact, hrem, -⟩ :=
        hatt.resizes.sound.append (hatt.open' hopen) (heq ▸ hb) htakes'
      dsimp only
      rw [happ]
      exact ⟨by simp, hsound, hact.trans hatt.resizes.sweepActive, hrem.trans hatt.resizes.sweepRemaining,
        .inl ⟨rfl, htakes, by rw [hobj, hatt.resizes.objects]⟩⟩

/-! ### Migrations -/

/-- A full table takes nothing in. -/
theorem insert_full {t t' : SideTable} {l : List α} {a : Nat} (ht : t.Intact) (hfull : t.empties = 0) :
    SideTable.insert H l t oc a ≠ .ok t' := by
  intro hins
  unfold SideTable.insert at hins
  split_ifs at hins with hb hmax
  split at hins
  · cases hins
  · cases hins
  · rename_i i hw
    have hpow := ht.pow hb
    have hhome : t.home H oc < t.buckets := by
      rw [home, and_mask hpow]
      exact Nat.mod_lt _ hpow.pos
    obtain ⟨acc, p, hp, hvisit⟩ := exists_of_walk hpow hhome hw
    have hempty : t.bucket p = .empty := by
      unfold insertVisit at hvisit
      grind
    have := empties_pos.mpr ⟨p, hp, hempty⟩
    omega

/-- A bucket that a migration looks at is dead afterwards, unless the primary table is full. -/
theorem Sound.migrateBucket (h : Sound H s) (hactive : s.migrationActive = true) :
    Resizes H s (s.migrateBucket H).1 ∧ (s.migrateBucket H).1.migrationActive = true ∧
      (s.migrateBucket H).1.migrateCursor = s.migrateCursor ∧
      (s.migrateBucket H).1.retiring.buckets = s.retiring.buckets ∧
      ((s.migrateBucket H).2 = none → ∀ f a, (s.migrateBucket H).1.retiring.bucket s.migrateCursor ≠ .live f a) ∧
      (s.Roomy → (s.migrateBucket H).2 = none ∧ (s.migrateBucket H).1.Roomy) := by
  unfold SideIndex.migrateBucket
  cases hb : s.retiring.bucket s.migrateCursor with
  | empty =>
    dsimp only
    exact ⟨h.resizes, hactive, rfl, rfl, fun _ f a => by rw [hb]; simp, fun hr => ⟨rfl, hr⟩⟩
  | tombstone =>
    dsimp only
    exact ⟨h.resizes, hactive, rfl, rfl, fun _ f a => by rw [hb]; simp, fun hr => ⟨rfl, hr⟩⟩
  | live f a =>
    obtain ⟨oc, ho, -, -⟩ := h.filed.entry true s.migrateCursor f a hb
    have hret := h.steady.active.mp hactive
    have hprim := h.steady.both hret
    simp only [ho]
    by_cases hfull : s.primary.empties = 0
    · cases hins : s.primary.insert H s.ocs oc a with
      | error r =>
        refine ⟨h.resizes, hactive, rfl, rfl, fun hr => (by cases hr), fun hr => ?_⟩
        have := hr.primary hprim
        omega
      | ok t => exact absurd hins (insert_full (h.filed.intact false) hfull)
    · have hscan : s.primary.Scannable s.ocs :=
        { pow := h.pow_primary hprim
          room := Nat.pos_of_ne_zero hfull
          slots := fun i g c hj => by
            obtain ⟨x, hx, -⟩ := h.filed.entry false i g c hj
            exact (List.getElem?_eq_some_iff.mp hx).1 }
      -- The primary table has no bucket of this object, since the retiring one has it.
      have hlacks : Lacks s.ocs s.primary oc := by
        intro j g c hj hc
        cases h.filed.slot_unique hc ho
        cases (h.filed.uniq false j g true s.migrateCursor f _ hj hb).1
      have hslot : a < sideMaxObjects := Nat.lt_of_lt_of_le (lt_of_ocs ho) h.filed.few
      obtain ⟨i, hi, hins, hpath, hkind⟩ := hscan.insert_ok H hslot hlacks
      have hfree : s.primary.bucket i = .tombstone ∨ s.primary.bucket i = .empty := hkind.imp_right And.left
      have hlive : 0 < s.retiring.live := (h.filed.intact true).live_pos hb
      have hfiled := h.filed.migrated hb ho hi hfree hpath
      simp only [hins]
      refine ⟨⟨⟨hfiled, ?_, h.sweep⟩, rfl, rfl, rfl⟩, hactive, trivial, buckets_bury, fun _ g c => ?_,
        fun hr => ⟨trivial, ?_⟩⟩
      · exact
          { active := by simpa using h.steady.active
            both := by simpa using h.steady.both
            cursor := by simpa using h.steady.cursor
            passed := fun j hj g c => by
              rw [bucket_bury (lt_of_live hb)]
              split
              · simp
              · exact h.steady.passed j hj g c }
      · rw [bucket_bury (lt_of_live hb), if_pos rfl]
        simp
      · refine ⟨fun _ => ?_, fun _ => ?_⟩
        · have := hr.primary hprim
          show s.retiring.live - 1 < (s.primary.fill i (H.mark oc) a).empties
          rw [empties_fill hi]
          split <;> omega
        · show 0 < (s.retiring.bury s.migrateCursor).empties
          rw [empties_bury hb]
          exact hr.retiring hret

omit [DecidableEq α] in
theorem Sound.advance (h : Sound H s) (hlt : s.migrateCursor < s.retiring.buckets)
    (hdead : ∀ f a, s.retiring.bucket s.migrateCursor ≠ .live f a) :
    Resizes H s { s with migrateCursor := s.migrateCursor + 1 } where
  sound :=
    { filed := h.filed.shuffled rfl id (fun _ => rfl) fun r => .inl (by cases r <;> rfl)
      steady :=
        { active := h.steady.active
          both := h.steady.both
          cursor := hlt
          passed := fun j hj => by
            rcases Nat.lt_succ_iff_lt_or_eq.mp hj with hj | rfl
            · exact h.steady.passed j hj
            · exact hdead }
      sweep := h.sweep }
  objects := rfl
  sweepActive := rfl
  sweepRemaining := rfl

theorem Sound.migrateLoop (h : Sound H s) (hactive : s.migrationActive = true) (n : Nat) :
    Resizes H s (migrateLoop H n s).1 ∧ (migrateLoop H n s).1.migrationActive = true ∧
      (s.Roomy → (migrateLoop H n s).2 = none ∧ (migrateLoop H n s).1.Roomy) := by
  induction n generalizing s with
  | zero => exact ⟨h.resizes, hactive, fun hr => ⟨rfl, hr⟩⟩
  | succ n ih =>
    unfold SideIndex.migrateLoop
    split_ifs with hlt
    · obtain ⟨hres, hactive', hcur, hbuckets, hdead, hroomy⟩ := h.migrateBucket hactive
      cases hm : s.migrateBucket H with
      | mk s' e =>
        rw [hm] at hres hactive' hcur hbuckets hdead hroomy
        cases e with
        | some r => exact ⟨hres, hactive', fun hr => by cases (hroomy hr).1⟩
        | none =>
          dsimp only at hres hcur hbuckets hdead hroomy ⊢
          rw [← hcur] at hdead
          have hadv := hres.sound.advance (by omega) (hdead rfl)
          obtain ⟨hres', hact, hroomy'⟩ := ih hadv.sound hactive'
          exact ⟨(hres.trans hadv).trans hres', hact, fun hr => hroomy' ⟨(hroomy hr).2.primary, (hroomy hr).2.retiring⟩⟩
    · exact ⟨h.resizes, hactive, fun hr => ⟨rfl, hr⟩⟩

/-- A migration step, which cannot fail as long as there is room. -/
theorem Sound.migrateSome (h : Sound H s) (n : Nat) : Resizes H s (s.migrateSome H n).1 ∧
    (s.Roomy → (s.migrateSome H n).2 = none ∧ (s.migrateSome H n).1.Roomy) := by
  unfold SideIndex.migrateSome
  by_cases hactive : s.migrationActive = true
  -- A migration that is active has both tables.
  · have hret := h.steady.active.mp hactive
    have hprim := h.steady.both hret
    rw [if_neg (by simp [hactive]), if_neg (by simp [hret, hprim])]
    by_cases hn : n = 0
    · rw [if_pos hn]
      exact ⟨h.resizes, fun hr => ⟨rfl, hr⟩⟩
    rw [if_neg hn]
    obtain ⟨hres, hactive', hroomy⟩ := h.migrateLoop hactive n
    cases hm : SideIndex.migrateLoop H n s with
    | mk s' e =>
      rw [hm] at hres hactive' hroomy
      cases e with
      | some r => exact ⟨hres, fun hr => by cases (hroomy hr).1⟩
      | none =>
        have hs' := hres.sound
        dsimp only at hs' hroomy ⊢
        by_cases hend : s'.migrateCursor = s'.retiring.buckets
        · -- Past the last bucket no live one is left.
          have hzero : s'.retiring.live = 0 := by
            by_contra hne
            have hpos : 0 < s'.retiring.lives := (hs'.filed.intact true).live ▸ Nat.pos_of_ne_zero hne
            obtain ⟨i, f, a, hb⟩ := exists_live hpos
            exact hs'.steady.passed i (hend ▸ lt_of_live hb) f a hb
          rw [if_pos hend, if_neg (not_not.mpr hzero)]
          refine ⟨⟨⟨?_, ?_, hs'.sweep⟩, hres.objects, hres.sweepActive, hres.sweepRemaining⟩, fun hr => ⟨rfl, ?_⟩⟩
          · exact hs'.filed.shuffled rfl id (fun _ => rfl) fun r => by
              cases r with
              | false => exact .inl rfl
              | true => exact .inr ⟨.null, hzero⟩
          · exact
              { active := by simp [endMigration]
                both := fun hb => absurd rfl hb
                cursor := Nat.zero_le _
                passed := fun i hi => absurd hi (Nat.not_lt_zero i) }
          · exact ⟨fun hb => (hroomy hr).2.open false hb, fun hb => absurd rfl hb⟩
        · rw [if_neg hend]
          exact ⟨hres, fun hr => ⟨rfl, (hroomy hr).2⟩⟩
  · rw [if_pos (by simpa using hactive)]
    exact ⟨h.resizes, fun hr => ⟨rfl, hr⟩⟩

/-- A batch of the resize worker. -/
theorem Sound.migrateSideBatch (h : Sound H s) (overrun : Bool) : Resizes H s (s.migrateSideBatch H overrun).1 ∧
    ((overrun = true → s.migrationAuto = true → s.Shrinking → s.RollbackRoom) → s.Roomy →
      (s.migrateSideBatch H overrun).2 = none ∧ (s.migrateSideBatch H overrun).1.Roomy) := by
  rcases migrateSideBatch_cases H s overrun with ⟨-, hsame⟩ | ⟨hon, s', t, hfrom, hstep⟩
  · rw [hsame]
    exact ⟨h.resizes, fun _ hr => ⟨rfl, hr⟩⟩
  · obtain ⟨hres, hroom⟩ : Resizes H s s' ∧
        ((overrun = true → s.migrationAuto = true → s.Shrinking → s.RollbackRoom) → s.Roomy → s'.Roomy) := by
      rcases hfrom with rfl | ⟨hover, hr⟩
      · exact ⟨h.resizes, fun _ => id⟩
      · have hrb := h.rollbackShrink hr
        exact ⟨hrb.resizes, fun hadm => hrb.roomy (hadm hover hon.2 hrb.shrinking)⟩
    obtain ⟨hres', hroomy⟩ := hres.sound.migrateSome resizeSideBatchBuckets
    rcases hstep with ⟨hm, hbatch⟩ | ⟨e, hm, hbatch⟩ <;> rw [hm] at hres' hroomy <;> rw [hbatch]
    · exact ⟨hres.trans hres', fun hadm hr => ⟨rfl, (hroomy (hroom hadm hr)).2⟩⟩
    · obtain ⟨⟨hf, hs, hw⟩, ho, ha, hrem⟩ := hres.trans hres'
      have hf' : Filed H { t with migrationAuto := false } :=
        hf.shuffled rfl id (fun _ => rfl) fun r => .inl (by cases r <;> rfl)
      exact ⟨⟨⟨hf', ⟨hs.active, hs.both, hs.cursor, hs.passed⟩, hw⟩, ho, ha, hrem⟩,
        fun hadm hr => by cases (hroomy (hroom hadm hr)).1⟩

/-! ### Removals -/

/-- The object of a slot goes. The one at the boundary takes its slot, and the last one the boundary's. -/
structure Removes (H : SideHash α) (s s' : SideIndex α β) (a : Nat) : Prop where
  sound : Sound H s'
  thins : Thins s s'
  objects : ∃ eb el, s.objects[s.boundary a]? = some eb ∧ s.objects[s.objects.length - 1]? = some el ∧
    s'.objects = ((s.objects.set a eb).set (s.boundary a) el).dropLast
  sweepRemaining : s'.sweepRemaining = if s.sweepActive = true ∧ a < s.sweepRemaining then s.sweepRemaining - 1
    else s.sweepRemaining

theorem Sound.remove (h : Sound H s) (hopen : s.Open) {a : Nat} (ha : a < s.objects.length) :
    ∃ s', s.remove H a = (s', none) ∧ Removes H s s' a := by
  obtain ⟨s', eb, el, hr, hfiled, hthin, heb, hel, hobj, hrem⟩ := h.filed.remove hopen ha h.sweep
  have hlen : s'.objects.length = s.objects.length - 1 := by
    rw [hobj, List.length_dropLast, List.length_set, List.length_set]
  refine ⟨s', hr, ⟨hfiled, h.steady.thins hthin, fun hact => ?_⟩, hthin, ⟨eb, el, heb, hel, hobj⟩, hrem⟩
  rw [hthin.sweepActive] at hact
  have := h.sweep hact
  rw [hrem, hlen]
  split
  · omega
  · rename_i hin
    have : s.sweepRemaining ≤ a := by
      by_contra hlt
      exact hin ⟨hact, by omega⟩
    omega

omit [DecidableEq α] in
theorem perm_set {γ : Type*} {l : List γ} {a : Nat} {x : γ} (h : l[a]? = some x) (y : γ) :
    (x :: l.set a y).Perm (y :: l) := by
  induction l generalizing a with
  | nil => cases h
  | cons z l ih =>
    cases a with
    | zero =>
      cases h
      exact .swap y x l
    | succ a => exact (List.Perm.swap z x _).trans (((ih h).cons z).trans (.swap y z l))

omit [DecidableEq α] in
theorem perm_set_dropLast {γ : Type*} {l : List γ} {a : Nat} {x y : γ} (hx : l[a]? = some x)
    (hy : l[l.length - 1]? = some y) : (x :: (l.set a y).dropLast).Perm l := by
  have hset : (l.set a y).getLast? = some y := by
    rw [List.getLast?_eq_getElem?, List.length_set, List.getElem?_set]
    split
    · rename_i ha
      rw [ha, if_pos (List.getElem?_eq_some_iff.mp hy).1]
    · exact hy
  have hlast := List.dropLast_append_getLast? y hset
  have hperm := perm_set hx y
  rw [← hlast] at hperm
  have hswap := ((List.perm_append_singleton y (l.set a y).dropLast).cons x).symm.trans hperm
  exact ((List.Perm.swap x y _).trans hswap).cons_inv

omit [DecidableEq α] in
theorem Sound.boundary (hs : Sound H s) {a : Nat} (ha : a < s.objects.length) :
    a ≤ s.boundary a ∧ s.boundary a < s.objects.length := by
  unfold SideIndex.boundary
  split
  · rename_i hin
    have := hs.sweep hin.1
    omega
  · omega

omit [DecidableEq α] in
/-- The other objects stay, in another order. -/
theorem Removes.perm {a : Nat} (h : Removes H s s' a) (hs : Sound H s) (ha : s.objects[a]? = some ent) :
    (ent :: s'.objects).Perm s.objects := by
  have hlt := (List.getElem?_eq_some_iff.mp ha).1
  obtain ⟨hle, hb⟩ := hs.boundary hlt
  obtain ⟨eb, el, heb, hel, hobj⟩ := h.objects
  have hat : (s.objects.set a eb)[s.boundary a]? = some eb := by
    rw [List.getElem?_set]
    split
    · rfl
    · exact heb
  have hlast : (s.objects.set a eb)[(s.objects.set a eb).length - 1]? = some el := by
    rw [List.length_set, List.getElem?_set]
    split
    · rename_i heq
      have : s.boundary a = s.objects.length - 1 := by omega
      rw [this] at heb
      exact heb.symm.trans hel
    · exact hel
  rw [hobj]
  have h₁ := (perm_set_dropLast hat hlast).cons ent
  have h₂ := perm_set ha eb
  exact ((List.Perm.swap ent eb _).trans (h₁.trans h₂)).cons_inv

omit [DecidableEq α] in
/-- Below the boundary of a sweep only the removed object is gone, and above it the sweep sees no change. -/
theorem Removes.take {a : Nat} (h : Removes H s s' a) (hs : Sound H s) (hact : s.sweepActive = true)
    (ha : s.objects[a]? = some ent) :
    if a < s.sweepRemaining then
      s'.sweepRemaining = s.sweepRemaining - 1 ∧
        (ent :: s'.objects.take s'.sweepRemaining).Perm (s.objects.take s.sweepRemaining)
    else s'.sweepRemaining = s.sweepRemaining ∧
      s'.objects.take s'.sweepRemaining = s.objects.take s.sweepRemaining := by
  have hlt := (List.getElem?_eq_some_iff.mp ha).1
  have hle := hs.sweep hact
  obtain ⟨eb, el, heb, hel, hobj⟩ := h.objects
  have hrem := h.sweepRemaining
  split
  · rename_i hin
    rw [if_pos ⟨hact, hin⟩] at hrem
    have hbound : s.boundary a = s.sweepRemaining - 1 := if_pos ⟨hact, hin⟩
    rw [hbound] at heb hobj
    refine ⟨hrem, ?_⟩
    -- The boundary is the last place of the part that is not scanned.
    have htake : s'.objects.take (s.sweepRemaining - 1) =
        ((s.objects.take s.sweepRemaining).set a eb).dropLast := by
      rw [hobj, List.dropLast_eq_take, List.dropLast_eq_take, List.take_take, List.take_set_of_le (by omega)]
      rw [List.length_set, List.length_set, List.length_set, List.length_take, List.take_set, List.take_set,
        List.take_take]
      congr 2
      omega
    rw [hrem, htake]
    refine perm_set_dropLast ?_ ?_
    · rw [List.getElem?_take_of_lt hin]
      exact ha
    · rw [List.length_take, Nat.min_eq_left hle, List.getElem?_take_of_lt (by omega)]
      exact heb
  · rename_i hout
    rw [if_neg (fun hc => hout hc.2)] at hrem
    have hbound : s.boundary a = s.objects.length - 1 := if_neg (fun hc => hout hc.2)
    rw [hbound] at hobj
    refine ⟨hrem, ?_⟩
    rw [hrem, hobj, List.dropLast_eq_take, List.take_take, List.length_set, List.length_set,
      List.take_set_of_le (by omega), List.take_set_of_le (by omega)]
    congr 1
    omega

/-- An object that is not there is not removed. -/
theorem Sound.invalidate (h : Sound H s) (hopen : s.Open) (oc : α) :
    oc ∉ s.ocs ∧ s.invalidate H oc = (s, none) ∨
      ∃ a s', s.ocs[a]? = some oc ∧ s.invalidate H oc = (s', none) ∧ Removes H s s' a := by
  unfold SideIndex.invalidate
  by_cases ho : oc ∈ s.ocs
  · obtain ⟨a, ha⟩ := List.mem_iff_getElem?.mp ho
    obtain ⟨r, i, hf, -⟩ := h.filed.find_found hopen ha
    rw [hf]
    obtain ⟨s', hr, hrem⟩ := h.remove hopen (lt_of_ocs ha)
    exact .inr ⟨a, s', ha, hr, hrem⟩
  · rw [h.filed.find_absent hopen ho]
    exact .inl ⟨ho, rfl⟩

omit [DecidableEq α] in
theorem Sound.swept (h : Sound H s) {active : Bool} {remaining : Nat} (hle : remaining ≤ s.objects.length) :
    Sound H { s with sweepActive := active, sweepRemaining := remaining } where
  filed := h.filed.shuffled rfl id (fun _ => rfl) fun r => .inl (by cases r <;> rfl)
  steady := ⟨h.steady.active, h.steady.both, h.steady.cursor, h.steady.passed⟩
  sweep := fun _ => hle

end Sections
end Cachetag.SideIndex
