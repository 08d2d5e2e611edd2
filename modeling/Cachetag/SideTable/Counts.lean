import Cachetag.Lib.Machine
import Cachetag.SideTable.Filed

/-! What holds of the side tables in every state, also of tables that have become full: the counts are those
of the maps. Where nothing is attached, the buckets that a resize cannot do without become no more. -/

namespace Cachetag
open LinearProbe

namespace SideTable
variable {α : Type*} [DecidableEq α] {H : SideHash α} {objects : List α} {t t' : SideTable} {oc : α} {i a : Nat}

omit [DecidableEq α] in
theorem Intact.home_lt (ht : t.Intact) (hb : t.buckets ≠ 0) (H : SideHash α) (oc : α) : t.home H oc < t.buckets := by
  have hpow := ht.pow hb
  rw [home, and_mask hpow]
  exact Nat.mod_lt _ hpow.pos

/-- An insert takes a bucket that holds no entry. -/
theorem Intact.insert_fills (ht : t.Intact) (hins : t.insert H objects oc a = .ok t') :
    ∃ i < t.buckets, (t.bucket i = .tombstone ∨ t.bucket i = .empty) ∧ t' = t.fill i (H.mark oc) a := by
  unfold SideTable.insert at hins
  split_ifs at hins with hb hmax
  split at hins
  · cases hins
  · cases hins
  · rename_i i hw
    cases hins
    -- The first tombstone on the way is kept until the walk ends.
    refine walk_inv (ht.pow hb) (P := fun first => ∀ q, first = some q → q < t.buckets ∧ t.bucket q = .tombstone)
      (Q := fun r => ∀ i, r = .ok i → ∃ j < t.buckets, (t.bucket j = .tombstone ∨ t.bucket j = .empty) ∧
        t.fill i (H.mark oc) a = t.fill j (H.mark oc) a) (ht.home_lt hb H oc) (by simp) ?_ ?_ hw i rfl
    · intro first p first' hfirst hp hv q hq
      unfold insertVisit at hv
      split at hv
      · cases hv
      · rename_i hp'
        cases hv
        rcases first with _ | r
        · cases hq
          exact ⟨hp, hp'⟩
        · exact hfirst q hq
      · split_ifs at hv
        · split at hv
          · cases hv
          · split_ifs at hv
            cases hv
            exact hfirst q hq
        · cases hv
          exact hfirst q hq
    · intro first p r hfirst hp hv i hi
      subst hi
      unfold insertVisit at hv
      split at hv
      · rename_i hp'
        cases hv
        rcases first with _ | q
        · exact ⟨p, hp, .inr hp', rfl⟩
        · obtain ⟨hq, htomb⟩ := hfirst q rfl
          exact ⟨q, hq, .inl htomb, rfl⟩
      · cases hv
      · split_ifs at hv
        split at hv
        · cases hv
        · split_ifs at hv
          cases hv

/-- What a lookup finds is a live bucket. -/
theorem Intact.find_live (ht : t.Intact) (hf : t.find H objects oc = .found i a) :
    t.bucket i = .live (H.mark oc) a := by
  unfold SideTable.find at hf
  split_ifs at hf with hb hmask
  cases hw : walk t.bucket t.buckets (findVisit H objects oc) t.buckets (t.home H oc) () with
  | none =>
    rw [hw] at hf
    cases hf
  | some r =>
    rw [hw, Option.getD_some] at hf
    subst hf
    obtain ⟨_, p, -, hv⟩ := exists_of_walk (ht.pow hb) (ht.home_lt hb H oc) hw
    unfold findVisit at hv
    cases hp : t.bucket p with
    | empty =>
      rw [hp] at hv
      cases hv
    | tombstone =>
      rw [hp] at hv
      cases hv
    | live f c =>
      rw [hp] at hv
      dsimp only at hv
      split_ifs at hv with hmark
      split at hv
      · cases hv
      · split_ifs at hv
        cases hv
        rw [hp, hmark]

end SideTable

namespace SideIndex
open SideTable

variable {α β : Type*} {H : SideHash α} {s s' t : SideIndex α β} {loc : SideLocation} {oc : α} {ent : ObjEnt α β}
  {n : Nat} {reason : SideReason}

/-- The counts of an index. -/
structure Counted (s : SideIndex α β) : Prop where
  sum : s.objects.length = s.primary.live + s.retiring.live
  intact : ∀ r, (s.table r).Intact
  active : s.migrationActive = true ↔ s.retiring.buckets ≠ 0
  both : s.retiring.buckets ≠ 0 → s.primary.buckets ≠ 0
  cursor : s.migrateCursor ≤ s.retiring.buckets

/-- The buckets of the primary table that are not EMPTY, once the retiring table has been moved into it. -/
def load (s : SideIndex α β) : Nat := s.primary.live + s.primary.tombstones + s.retiring.live

/-- What a removal and a migration leave. -/
structure Stays (s s' : SideIndex α β) : Prop where
  counted : Counted s'
  load : s'.load ≤ s.load
  length : s'.objects.length ≤ s.objects.length
  buckets : s'.primary.buckets = s.primary.buckets

/-- What any section leaves that attaches nothing. -/
structure Eases (s s' : SideIndex α β) : Prop where
  counted : Counted s'
  load : s'.load ≤ s.load
  length : s'.objects.length ≤ s.objects.length
  buckets : s.migrationActive = true → s'.primary.buckets = s.primary.buckets ∨ s'.primary.buckets = 0

theorem Counted.stays (h : Counted s) : Stays s s := ⟨h, Nat.le_refl _, Nat.le_refl _, rfl⟩

theorem Stays.trans (h₁ : Stays s s') (h₂ : Stays s' t) : Stays s t :=
  ⟨h₂.counted, h₂.load.trans h₁.load, h₂.length.trans h₁.length, h₂.buckets.trans h₁.buckets⟩

theorem Stays.eases (h : Stays s s') : Eases s s' := ⟨h.counted, h.load, h.length, fun _ => .inl h.buckets⟩

theorem Eases.stays (h₁ : Eases s s') (h₂ : Stays s' t) : Eases s t where
  counted := h₂.counted
  load := h₂.load.trans h₁.load
  length := h₂.length.trans h₁.length
  buckets hactive := by
    rw [h₂.buckets]
    exact h₁.buckets hactive

theorem Counted.new : Counted (SideIndex.new : SideIndex α β) where
  sum := rfl
  intact r := by cases r <;> exact .null
  active := by simp [SideIndex.new]
  both h := absurd rfl h
  cursor := Nat.le_refl _

/-- Whatever is not a table, a count or the array may change. -/
theorem Counted.stays_of_tables (h : Counted s) (hobj : s'.objects.length = s.objects.length)
    (hp : s'.primary = s.primary) (hr : s'.retiring = s.retiring) (hact : s'.migrationActive = s.migrationActive)
    (hcur : s'.migrateCursor ≤ s'.retiring.buckets) : Stays s s' := by
  refine ⟨⟨?_, fun r => ?_, ?_, ?_, hcur⟩, ?_, hobj.le, by rw [hp]⟩
  · rw [hobj, hp, hr]
    exact h.sum
  · cases r with
    | false =>
      rw [table_false, hp]
      exact h.intact false
    | true =>
      rw [table_true, hr]
      exact h.intact true
  · rw [hact, hr]
    exact h.active
  · rw [hp, hr]
    exact h.both
  · rw [load, load, hp, hr]

theorem Counted.retiring_live (h : Counted s) (hidle : ¬s.migrationActive = true) : s.retiring.live = 0 := by
  have hkinds := (h.intact true).kinds
  rw [table_true] at hkinds
  have : s.retiring.buckets = 0 := by
    by_contra hb
    exact hidle (h.active.mpr hb)
  omega

/-! ### Publications -/

theorem Counted.endMigration (h : Counted s) (hzero : s.retiring.live = 0) : Stays s s.endMigration where
  counted :=
    { sum := by
        have := h.sum
        rwa [hzero] at this
      intact := fun r => by
        cases r with
        | false => exact h.intact false
        | true => exact .null
      active := by simp [SideIndex.endMigration]
      both := fun hb => absurd rfl hb
      cursor := Nat.le_refl _ }
  load := by
    rw [load, load, hzero]
    rfl
  length := Nat.le_refl _
  buckets := rfl

theorem Counted.publishMigration (h : Counted s) : Eases s (s.publishMigration n reason).1 := by
  unfold SideIndex.publishMigration
  split_ifs with hbad hactive hprim
  · exact h.stays.eases
  · exact h.stays.eases
  · have hlive := h.retiring_live hactive
    have hn : PowTwo n := Nat.ne_zero_and_sub_one_eq_zero_iff_isPowerOfTwo.mp (by simpa [not_or] using hbad)
    refine ⟨⟨?_, fun r => ?_, ?_, fun _ => ?_, Nat.zero_le _⟩, ?_, Nat.le_refl _, fun h => absurd h hactive⟩
    · rw [h.sum, hlive]
      exact Nat.add_comm _ _
    · cases r with
      | false => exact .fresh hn
      | true => exact h.intact false
    · simpa using hprim
    · simpa using hn.pos.ne'
    · show 0 + 0 + s.primary.live ≤ s.primary.live + s.primary.tombstones + s.retiring.live
      omega
  · have hlive := h.retiring_live hactive
    have hn : PowTwo n := Nat.ne_zero_and_sub_one_eq_zero_iff_isPowerOfTwo.mp (by simpa [not_or] using hbad)
    have hnone : s.primary.live = 0 := by
      have := (h.intact false).kinds
      rw [table_false] at this
      omega
    refine ⟨⟨?_, fun r => ?_, ?_, fun hb => absurd rfl hb, Nat.zero_le _⟩, ?_, Nat.le_refl _, fun h => absurd h hactive⟩
    · rw [SideIndex.endMigration, h.sum, hnone, hlive]
      rfl
    · cases r with
      | false => exact .fresh hn
      | true => exact .null
    · simp [SideIndex.endMigration]
    · exact Nat.zero_le _

theorem Eases.auto {r : SideIndex α β × Option SideErr} (h : Eases s r.1) : Eases s (autoIfPublished r).1 := by
  obtain ⟨t, e⟩ := r
  cases e with
  | some e => exact h
  | none => exact h.stays (h.counted.stays_of_tables rfl rfl rfl rfl h.counted.cursor)

theorem Counted.publishAllocated (h : Counted s) : Eases s (s.publishAllocated n reason).1 := by
  unfold SideIndex.publishAllocated
  split_ifs
  · exact h.stays.eases
  · exact h.stays.eases
  · exact h.stays.eases
  · exact h.stays.eases
  · exact h.publishMigration

theorem Counted.publishForInsert (h : Counted s) : Eases s (s.publishForInsert n reason).1 := by
  have hpublish := (@Counted.publishMigration _ _ s n reason h).auto
  unfold SideIndex.publishForInsert
  cases reason <;> dsimp only <;> split_ifs <;> first | exact h.stays.eases | exact hpublish

theorem Counted.publishSideDestination (h : Counted s) : Eases s (s.publishSideDestination n reason).1 := by
  unfold SideIndex.publishSideDestination
  split_ifs
  · exact h.publishAllocated.auto
  · exact h.stays.eases

theorem Counted.publishShrink (h : Counted s) : Eases s (s.publishShrink n).1 := by
  unfold SideIndex.publishShrink
  split_ifs
  · exact h.publishAllocated.auto
  · exact h.stays.eases

theorem eases_detachAll (hzero : s.objects.length = 0) : Eases s s.detachAll where
  counted :=
    { sum := hzero
      intact := fun r => by cases r <;> exact .null
      active := by simp [SideIndex.detachAll, SideIndex.endMigration]
      both := fun hb => absurd rfl hb
      cursor := Nat.le_refl _ }
  load := Nat.zero_le _
  length := Nat.le_refl _
  buckets _ := .inr rfl

/-- A rollback makes the tables change places. -/
theorem rollbackShrink_eq (hr : s.rollbackShrink = some s') :
    s.migrationActive = true ∧ s.migrationReason = .shrink ∧ s.retiring.buckets ≠ 0 ∧
      s' = { s with primary := s.retiring, retiring := s.primary, migrateCursor := 0, migrationReason := .rollback,
                    migrationAuto := true } := by
  unfold SideIndex.rollbackShrink at hr
  split_ifs at hr with hc
  obtain ⟨hactive, hreason, hb⟩ : s.migrationActive = true ∧ s.migrationReason = .shrink ∧ s.retiring.buckets ≠ 0 := by
    simpa [not_or] using hc
  cases hr
  exact ⟨hactive, hreason, hb, rfl⟩

theorem softResize_of_active (hactive : s.migrationActive = true) : s.softResize = none := by
  unfold SideIndex.softResize
  exact if_pos (.inl hactive)

theorem Counted.rollbackShrink (h : Counted s) (hr : s.rollbackShrink = some s') : Counted s' := by
  obtain ⟨hactive, -, hb, rfl⟩ := rollbackShrink_eq hr
  have hp := h.both hb
  refine ⟨?_, fun r => ?_, ?_, fun _ => hb, Nat.zero_le _⟩
  · rw [h.sum]
    exact Nat.add_comm _ _
  · cases r with
    | false => exact h.intact true
    | true => exact h.intact false
  · simpa [hactive] using hp

theorem Counted.prepareInsert (h : Counted s) : Counted s.prepareInsert.1 := by
  unfold SideIndex.prepareInsert
  dsimp only
  split_ifs
  · exact h
  · exact h
  · cases hr : s.rollbackShrink with
    | none => exact h
    | some s' => exact h.rollbackShrink hr
  · exact h
  · exact h
  · exact h

/-! ### Inserts and migrations -/

section Sections
variable [DecidableEq α]

theorem Counted.attachPrepare (h : Counted s) (oc : α) : Counted (s.attachPrepare H oc).1 := by
  unfold SideIndex.attachPrepare
  split
  · exact h
  · split
    · exact h
    · exact h
    · have hprepare := h.prepareInsert
      split <;> rename_i heq <;> rw [heq] at hprepare <;> exact hprepare

theorem Counted.append (h : Counted s) : Counted (s.append H ent).1 := by
  unfold SideIndex.append
  split
  · exact h
  · rename_i t hins
    obtain ⟨i, hi, hfree, rfl⟩ := (h.intact false).insert_fills hins
    refine ⟨?_, fun r => ?_, h.active, fun hb => ?_, h.cursor⟩
    · have := h.sum
      simp only [List.length_append, List.length_singleton, live_fill]
      rw [table_false]
      omega
    · cases r with
      | false => exact (h.intact false).fill hi hfree
      | true => exact h.intact true
    · show (s.primary.fill i _ _).buckets ≠ 0
      rw [buckets_fill]
      exact h.both hb

theorem Counted.attach (h : Counted s) : Counted (s.attach H ent).1 := by
  have hprepare := h.attachPrepare (H := H) ent.oc
  unfold SideIndex.attach
  split
  · rename_i heq
    rwa [heq] at hprepare
  · rename_i heq
    rw [heq] at hprepare
    exact hprepare.append

/-- The entry of a retiring bucket goes into the primary table. -/
theorem Counted.migrateBucket (h : Counted s) : Stays s (s.migrateBucket H).1 ∧
    (s.migrateBucket H).1.retiring.buckets = s.retiring.buckets ∧
    (s.migrateBucket H).1.migrateCursor = s.migrateCursor := by
  unfold SideIndex.migrateBucket
  split
  · rename_i f a hb
    split
    · exact ⟨h.stays, rfl, rfl⟩
    · rename_i oc ho
      split
      · exact ⟨h.stays, rfl, rfl⟩
      · rename_i t hins
        obtain ⟨i, hi, hfree, rfl⟩ := (h.intact false).insert_fills hins
        have hpos := (h.intact true).live_pos hb
        rw [table_true] at hpos
        refine ⟨⟨⟨?_, fun r => ?_, ?_, fun hr => ?_, ?_⟩, ?_, Nat.le_refl _, buckets_fill⟩, buckets_bury, rfl⟩
        · have := h.sum
          show s.objects.length = s.primary.live + 1 + (s.retiring.live - 1)
          omega
        · cases r with
          | false => exact (h.intact false).fill hi hfree
          | true => exact (h.intact true).bury hb
        · simpa using h.active
        · simp only [buckets_bury] at hr
          simpa using h.both hr
        · simpa using h.cursor
        · have htombs : (s.primary.fill i (H.mark oc) a).tombstones ≤ s.primary.tombstones := by
            unfold SideTable.fill
            dsimp only
            split <;> omega
          show s.primary.live + 1 + (s.primary.fill i (H.mark oc) a).tombstones + (s.retiring.live - 1) ≤
            s.primary.live + s.primary.tombstones + s.retiring.live
          omega
  · exact ⟨h.stays, rfl, rfl⟩

theorem Counted.migrateLoop (h : Counted s) (n : Nat) : Stays s (migrateLoop H n s).1 := by
  induction n generalizing s with
  | zero => exact h.stays
  | succ n ih =>
    unfold SideIndex.migrateLoop
    obtain ⟨hease, hbuckets, hcursor⟩ := h.migrateBucket (H := H)
    split_ifs with hlt
    · split
      · rename_i s' r heq
        rwa [heq] at hease
      · rename_i s' heq
        rw [heq] at hease hbuckets hcursor
        have hnext : Stays s' { s' with migrateCursor := s'.migrateCursor + 1 } :=
          hease.counted.stays_of_tables rfl rfl rfl rfl (by dsimp only at hbuckets hcursor ⊢; omega)
        exact hease.trans (hnext.trans (ih hnext.counted))
    · exact h.stays

theorem Counted.migrateSome (h : Counted s) (n : Nat) : Stays s (s.migrateSome H n).1 := by
  unfold SideIndex.migrateSome
  have hloop := h.migrateLoop (H := H) n
  split_ifs
  · exact h.stays
  · exact h.stays
  · exact h.stays
  · split
    · rename_i heq
      rwa [heq] at hloop
    · rename_i s' heq
      rw [heq] at hloop
      split_ifs with hend hlive
      · exact hloop
      · exact hloop.trans (hloop.counted.endMigration (not_not.mp hlive))
      · exact hloop

/-- What a batch does: nothing where no automatic migration is under way, else a step of it, behind a rollback where
    the shrink has overrun. A step that fails ends the automatic migration. -/
theorem migrateSideBatch_cases (H : SideHash α) (s : SideIndex α β) (overrun : Bool) :
    ¬(s.migrationActive = true ∧ s.migrationAuto = true) ∧ s.migrateSideBatch H overrun = (s, none) ∨
    (s.migrationActive = true ∧ s.migrationAuto = true) ∧
      ∃ s' t, (s' = s ∨ overrun = true ∧ s.rollbackShrink = some s') ∧
        (s'.migrateSome H resizeSideBatchBuckets = (t, none) ∧ s.migrateSideBatch H overrun = (t, none) ∨
          ∃ e, s'.migrateSome H resizeSideBatchBuckets = (t, some e) ∧
            s.migrateSideBatch H overrun = ({ t with migrationAuto := false }, some e)) := by
  unfold SideIndex.migrateSideBatch
  by_cases hon : s.migrationActive = true ∧ s.migrationAuto = true
  · refine .inr ⟨hon, ?_⟩
    rw [if_pos hon]
    -- The state that the step starts from.
    obtain ⟨s', hs', hfrom⟩ : ∃ s', (if s.migrationReason = .shrink ∧ (overrun = true ∨ s.softResize.isSome = true) then
        s.rollbackShrink.getD s else s) = s' ∧ (s' = s ∨ overrun = true ∧ s.rollbackShrink = some s') := by
      split_ifs with hroll
      · have hover : overrun = true := by simpa [softResize_of_active hon.1] using hroll.2
        cases hr : s.rollbackShrink with
        | none => exact ⟨s, rfl, .inl rfl⟩
        | some s' => exact ⟨s', rfl, .inr ⟨hover, rfl⟩⟩
      · exact ⟨s, rfl, .inl rfl⟩
    dsimp only
    rw [hs']
    rcases hm : s'.migrateSome H resizeSideBatchBuckets with ⟨t, _ | e⟩
    · exact ⟨s', t, hfrom, .inl ⟨hm, rfl⟩⟩
    · exact ⟨s', t, hfrom, .inr ⟨e, hm, rfl⟩⟩
  · exact .inl ⟨hon, if_neg hon⟩

/-- A batch that rolls nothing back leaves the load as it is. -/
theorem Counted.migrateSideBatch (h : Counted s) (overrun : Bool) :
    Counted (s.migrateSideBatch H overrun).1 ∧ (overrun = false → Stays s (s.migrateSideBatch H overrun).1) := by
  rcases migrateSideBatch_cases H s overrun with ⟨-, hsame⟩ | ⟨-, s', t, hfrom, hstep⟩
  · rw [hsame]
    exact ⟨h, fun _ => h.stays⟩
  · have hs' : Counted s' ∧ (overrun = false → s' = s) := by
      rcases hfrom with rfl | ⟨hover, hr⟩
      · exact ⟨h, fun _ => rfl⟩
      · exact ⟨h.rollbackShrink hr, fun hno => absurd (hover.symm.trans hno) (by simp)⟩
    have hsome := hs'.1.migrateSome (H := H) resizeSideBatchBuckets
    have hleft : Stays s' (s.migrateSideBatch H overrun).1 := by
      rcases hstep with ⟨hm, hbatch⟩ | ⟨e, hm, hbatch⟩ <;> rw [hm] at hsome <;> rw [hbatch]
      · exact hsome
      · exact hsome.trans (hsome.counted.stays_of_tables rfl rfl rfl rfl hsome.counted.cursor)
    exact ⟨hleft.counted, fun hno => hs'.2 hno ▸ hleft⟩

/-! ### Removals -/

/-- What a removal does before it drops the last slot: objects and slots change places. -/
structure Moved (s s' : SideIndex α β) : Prop where
  length : s'.objects.length = s.objects.length
  live : ∀ r, (s'.table r).live = (s.table r).live
  tombstones : ∀ r, (s'.table r).tombstones = (s.table r).tombstones
  buckets : ∀ r, (s'.table r).buckets = (s.table r).buckets
  intact : ∀ r, (s'.table r).Intact
  bucket : ∀ r i f a, s.bucketAt r i = .live f a → ∃ b, s'.bucketAt r i = .live f b
  active : s'.migrationActive = s.migrationActive
  cursor : s'.migrateCursor = s.migrateCursor

omit [DecidableEq α] in
theorem Counted.moved (h : Counted s) : Moved s s :=
  ⟨rfl, fun _ => rfl, fun _ => rfl, fun _ => rfl, h.intact, fun _ _ _ a hb => ⟨a, hb⟩, rfl, rfl⟩

omit [DecidableEq α] in
theorem Moved.trans (h₁ : Moved s s') (h₂ : Moved s' t) : Moved s t where
  length := h₂.length.trans h₁.length
  live r := (h₂.live r).trans (h₁.live r)
  tombstones r := (h₂.tombstones r).trans (h₁.tombstones r)
  buckets r := (h₂.buckets r).trans (h₁.buckets r)
  intact := h₂.intact
  bucket r i f a hb := by
    obtain ⟨b, hb'⟩ := h₁.bucket r i f a hb
    exact h₂.bucket r i f b hb'
  active := h₂.active.trans h₁.active
  cursor := h₂.cursor.trans h₁.cursor

omit [DecidableEq α] in
theorem Moved.stays (h : Moved s s') (hs : Counted s) : Stays s s' := by
  have hlp := h.live false
  have hlr := h.live true
  have htp := h.tombstones false
  have hbp := h.buckets false
  have hbr := h.buckets true
  simp only [table_false, table_true] at hlp hlr htp hbp hbr
  refine ⟨⟨?_, h.intact, ?_, ?_, ?_⟩, ?_, h.length.le, hbp⟩
  · rw [h.length, hlp, hlr]
    exact hs.sum
  · rw [h.active, hbr]
    exact hs.active
  · rw [hbp, hbr]
    exact hs.both
  · rw [h.cursor, hbr]
    exact hs.cursor
  · rw [load, load, hlp, hlr, htp]

theorem Counted.find_live (h : Counted s) (hf : s.find H oc = .found loc) :
    s.bucketAt loc.retiring loc.bucket = .live (H.mark oc) loc.slot := by
  have hsum : ¬s.objects.length ≠ s.primary.live + s.retiring.live := not_not.mpr h.sum
  rw [SideIndex.find, if_neg hsum] at hf
  cases hp : s.primary.find H s.ocs oc with
  | corrupt =>
    rw [hp] at hf
    cases hf
  | absent =>
    rw [hp] at hf
    cases hr : s.retiring.find H s.ocs oc with
    | corrupt =>
      rw [hr] at hf
      cases hf
    | absent =>
      rw [hr] at hf
      cases hf
    | found i a =>
      rw [hr] at hf
      cases hf
      exact (h.intact true).find_live hr
  | found i a =>
    rw [hp] at hf
    dsimp only at hf
    by_cases hr : s.retiring.buckets ≠ 0 ∧ s.retiring.find H s.ocs oc ≠ .absent
    · rw [if_pos hr] at hf
      cases hf
    · rw [if_neg hr] at hf
      cases hf
      exact (h.intact false).find_live hp

omit [DecidableEq α] in
/-- A bucket that stays live gets another slot. -/
theorem Rewrites.moved {r : Bool} {i f a dst : Nat} (hw : Rewrites s s' r i (.live f dst)) (h : Counted s)
    (hb : s.bucketAt r i = .live f a) (hlen : s'.objects.length = s.objects.length)
    (hlive : (s'.table r).live = (s.table r).live) (htomb : (s'.table r).tombstones = (s.table r).tombstones) :
    Moved s s' where
  length := hlen
  live r' := by
    by_cases hr : r' = r
    · rw [hr, hlive]
    · rw [hw.other r' hr]
  tombstones r' := by
    by_cases hr : r' = r
    · rw [hr, htomb]
    · rw [hw.other r' hr]
  buckets r' := by
    by_cases hr : r' = r
    · rw [hr, hw.buckets]
    · rw [hw.other r' hr]
  intact := hw.intactAll h.intact (hw.intact (h.intact r))
  bucket r' j g c hj := by
    rw [hw.bucketAt]
    split
    · rename_i hrj
      obtain ⟨rfl, rfl⟩ := hrj
      cases hb.symm.trans hj
      exact ⟨dst, rfl⟩
    · exact ⟨c, hj⟩
  active := hw.active
  cursor := hw.cursor

theorem Counted.moveObject (h : Counted s) (loc : SideLocation) (src dst : Nat) :
    Moved s (s.moveObject H loc src dst).1 := by
  have hstored : ∀ e : ObjEnt α β, Moved s { s with objects := s.objects.set dst e } := fun e =>
    ⟨List.length_set, fun _ => rfl, fun _ => rfl, fun _ => rfl, h.intact, fun _ _ _ a hb => ⟨a, hb⟩, rfl, rfl⟩
  unfold SideIndex.moveObject
  split
  · exact h.moved
  · rename_i moved _
    split
    · rename_i loc' hf
      have hb := h.find_live hf
      have hlive : (s.table loc'.retiring).bucket loc'.bucket = .live (H.mark moved.oc) loc'.slot := hb
      dsimp only
      split_ifs
      · exact h.moved
      · exact h.moved
      · exact hstored moved
      · -- The object is at its new slot, and the bucket that the probe found gets that slot.
        refine (Rewrites.reslot hb (s.objects.set dst moved) dst).moved h hb ?_ ?_ ?_
        · rw [objects_setTable, List.length_set]
        · rw [table_setTable, if_pos rfl, live_reslot hlive]
        · rw [table_setTable, if_pos rfl, reslot_eq hlive]
    · exact h.moved

omit [DecidableEq α] in
/-- The entry of a live bucket goes, and the last slot. -/
theorem Counted.dropLast (h : Counted s) {f a : Nat} (hb : s.bucketAt loc.retiring loc.bucket = .live f a) :
    Stays s (s.dropLast loc) := by
  have hw : Rewrites s (s.dropLast loc) loc.retiring loc.bucket .tombstone := Rewrites.bury hb
  have hthins := hw.thins nofun
  have hbp : (s.dropLast loc).primary.buckets = s.primary.buckets := hthins.buckets false
  have hbr : (s.dropLast loc).retiring.buckets = s.retiring.buckets := hthins.buckets true
  have htable : (s.dropLast loc).table loc.retiring = (s.table loc.retiring).bury loc.bucket :=
    table_setTable.trans (if_pos rfl)
  have hsum : (s.dropLast loc).primary.live + (s.dropLast loc).retiring.live + 1 = s.primary.live + s.retiring.live := by
    refine hw.liveSum ?_
    have hpos := (h.intact loc.retiring).live_pos hb
    rw [htable, live_bury]
    omega
  -- A tombstone in the primary table counts as the entry did, one in the other table does not count.
  have htomb : (s.dropLast loc).primary.tombstones ≤ s.primary.tombstones + 1 := by
    cases hr : loc.retiring with
    | false =>
      rw [hr] at htable
      have hprim : (s.dropLast loc).primary = s.primary.bury loc.bucket := htable
      rw [hprim]
      exact Nat.le_refl _
    | true =>
      have hprim : (s.dropLast loc).primary = s.primary := hw.other false (by simp [hr])
      rw [hprim]
      exact Nat.le_succ _
  have hobj : (s.dropLast loc).objects.length = s.objects.length - 1 := List.length_dropLast
  have hold := h.sum
  refine ⟨⟨?_, hw.intactAll h.intact (hw.intact (h.intact _)), ?_, ?_, ?_⟩, ?_, ?_, hbp⟩
  · omega
  · rw [hw.active, hbr]
    exact h.active
  · rw [hbp, hbr]
    exact h.both
  · rw [hw.cursor, hbr]
    exact h.cursor
  · unfold load
    omega
  · rw [hobj]
    exact Nat.sub_le _ _

omit [DecidableEq α] in
theorem Counted.sweptTo (h : Counted s) {active : Bool} {remaining : Nat} :
    Stays s { s with sweepActive := active, sweepRemaining := remaining } :=
  h.stays_of_tables rfl rfl rfl rfl h.cursor

theorem Counted.remove (h : Counted s) (slot : Nat) : Stays s (s.remove H slot).1 := by
  have moveIf : ∀ {s : SideIndex α β}, Counted s → ∀ (loc : SideLocation) (p : Prop) [Decidable p] src dst,
      Moved s (if p then s.moveObject H loc src dst else (s, none)).1 := by
    intro s h loc p _ src dst
    split
    · exact h.moveObject loc src dst
    · exact h.moved
  unfold SideIndex.remove
  split
  · exact h.stays
  · split
    · rename_i loc hf
      have hlive := h.find_live hf
      dsimp only
      by_cases hout : !s.sweepActive ∨ s.sweepRemaining ≤ slot
      · rw [if_pos hout]
        -- Outside of a sweep the last object takes the place of the removed one.
        have hm := moveIf h loc (slot ≠ s.objects.length - 1) (s.objects.length - 1) slot
        generalize (if slot ≠ s.objects.length - 1 then s.moveObject H loc (s.objects.length - 1) slot else (s, none)) =
          m at hm ⊢
        obtain ⟨s', e⟩ := m
        have hs' := hm.stays h
        cases e with
        | some r => exact hs'
        | none =>
          obtain ⟨b, hb⟩ := hm.bucket _ _ _ _ hlive
          exact hs'.trans (hs'.counted.dropLast hb)
      · rw [if_neg hout]
        by_cases hbad : s.sweepRemaining = 0 ∨ s.objects.length < s.sweepRemaining
        · rw [if_pos hbad]
          exact h.stays
        rw [if_neg hbad]
        -- Below the sweep, the object at the boundary does, and the last one takes the place of that.
        have hm := moveIf h loc (slot ≠ s.sweepRemaining - 1) (s.sweepRemaining - 1) slot
        generalize (if slot ≠ s.sweepRemaining - 1 then s.moveObject H loc (s.sweepRemaining - 1) slot else (s, none)) =
          m at hm ⊢
        obtain ⟨s', e⟩ := m
        have hs' := hm.stays h
        cases e with
        | some r => exact hs'
        | none =>
          dsimp only
          have hm' := hm.trans (moveIf hs'.counted loc (s.sweepRemaining - 1 ≠ s.objects.length - 1)
            (s.objects.length - 1) (s.sweepRemaining - 1))
          generalize (if s.sweepRemaining - 1 ≠ s.objects.length - 1 then
            s'.moveObject H loc (s.objects.length - 1) (s.sweepRemaining - 1) else (s', none)) = m' at hm' ⊢
          obtain ⟨s'', e⟩ := m'
          have hs'' := hm'.stays h
          cases e with
          | some r => exact hs''
          | none =>
            obtain ⟨b, hb⟩ := hm'.bucket _ _ _ _ hlive
            have hswept := @Counted.sweptTo _ _ _ hs''.counted s''.sweepActive (s''.sweepRemaining - 1)
            exact (hs''.trans hswept).trans (hswept.counted.dropLast hb)
    · exact h.stays

theorem Counted.invalidate (h : Counted s) (oc : α) : Stays s (s.invalidate H oc).1 := by
  unfold SideIndex.invalidate
  split
  · exact h.stays
  · exact h.stays
  · exact h.remove _

theorem Counted.sweepKill (h : Counted s) : Stays s (s.sweepKill H).1 := by
  have hr := h.remove (H := H) (s.sweepRemaining - 1)
  unfold SideIndex.sweepKill
  split
  · rename_i heq
    rwa [heq] at hr
  · rename_i heq
    rw [heq] at hr
    exact hr.trans hr.counted.sweptTo

/-- The sections that neither attach nor roll a shrink back. -/
def AttachFree : SideEvent α β → Prop
  | .prepare _ => False
  | .attach _ => False
  | .migrateSideBatch overrun => overrun = false
  | _ => True

/-- Every section keeps the counts, and without an attach the load becomes no larger. -/
theorem Counted.act (h : Counted s) {e : SideEvent α β} {r : SideIndex α β × Option SideErr} (hr : s.act H e = some r) :
    Counted r.1 ∧ (AttachFree e → Eases s r.1) := by
  have eased : ∀ {t}, Eases s t → Counted t ∧ (AttachFree e → Eases s t) := fun ht => ⟨ht.counted, fun _ => ht⟩
  cases e with
  | prepare oc =>
    cases hr
    exact ⟨h.attachPrepare oc, False.elim⟩
  | attach ent =>
    cases hr
    exact ⟨h.attach, False.elim⟩
  -- Behind the two sections of an attach, none uses up an EMPTY bucket for an object that was not there.
  | publishForInsert n reason =>
    cases hr
    exact eased h.publishForInsert
  | invalidate oc =>
    cases hr
    exact eased (h.invalidate oc).eases
  | sweepStart =>
    simp only [SideIndex.act] at hr
    split at hr <;> cases hr
    exact eased h.sweptTo.eases
  | sweepKeep =>
    simp only [SideIndex.act] at hr
    split at hr <;> cases hr
    exact eased h.sweptTo.eases
  | sweepKill =>
    simp only [SideIndex.act] at hr
    split at hr <;> cases hr
    exact eased h.sweepKill.eases
  | sweepEnd =>
    simp only [SideIndex.act] at hr
    split at hr <;> cases hr
    exact eased h.sweptTo.eases
  | killLast =>
    simp only [SideIndex.act] at hr
    split at hr <;> cases hr
    exact eased (h.remove _).eases
  | migrateSideBatch overrun =>
    cases hr
    obtain ⟨hcounted, hstays⟩ := h.migrateSideBatch (H := H) overrun
    exact ⟨hcounted, fun hno => (hstays hno).eases⟩
  | publishSideDestination n reason =>
    cases hr
    exact eased h.publishSideDestination
  | publishShrink n =>
    cases hr
    exact eased h.publishShrink
  | detachAll =>
    simp only [SideIndex.act] at hr
    split at hr <;> cases hr
    exact eased (eases_detachAll ‹_›)

theorem reach_counted (h : Machine.Reach (step H) Machine.always SideIndex.new s) : Counted s := by
  refine h.inv .new fun _ hcounted _ hst => ?_
  obtain ⟨r, hr, rfl⟩ := Option.map_eq_some_iff.mp hst
  exact (hcounted.act hr).1

end Sections
end SideIndex
end Cachetag
