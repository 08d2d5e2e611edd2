import Cachetag.Lib.Machine
import Cachetag.SideTable.Sections

/-! Whether the side tables ever fill up.

A migration moves the entries of the retiring table into the primary one, which keeps an EMPTY bucket as
long as it has more EMPTY buckets than the retiring table has entries. The load up to which an attach is
admitted looks at the primary table alone, so that attaches can take the buckets that a migration is going
to need. -/

namespace Cachetag.SideIndex
open LinearProbe SideTable Machine

variable {α β : Type*} [DecidableEq α] {H : SideHash α} {s s' : SideIndex α β} {oc : α} {ent : ObjEnt α β}

/-- While a migration is active, an object is only attached where the entries of the retiring table still
    fit, and a shrink is only rolled back where the larger table can take the entries of the smaller. -/
def Admits (H : SideHash α) (s : SideIndex α β) : SideEvent α β → Prop
  | .prepare oc => s.TakesIn oc → ¬s.primary.UnderHardLoad → s.Shrinking → s.RollbackRoom
  | .attach ent =>
    s.TakesIn ent.oc → s.migrationActive = true →
      if s.primary.UnderHardLoad then InsertRoom H s.primary s.retiring ent.oc
      else s.Shrinking → if s.retiring.UnderHardLoad then InsertRoom H s.retiring s.primary ent.oc else s.RollbackRoom
  | .migrateSideBatch overrun => overrun = true → s.migrationAuto = true → s.Shrinking → s.RollbackRoom
  | _ => True

instance (H : SideHash α) (s : SideIndex α β) (e : SideEvent α β) : Decidable (Admits H s e) := by
  cases e <;> unfold Admits <;> infer_instance

/-- Both tables have an EMPTY bucket, a migration step succeeds, and a lookup has an answer. -/
structure NeverFull (H : SideHash α) (s : SideIndex α β) : Prop where
  primary : s.primary.buckets ≠ 0 → 0 < s.primary.empties
  retiring : s.retiring.buckets ≠ 0 → 0 < s.retiring.empties
  migrate : ∀ n, (s.migrateSome H n).2 = none
  find : ∀ oc, s.find H oc ≠ .corrupt

/-- The invariant of the runs that the condition admits. -/
structure Inv (H : SideHash α) (s : SideIndex α β) : Prop where
  sound : Sound H s
  roomy : s.Roomy

/-- What a section does to the invariant. -/
def Keeps (H : SideHash α) (r : SideIndex α β × Option SideErr) : Prop := Inv H r.1 ∧ r.2 ≠ some .efault

omit [DecidableEq α] in
theorem Inv.publishes (h : Inv H s) {r : SideIndex α β × Option SideErr} (hp : Publishes H s r) : Keeps H r :=
  ⟨⟨hp.1.sound, hp.2.2 h.roomy⟩, hp.2.1⟩

omit [DecidableEq α] in
/-- Below the hard load two buckets are EMPTY. -/
theorem Inv.two_empties (h : Inv H s) (hload : s.primary.UnderHardLoad) : 2 ≤ s.primary.empties := by
  have := (h.sound.filed.intact false).kinds
  unfold UnderHardLoad hardGrowLoad at hload
  rw [table_false] at this
  omega

omit [DecidableEq α] in
theorem InsertRoom.of_two {t other : SideTable} (ht : 2 ≤ t.empties) (hother : other.live = 0) :
    InsertRoom H t other oc := by
  unfold InsertRoom
  split <;> omega

omit [DecidableEq α] in
theorem InsertRoom.lt {t other : SideTable} (h : InsertRoom H t other oc) : other.live < t.empties := by
  unfold InsertRoom at h
  omega

theorem Inv.attach (h : Inv H s) (hadm : Admits H s (.attach ent)) : Keeps H (s.attach H ent) := by
  have hopen := h.roomy.open
  -- The condition on an attach is stronger than the one on its preparation.
  have hroll : s.TakesIn ent.oc → ¬s.primary.UnderHardLoad → s.Shrinking → s.RollbackRoom := by
    intro htakes hload hshrink
    have := hadm htakes hshrink.1
    rw [if_neg hload] at this
    have := this hshrink
    split at this
    · exact this.lt
    · exact this
  have hatt := h.sound.attachPrepare hopen ent.oc
  obtain ⟨hne, hsound, -⟩ := h.sound.attach hopen ent
  refine ⟨⟨hsound, ?_⟩, hne⟩
  unfold SideIndex.attach
  cases hp : s.attachPrepare H ent.oc with
  | mk s' e =>
    rw [hp] at hatt
    have hroomy := hatt.roomy hroll h.roomy
    cases e with
    | some e => exact hroomy
    | none =>
      obtain ⟨htakes, hready, heq⟩ := hatt.ready rfl
      obtain ⟨hb, hcases⟩ := h.sound.prepareInsert.ready hready
      dsimp only at heq
      rw [← heq] at hb hcases
      -- The condition speaks of the tables that the preparation leaves, in whichever order.
      have hroom : InsertRoom H s'.primary s'.retiring ent.oc := by
        rcases hcases with ⟨rfl, hload⟩ | ⟨hload, hshrink, hload', hprim, hret⟩
        · by_cases hactive : s'.migrationActive = true
          · have := hadm htakes hactive
            rwa [if_pos hload] at this
          · exact .of_two (h.two_empties hload) (h.sound.retiring_null hactive)
        · have := hadm htakes hshrink.1
          rw [if_neg hload] at this
          have := this hshrink
          rw [if_pos hload'] at this
          rwa [hprim, hret]
      have htakes' : s'.TakesIn ent.oc := by
        unfold TakesIn
        rw [hatt.resizes.objects, ocs_congr hatt.resizes.objects]
        exact htakes
      obtain ⟨t, happ, -, -, -, -, hroomy'⟩ := hatt.resizes.sound.append (hatt.open' hopen) hb htakes'
      dsimp only
      rw [happ]
      exact hroomy' hroom hroomy

omit [DecidableEq α] in
theorem Inv.removes (h : Inv H s) {a : Nat} {r : SideIndex α β × Option SideErr}
    (hr : ∃ s', r = (s', none) ∧ Removes H s s' a) : Keeps H r := by
  obtain ⟨s', rfl, hrem⟩ := hr
  exact ⟨⟨hrem.sound, h.roomy.thins hrem.thins⟩, by simp⟩

omit [DecidableEq α] in
theorem Inv.swept (h : Inv H s) {active : Bool} {remaining : Nat} (hle : remaining ≤ s.objects.length) :
    Keeps H ({ s with sweepActive := active, sweepRemaining := remaining }, none) :=
  ⟨⟨h.sound.swept hle, ⟨h.roomy.primary, h.roomy.retiring⟩⟩, by simp⟩

/-- A section that the condition admits keeps the invariant and meets no failure of the tables. -/
theorem Inv.act (h : Inv H s) {e : SideEvent α β} (hadm : Admits H s e) {r : SideIndex α β × Option SideErr}
    (hr : s.act H e = some r) : Keeps H r := by
  have hopen := h.roomy.open
  cases e with
  -- A preparation may roll a shrink back, for which the condition keeps room.
  | prepare oc =>
    cases hr
    have hatt := h.sound.attachPrepare hopen oc
    exact ⟨⟨hatt.resizes.sound, hatt.roomy hadm h.roomy⟩, hatt.fine⟩
  | attach ent =>
    cases hr
    exact h.attach hadm
  | publishForInsert n reason =>
    cases hr
    exact h.publishes (h.sound.publishForInsert hopen)
  -- A removal makes no EMPTY bucket and uses none up.
  | invalidate oc =>
    cases hr
    rcases h.sound.invalidate hopen oc with ⟨-, hi⟩ | ⟨a, s', -, hi, hrem⟩
    · rw [hi]
      exact ⟨h, by simp⟩
    · exact h.removes ⟨s', hi, hrem⟩
  | sweepStart =>
    simp only [SideIndex.act] at hr
    split at hr <;> cases hr
    exact h.swept (Nat.le_refl _)
  | sweepKeep =>
    simp only [SideIndex.act] at hr
    split at hr <;> cases hr
    rename_i hact
    have := h.sound.sweep hact.1
    exact @Inv.swept _ _ _ _ h s.sweepActive _ (by omega)
  | sweepKill =>
    simp only [SideIndex.act] at hr
    split at hr <;> cases hr
    rename_i hact
    have := h.sound.sweep hact.1
    obtain ⟨s', hrem, hremoves⟩ := h.sound.remove hopen (a := s.sweepRemaining - 1) (by omega)
    rw [SideIndex.sweepKill, hrem]
    exact h.removes ⟨s', rfl, hremoves⟩
  | sweepEnd =>
    simp only [SideIndex.act] at hr
    split at hr <;> cases hr
    exact h.swept (Nat.zero_le _)
  | killLast =>
    simp only [SideIndex.act] at hr
    split at hr <;> cases hr
    exact h.removes (h.sound.remove hopen (by omega))
  | migrateSideBatch overrun =>
    cases hr
    obtain ⟨hres, hroomy⟩ := h.sound.migrateSideBatch overrun
    obtain ⟨hnone, hroomy⟩ := hroomy hadm h.roomy
    exact ⟨⟨hres.sound, hroomy⟩, by simp [hnone]⟩
  | publishSideDestination n reason =>
    cases hr
    exact h.publishes (h.sound.publishSideDestination hopen)
  | publishShrink n =>
    cases hr
    exact h.publishes h.sound.publishShrink
  | detachAll =>
    simp only [SideIndex.act] at hr
    split at hr <;> cases hr
    obtain ⟨hres, hroomy⟩ := h.sound.detachAll ‹_›
    exact ⟨⟨hres.sound, hroomy⟩, by simp⟩

theorem reach_inv (h : Reach (step H) (Admits H) SideIndex.new s) : Inv H s := by
  refine h.inv ⟨.new, .new⟩ fun _ hinv hadm hst => ?_
  obtain ⟨r, hr, rfl⟩ := Option.map_eq_some_iff.mp hst
  exact (hinv.act hadm hr).1

theorem Inv.neverFull (h : Inv H s) : NeverFull H s where
  primary := h.roomy.open false
  retiring := h.roomy.open true
  migrate n := ((h.sound.migrateSome n).2 h.roomy).1
  find oc := h.sound.filed.find_ne_corrupt h.roomy.open oc

/-- As long as attaches and rollbacks leave room for the migration, no side table fills up: in every reached
    state both keep an EMPTY bucket, every migration step succeeds, every lookup has an answer, and no section
    meets a failure of the tables on its way. -/
theorem side_tables_never_full (h : Reach (step H) (Admits H) SideIndex.new s) :
    NeverFull H s ∧ ∀ e, Admits H s e → ∀ r, s.act H e = some r → r.2 ≠ some .efault :=
  ⟨(reach_inv h).neverFull, fun _ hadm _ hr => ((reach_inv h).act hadm hr).2⟩

/-- Objects are numbers, each its own hash, and all have one fingerprint. -/
def plainHash : SideHash Nat := ⟨id, fun _ => 0⟩

/-- Twelve attaches, a grow, an attach and a removal while it migrates, and the batch that ends it. -/
def scheduled : List (SideEvent Nat Unit) :=
  .publishForInsert 64 .grow :: (List.range 12).map (fun i => .attach ⟨i, ()⟩) ++
    [.publishSideDestination 128 .grow, .attach ⟨12, ()⟩, .invalidate 3, .migrateSideBatch false]

theorem side_tables_never_full_scheduled :
    ∃ s, run (step plainHash) SideIndex.new scheduled = some s ∧ s.primary.buckets = 128 ∧ s.primary.live = 12 ∧
      NeverFull plainHash s ∧ ∀ r, s.act plainHash (.attach ⟨13, ()⟩) = some r → r.2 ≠ some .efault := by
  have hrun : (run (guarded (step plainHash) (Admits plainHash)) SideIndex.new scheduled).map (fun s =>
      (s.primary.buckets, s.primary.live, decide (Admits plainHash s (.attach ⟨13, ()⟩)))) = some (128, 12, true) := by
    decide +kernel
  obtain ⟨s, hs, heq⟩ := Option.map_eq_some_iff.mp hrun
  obtain ⟨hb, hl, hadm⟩ : s.primary.buckets = 128 ∧ s.primary.live = 12 ∧ Admits plainHash s (.attach ⟨13, ()⟩) := by
    simpa using heq
  have hreach := Reach.of_guarded hs
  obtain ⟨hfull, hact⟩ := side_tables_never_full hreach
  exact ⟨s, run_of_guarded hs, hb, hl, hfull, fun r hr => hact _ hadm r hr⟩

/-! ### The failing run -/

/-- Attaches fill the first table up to its load, and then the second one, without a migration step. -/
def unscheduled : List (SideEvent Nat Unit) :=
  .publishForInsert 64 .grow :: (List.range 129).flatMap fun i =>
    if i = 44 then [.publishForInsert 128 .grow, .attach ⟨i, ()⟩] else [.attach ⟨i, ()⟩]

/-- A migration batch that comes too late. -/
def late : List (SideEvent Nat Unit) := unscheduled ++ [.migrateSideBatch false]

/-- What the late batch meets: it fails, no bucket of the primary table is EMPTY any more, and a lookup of an
    unknown object reports a broken table. -/
theorem side_table_fills_up :
    ¬∀ (H : SideHash Nat) (s : SideIndex Nat Unit), Reach (step H) always SideIndex.new s → NeverFull H s ∧
      ∀ e r, s.act H e = some r → r.2 ≠ some .efault := by
  intro h
  have hrun : (run (step plainHash) SideIndex.new late).map (fun s =>
      (decide (s.primary.buckets = 128 ∧ s.primary.empties = 0), s.find plainHash 200)) =
      some (true, .corrupt) := by decide +kernel
  obtain ⟨s, hs, heq⟩ := Option.map_eq_some_iff.mp hrun
  exact (h plainHash s (.of_run hs)).1.find 200 (congrArg Prod.snd heq)

end Cachetag.SideIndex
