import Cachetag.Volatile.Invariant

/-! Removals, resizes and sweeps of the volatile index, and with them every critical section: what it does to
the dense array, and that it keeps the invariant. -/

namespace Cachetag.Index
open Registry SideIndex

variable {α : Type*} {cfg : Config α} {s s' t : Index α} {ent : ObjEnt α ObjVal} {a : Nat}

/-- What a section leaves that removes the object of one slot. -/
structure TakesOut (cfg : Config α) (s s' : Index α) (a : Nat) : Prop where
  removes : Removes cfg.sideHash s.side s'.side a
  extends' : Extends s.registry s'.registry
  retired : s'.retired = s.retired
  calls : s'.calls = s.calls

/-- What a section leaves that removes every object. -/
structure Clears (s s' : Index α) : Prop where
  objects : s'.side.objects = []
  sweepActive : s'.side.sweepActive = s.side.sweepActive
  extends' : Extends s.registry s'.registry
  calls : s'.calls = s.calls

/-! ### Removals -/

theorem held_perm {l l' : List (ObjEnt α ObjVal)} (h : (ent :: l').Perm l) :
    (held l).Perm (ent.val.node?.toList ++ held l') := by
  have hp := (h.filterMap (·.val.node?)).symm
  cases hn : ent.val.node? with
  | none => simpa [held, hn] using hp
  | some n => simpa [held, hn] using hp

theorem foldSum_perm {r : Registry} {l l' : List (ObjEnt α ObjVal)} (h : (ent :: l').Perm l) :
    foldSum cfg r l = (membershipView cfg r ent.val).nfolds + foldSum cfg r l' := by
  unfold foldSum
  rw [← (h.map _).sum_eq, List.map_cons, List.sum_cons]

section Steps
variable [DecidableEq α]

/-- The entry of a slot goes, and its reference with it. -/
theorem Inv.removeObject (h : Inv cfg s) (hopen : s.side.Open) (ha : s.side.objects[a]? = some ent)
    {settle : Registry → Registry} (hsettle : ∀ {r l}, Shared cfg.internHash r l →
      Shared cfg.internHash (settle r) l ∧ Extends r (settle r)) :
    ∃ s', removeObject cfg s a settle = (s', none) ∧ Inv cfg s' ∧ TakesOut cfg s s' a := by
  have hlt := (List.getElem?_eq_some_iff.mp ha).1
  have hmem := List.mem_of_getElem? ha
  obtain ⟨c, hc, hw, -, hview⟩ := h.view hmem
  obtain ⟨side, hrem, hremoves⟩ := h.sound.remove hopen hlt
  have hperm := hremoves.perm h.sound ha
  have hsub : ∀ e ∈ side.objects, e ∈ s.side.objects := fun e he =>
    hperm.mem_iff.mp (List.mem_cons_of_mem ent he)
  obtain ⟨hs, he⟩ := hsettle h.shared
  -- The registry after the reference is gone.
  obtain ⟨r, hr, hshared, hext⟩ : ∃ r, releaseHeld (settle s.registry) (heldSet cfg c.folds.length ent.val) = r ∧
      Shared cfg.internHash r (held side.objects) ∧ Extends s.registry r := by
    rw [hw.encodes.heldSet]
    have hheld := hs.perm (held_perm hperm).symm
    cases hn : ent.val.node? with
    | none =>
      rw [hn] at hheld
      exact ⟨_, rfl, hheld, he⟩
    | some n =>
      rw [hn] at hheld
      obtain ⟨hs', he'⟩ := hheld.release
      exact ⟨_, rfl, hs', he.trans he'⟩
  refine ⟨{ s with side, registry := r, edges := s.edges - c.folds.length }, ?_, ?_, ?_⟩
  · unfold Index.removeObject
    simp only [ha, hview, hrem, hr]
  · refine ⟨hremoves.sound, h.calls, fun e hmem' => ?_, ?_, hshared, ?_, ?_, fun hret => ?_⟩
    · obtain ⟨d, hd, hwd⟩ := h.entries e (hsub e hmem')
      exact ⟨d, hd, hwd.extends hext⟩
    · have := (hperm.map (·.val.call)).nodup_iff.mpr h.once
      exact (List.nodup_cons.mp this).2
    · show s.edges - c.folds.length = foldSum cfg r side.objects
      have hsum : foldSum cfg r side.objects = foldSum cfg s.registry side.objects := by
        unfold foldSum
        rw [List.map_congr_left fun e hmem' => by rw [h.view_extends (hsub e hmem') hext]]
      have := @foldSum_perm _ cfg _ s.registry _ _ hperm
      rw [hview] at this
      rw [h.edges, hsum, this]
      exact Nat.add_sub_cancel_left ..
    · obtain ⟨k, hk⟩ := h.directory
      refine ⟨k, hk.fewer ?_⟩
      have := hperm.length_eq
      rw [List.length_cons] at this
      show side.objects.length ≤ _
      omega
    · rw [h.sealed hret] at hmem
      cases hmem
  · exact ⟨hremoves, hext, rfl, rfl⟩

omit [DecidableEq α] in
theorem Inv.view_ne_zero (h : Inv cfg s) (ha : s.side.objects[a]? = some ent) :
    (membershipView cfg s.registry ent.val).nfolds ≠ 0 := by
  obtain ⟨c, -, hw, -, hview⟩ := h.view (List.mem_of_getElem? ha)
  rw [hview]
  exact fun h0 => hw.encodes.some' (List.length_eq_zero_iff.mp h0)

/-- An invalidation takes out its object, if it is there. -/
theorem Inv.invalidate (h : Inv cfg s) (hopen : s.side.Open) (oc : α) :
    Inv cfg (s.invalidate cfg oc) ∧ (oc ∉ s.side.ocs ∧ s.invalidate cfg oc = s ∨
      ∃ a ent, s.side.objects[a]? = some ent ∧ ent.oc = oc ∧ TakesOut cfg s (s.invalidate cfg oc) a) := by
  unfold Index.invalidate
  by_cases ho : oc ∈ s.side.ocs
  · obtain ⟨a, ha⟩ := List.mem_iff_getElem?.mp ho
    obtain ⟨r, b, hf, -⟩ := h.sound.filed.find_found hopen ha
    rw [getElem?_ocs] at ha
    obtain ⟨ent, hent, rfl⟩ := Option.map_eq_some_iff.mp ha
    simp only [hf, hent]
    rw [if_neg (h.view_ne_zero hent)]
    obtain ⟨s', hr, hinv, htakes⟩ := @Inv.removeObject _ _ _ _ _ _ h hopen hent
      (fun r => if cfg.interned then r.migrate internMigrateSteps else r) fun hs => by
        split
        · obtain ⟨hs', hm⟩ := hs.migrate internMigrateSteps
          exact ⟨hs', hm.extends⟩
        · exact ⟨hs, .refl⟩
    rw [hr]
    exact ⟨hinv, .inr ⟨a, ent, hent, rfl, htakes⟩⟩
  · rw [h.sound.filed.find_absent hopen ho]
    exact ⟨h, .inl ⟨ho, rfl⟩⟩

/-- The scan passes an object. -/
def pass (s : Index α) : Index α := { s with side := { s.side with sweepRemaining := s.side.sweepRemaining - 1 } }

omit [DecidableEq α] in
theorem Inv.swept (h : Inv cfg s) {active : Bool} {remaining : Nat}
    (hle : active = true → remaining ≤ s.side.objects.length) :
    Inv cfg { s with side := { s.side with sweepActive := active, sweepRemaining := remaining } } := by
  refine ⟨?_, h.calls, h.entries, h.once, h.shared, h.edges, h.directory, h.sealed⟩
  have hs := h.sound
  exact
    { filed := hs.filed.shuffled rfl id (fun _ => rfl) fun r => .inl (by cases r <;> rfl)
      steady := ⟨hs.steady.active, hs.steady.both, hs.steady.cursor, hs.steady.passed⟩
      sweep := hle }

/-- A turn of the sweep takes out the object that it looks at, or passes it. -/
theorem Inv.sweepProbe (h : Inv cfg s) (hopen : s.side.Open) (hact : s.side.sweepActive = true)
    (hpos : 0 < s.side.sweepRemaining) (verdict : Verdict) :
    Inv cfg (s.sweepProbe cfg verdict) ∧
      (if verdict = .hard then TakesOut cfg s (s.sweepProbe cfg verdict) (s.side.sweepRemaining - 1)
        else s.sweepProbe cfg verdict = s.pass) := by
  have hle := h.sound.sweep hact
  have hent := List.getElem?_eq_getElem (show s.side.sweepRemaining - 1 < s.side.objects.length by omega)
  unfold Index.sweepProbe
  dsimp only
  simp only [hent]
  by_cases hv : verdict = .hard
  · rw [if_pos (.inr hv), if_pos hv]
    obtain ⟨s', hr, hinv, htakes⟩ := @Inv.removeObject _ _ _ _ _ _ h hopen hent id fun hs => ⟨hs, .refl⟩
    rw [hr]
    exact ⟨hinv, htakes⟩
  · rw [if_neg (not_or.mpr ⟨h.view_ne_zero hent, hv⟩), if_neg hv]
    refine ⟨?_, rfl⟩
    exact @Inv.swept _ _ _ h s.side.sweepActive _ fun _ => by omega

theorem Inv.killLoop (h : Inv cfg s) (hopen : s.side.Open) {n : Nat} (hn : s.side.objects.length = n) :
    Inv cfg (killLoop cfg n s) ∧ Clears s (killLoop cfg n s) := by
  induction n generalizing s with
  | zero => exact ⟨h, ⟨List.length_eq_zero_iff.mp hn, rfl, .refl, rfl⟩⟩
  | succ n ih =>
    have hent := List.getElem?_eq_getElem (show s.side.objects.length - 1 < s.side.objects.length by omega)
    obtain ⟨s', hr, hinv, htakes⟩ := @Inv.removeObject _ _ _ _ _ _ h hopen hent id fun hs => ⟨hs, .refl⟩
    have hlen := (htakes.removes.perm h.sound hent).length_eq
    rw [List.length_cons] at hlen
    unfold Index.killLoop
    simp only [hr]
    obtain ⟨hinv', hclears⟩ := ih hinv (htakes.removes.thins.open hopen) (by omega)
    exact ⟨hinv', ⟨hclears.objects, hclears.sweepActive.trans htakes.removes.thins.sweepActive,
      htakes.extends'.trans hclears.extends', hclears.calls.trans htakes.calls⟩⟩

/-- The flag `retired`, which the sections that remove objects do not look at. -/
def mark (s : Index α) (b : Bool) : Index α := { s with retired := b }

theorem removeObject_mark (b : Bool) (settle : Registry → Registry) :
    removeObject cfg (s.mark b) a settle = ((removeObject cfg s a settle).1.mark b, (removeObject cfg s a settle).2) := by
  unfold Index.removeObject mark
  dsimp only
  split
  · rfl
  · split <;> rfl

theorem killLoop_mark (b : Bool) (n : Nat) : killLoop cfg n (s.mark b) = (killLoop cfg n s).mark b := by
  induction n generalizing s with
  | zero => rfl
  | succ n ih =>
    unfold Index.killLoop
    rw [show (s.mark b).side = s.side from rfl, removeObject_mark]
    cases hr : Index.removeObject cfg s (s.side.objects.length - 1) id with
    | mk t e =>
      cases e with
      | none => exact ih
      | some e => rfl

/-- A retirement leaves a sealed index without objects. -/
theorem Inv.retire (h : Inv cfg s) (hopen : s.side.Open) :
    Inv cfg ((s.mark true).killAll cfg) ∧ Clears s ((s.mark true).killAll cfg) := by
  unfold Index.killAll
  rw [show (s.mark true).side = s.side from rfl, killLoop_mark]
  obtain ⟨hinv, hclears⟩ := h.killLoop hopen rfl
  exact ⟨⟨hinv.sound, hinv.calls, hinv.entries, hinv.once, hinv.shared, hinv.edges, hinv.directory,
    fun _ => hclears.objects⟩, ⟨hclears.objects, hclears.sweepActive, hclears.extends', hclears.calls⟩⟩

/-! ### Resizes -/

omit [DecidableEq α] in
theorem Inv.held_nil (h : Inv cfg s) (hmode : cfg.interned = false) : held s.side.objects = [] := by
  rw [held, List.filterMap_eq_nil_iff]
  intro e he
  obtain ⟨c, -, hw⟩ := h.entries e he
  have hmem := hw.encodes.membership
  unfold ObjVal.node?
  cases hv : e.val.membership with
  | inlineOne fold => rfl
  | vector v => rfl
  | set n =>
    rw [hv, hmode] at hmem
    exact absurd hmem.1 (by simp)

omit [DecidableEq α] in
theorem Inv.detachAll (h : Inv cfg s) (hidle : s.side.sweepActive = false) :
    Inv cfg (s.detachAll cfg) ∧ Clears s (s.detachAll cfg) := by
  have hregistry : Shared cfg.internHash (s.detachAll cfg).registry [] ∧ Extends s.registry (s.detachAll cfg).registry := by
    unfold Index.detachAll
    dsimp only
    split
    · exact h.shared.detachAll
    · rename_i hmode
      have := h.shared
      rw [h.held_nil (by simpa using hmode)] at this
      exact ⟨this, .refl⟩
  obtain ⟨hshared, hext⟩ := hregistry
  refine ⟨⟨?_, h.calls, by simp [Index.detachAll, SideIndex.detachAll, SideIndex.endMigration], List.nodup_nil, hshared, rfl, ?_,
    fun _ => rfl⟩, ⟨rfl, rfl, hext, rfl⟩⟩
  · have hnew : Sound cfg.sideHash (SideIndex.new : SideIndex α ObjVal) := .new
    exact
      { filed := hnew.filed.shuffled rfl id (fun _ => rfl) fun r => .inl (by cases r <;> rfl)
        steady := ⟨hnew.steady.active, hnew.steady.both, hnew.steady.cursor, hnew.steady.passed⟩
        sweep := fun hact => absurd (hidle.symm.trans hact) (by simp) }
  · obtain ⟨k, hk⟩ := h.directory
    exact ⟨0, hk.detachSegments (j := 0) (Nat.zero_le k) (Nat.le_refl 0)⟩

omit [DecidableEq α] in
theorem Inv.applyLowWater (h : Inv cfg s) : Inv cfg s.applyLowWater ∧ Rests s s.applyLowWater := by
  obtain ⟨k, hk⟩ := h.directory
  unfold Index.applyLowWater
  split_ifs with hempty hlow
  · obtain ⟨hinv, hrest⟩ := h.resize (h.sound.detachAll hempty.1).1
    have hdir : (s.directory.detachSegments 0).Holds s.side.objects.length 0 :=
      hk.detachSegments (j := 0) (Nat.zero_le k) (by rw [hempty.1]; exact Nat.le_refl 0)
    obtain ⟨hinv', hrest'⟩ := hinv.direct ⟨0, hdir⟩
    exact ⟨hinv', hrest.trans hrest'⟩
  · exact h.direct (hk.lowWater hlow)
  · exact ⟨h, .refl⟩

/-! ### Every section -/

/-- The sweep is over, for whatever reason. -/
def endSweep (s : Index α) : Index α := { s with side := { s.side with sweepActive := false, sweepRemaining := 0 } }

/-- What a section does to the dense array. -/
def Effect (cfg : Config α) (s s' : Index α) : IndexEvent α → Prop
  | .attach i _ => ∃ c, s.calls[i]? = some c ∧ Attaching cfg s s' i c
  | .invalidate oc =>
    oc ∉ s.side.ocs ∧ s' = s ∨ ∃ a ent, s.side.objects[a]? = some ent ∧ ent.oc = oc ∧ TakesOut cfg s s' a
  | .sweepStart =>
    s.side.sweepActive = false ∧
      s' = { s with side := { s.side with sweepActive := true, sweepRemaining := s.side.objects.length } }
  | .sweepProbe verdict =>
    s.side.sweepActive = true ∧ 0 < s.side.sweepRemaining ∧
      if verdict = .hard then TakesOut cfg s s' (s.side.sweepRemaining - 1) else s' = s.pass
  | .sweepEnd => s' = s.endSweep
  | .sweepAbort => s' = s.endSweep
  | .killAll => Clears s s'
  | .retire => Clears s s'
  | .detachAll => Clears s s'
  | _ => Rests s s'

/-- Every section keeps the invariant, as long as no side table has become full. -/
theorem Inv.step (h : Inv cfg s) (hopen : s.side.Open) {e : IndexEvent α} (hs : step cfg s e = some s') :
    Inv cfg s' ∧ Effect cfg s s' e := by
  cases e with
  | begin oc given regSeq allocated =>
    cases hs
    exact h.begin oc given regSeq allocated
  -- Only an attach and a removal search a side table, and they need one that is not full.
  | attach i ok =>
    simp only [Index.step] at hs
    cases hc : s.calls[i]? with
    | none =>
      rw [hc] at hs
      cases hs
    | some c =>
      rw [hc] at hs
      obtain ⟨hinv, hatt⟩ := h.attachSection hopen hc hs
      exact ⟨hinv, c, hc, hatt⟩
  | invalidate oc =>
    cases hs
    exact h.invalidate hopen oc
  | sweepStart =>
    simp only [Index.step] at hs
    split at hs <;> cases hs
    rename_i hidle
    exact ⟨h.swept fun _ => Nat.le_refl _, by simpa using hidle, rfl⟩
  | sweepProbe verdict =>
    simp only [Index.step] at hs
    split at hs <;> cases hs
    rename_i hact
    obtain ⟨hinv, heff⟩ := h.sweepProbe hopen hact.1 hact.2 verdict
    exact ⟨hinv, hact.1, hact.2, heff⟩
  | sweepEnd =>
    simp only [Index.step] at hs
    split at hs <;> cases hs
    exact ⟨h.swept fun _ => Nat.zero_le _, rfl⟩
  | sweepAbort =>
    simp only [Index.step] at hs
    split at hs <;> cases hs
    exact ⟨h.swept fun _ => Nat.zero_le _, rfl⟩
  | killAll =>
    cases hs
    exact h.killLoop hopen rfl
  | retire =>
    cases hs
    exact h.retire hopen
  | detachAll =>
    simp only [Index.step] at hs
    split at hs <;> cases hs
    rename_i hidle
    exact h.detachAll (by simpa using hidle)
  | migrateIntern =>
    cases hs
    show Inv cfg (if _ then _ else s) ∧ Rests s (if _ then _ else s)
    split
    · obtain ⟨hshared, hm⟩ := h.shared.migrate resizeInternBatchSteps
      exact h.settle hshared hm.extends
    · exact ⟨h, .refl⟩
  -- The rest is maintenance, which moves what is there and takes nothing away.
  | migrateSideBatch overrun =>
    cases hs
    exact h.resize (h.sound.migrateSideBatch overrun).1
  | publishObjectSegment oldCapacity =>
    cases hs
    obtain ⟨k, hk⟩ := h.directory
    exact h.direct (hk.publishSegment oldCapacity)
  | lowWater =>
    cases hs
    show Inv cfg (if _ then _ else s) ∧ Rests s (if _ then _ else s)
    split
    · exact h.applyLowWater
    · exact ⟨h, .refl⟩
  | publishShrink n =>
    cases hs
    exact h.resize h.sound.publishShrink.1
  | publishSideDestination n reason =>
    cases hs
    exact h.resize (h.sound.publishSideDestination hopen).1

/-- No side table has become full before the step. -/
def NotFull (s : Index α) (_ : IndexEvent α) : Prop := s.side.Open

instance (s : Index α) (e : IndexEvent α) : Decidable (NotFull s e) := inferInstanceAs (Decidable s.side.Open)

theorem reach_inv (h : Machine.Reach (Index.step cfg) NotFull Index.new s) : Inv cfg s :=
  h.inv .new fun _ hinv hopen hst => (hinv.step hopen hst).1

end Steps
end Cachetag.Index
