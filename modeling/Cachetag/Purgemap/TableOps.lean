import Cachetag.Purgemap.Table

/-! What the probe loops of the purge map find, and what its inserts leave. -/

namespace Cachetag.Purgemap
open LinearProbe

namespace Table
variable {t : Table} {e : Entry} {i p fold seq regSeq : Nat}

/-- A probe for a fold comes to the slot that holds it, or to an empty slot when none does. -/
theorem WF.search (h : WF t) (hroom : t.live.length < t.nslot) (hf : fold ≠ EMPTY) :
    ∃ d < t.nslot,
      (∀ i < d, (t.slot (cyc t.nslot (t.home fold) i)).fold ≠ EMPTY ∧
        (t.slot (cyc t.nslot (t.home fold) i)).fold ≠ fold) ∧
      ((t.slot (cyc t.nslot (t.home fold) d)).fold = fold ∨
        ((t.slot (cyc t.nslot (t.home fold) d)).fold = EMPTY ∧ ∀ i < t.nslot, (t.slot i).fold ≠ fold)) := by
  classical
  obtain ⟨q, hq, hqe⟩ := h.exists_empty hroom
  obtain ⟨d₀, hd₀, rfl⟩ := exists_cyc h.pow (h.home_lt fold) hq
  let stop : Nat → Entry → Prop := fun _ ent => ent.fold = EMPTY ∨ ent.fold = fold
  have hex : ∃ d, stop (cyc t.nslot (t.home fold) d) (t.slot (cyc t.nslot (t.home fold) d)) := ⟨d₀, Or.inl hqe⟩
  have hlt : Nat.find hex < t.nslot := Nat.lt_of_le_of_lt (Nat.find_le (Or.inl hqe)) hd₀
  have hbefore : ∀ i < Nat.find hex,
      ¬stop (cyc t.nslot (t.home fold) i) (t.slot (cyc t.nslot (t.home fold) i)) :=
    fun i hi => Nat.find_min hex hi
  refine ⟨Nat.find hex, hlt, fun i hi => not_or.mp (hbefore i hi), ?_⟩
  rcases Nat.find_spec hex with hempty | hfound
  · refine Or.inr ⟨hempty, fun i hi heq => ?_⟩
    -- A path leads from the home of the fold to slot `i`, so the probe would have stopped there.
    have hpath := h.path i hi (by rwa [heq])
    rw [heq] at hpath
    obtain ⟨d, hd, hdi, hnon⟩ := hpath
    rcases Nat.lt_trichotomy (Nat.find hex) d with hlt' | heq' | hgt
    · exact hnon _ hlt' hempty
    · rw [heq', hdi, heq] at hempty
      exact hf hempty
    · exact hbefore d hgt (Or.inr (by rw [hdi, heq]))
  · exact Or.inl hfound

variable (regSeq) in
/-- The verdict of a single entry. -/
theorem tagVerdict_of_mem {l : List Entry} (he : e ∈ l) (huniq : ∀ x ∈ l, x.fold = e.fold → x = e) :
    tagVerdict l regSeq e.fold =
      if e.hardSeq > regSeq then .hard else if e.softSeq > regSeq then .soft else .none := by
  have hard : (∃ x ∈ l, x.fold = e.fold ∧ regSeq < x.hardSeq) ↔ e.hardSeq > regSeq :=
    ⟨fun ⟨x, hx, hxf, hlt⟩ => huniq x hx hxf ▸ hlt, fun hlt => ⟨e, he, rfl, hlt⟩⟩
  have soft : (∃ x ∈ l, x.fold = e.fold ∧ regSeq < x.softSeq) ↔ e.softSeq > regSeq :=
    ⟨fun ⟨x, hx, hxf, hlt⟩ => huniq x hx hxf ▸ hlt, fun hlt => ⟨e, he, rfl, hlt⟩⟩
  simp only [tagVerdict, hard, soft]

theorem tagVerdict_of_absent {l : List Entry} (h : ∀ x ∈ l, x.fold ≠ fold) : tagVerdict l regSeq fold = .none := by
  rw [tagVerdict, if_neg, if_neg]
  · rintro ⟨x, hx, hf, -⟩
    exact h x hx hf
  · rintro ⟨x, hx, hf, -⟩
    exact h x hx hf

theorem WF.absent_of_slots (h : WF t) (habs : ∀ i < t.nslot, (t.slot i).fold ≠ fold) : ∀ x ∈ t.live, x.fold ≠ fold := by
  intro x hx
  obtain ⟨i, hi, rfl, -⟩ := h.slot_of_mem_live hx
  exact habs i hi

/-- The probe loop ends, with the verdict of the entries on its fold. -/
theorem WF.probeOne (h : WF t) (hroom : t.live.length < t.nslot) (f : Fold) :
    probeOne (some t) regSeq f.val = some (tagVerdict t.live regSeq f.val) := by
  obtain ⟨d, hd, hgo, hend⟩ := h.search hroom f.ne_zero
  refine walk_eq h.pow (h.home_lt _) hd (fun _ => ()) (fun i hi => ?_) ?_
  · obtain ⟨hne, hnf⟩ := hgo i hi
    rw [probeVisit, if_neg hne, if_pos (Or.inr hnf)]
  · rcases hend with hfound | ⟨hempty, habs⟩
    · have hne : (t.slot (cyc t.nslot (t.home f.val) d)).fold ≠ EMPTY := by
        rw [hfound]
        exact f.ne_zero
      have hlt : cyc t.nslot (t.home f.val) d < t.nslot := cyc_lt h.pow
      have hmem := h.mem_live hlt hne
      have hv := tagVerdict_of_mem regSeq hmem fun x hx hxf => h.eq_of_fold hx hmem hxf
      rw [hfound] at hv
      rw [probeVisit, if_neg hne, if_neg, hv]
      · split <;> rfl
      · rintro (htomb | hnf)
        · exact h.noTomb _ hlt htomb
        · exact hnf hfound
    · rw [probeVisit, if_pos hempty, tagVerdict_of_absent (h.absent_of_slots habs)]

theorem probeVisit_stops :
    StopsOn (probeVisit regSeq fold) fun _ ent => ent.fold = EMPTY ∨ (ent.fold ≠ TOMBSTONE ∧ ent.fold = fold) := by
  intro _ _ ent
  unfold probeVisit
  by_cases hempty : ent.fold = EMPTY
  · simp [hempty]
  · by_cases hskip : ent.fold = TOMBSTONE ∨ ent.fold ≠ fold
    · simp only [hempty, hskip, if_true, if_false, Sum.isRight_inl, false_or]
      tauto
    · rw [if_neg hempty, if_neg hskip]
      push Not at hskip
      have hstop : ent.fold = EMPTY ∨ (ent.fold ≠ TOMBSTONE ∧ ent.fold = fold) := .inr hskip
      split <;> simp only [hstop, Sum.isRight_inr]

/-- Also a fold that no tag has ends at an empty slot. -/
theorem WF.probeOne_ends (h : WF t) (hroom : t.live.length < t.nslot) :
    ∃ v, Purgemap.probeOne (some t) regSeq fold = some v := by
  obtain ⟨i, hi, hempty⟩ := h.exists_empty hroom
  obtain ⟨d, hd, rfl⟩ := exists_cyc h.pow (h.home_lt fold) hi
  have hstops : StopsOn (probeVisit regSeq fold) _ := probeVisit_stops
  obtain ⟨-, -, -, -, v, -, hv⟩ := walk_first h.pow hstops (h.home_lt fold) hd (.inl hempty)
  exact ⟨v, hv⟩

/-- `cachetag_purgemap_table_insert_existing` finds a slot for a fold that the table lacks. -/
theorem WF.insertExisting (h : WF t) (hroom : t.live.length < t.nslot) (hl : e.Live)
    (hnew : ∀ x ∈ t.live, x.fold ≠ e.fold) :
    ∃ t', t.insertExisting e = some t' ∧ WF t' ∧ t'.nslot = t.nslot ∧ t'.live.Perm (e :: t.live) := by
  obtain ⟨d, hd, hgo, hend⟩ := h.search hroom hl.1
  have hlt : cyc t.nslot (t.home e.fold) d < t.nslot := cyc_lt h.pow
  rcases hend with hfound | ⟨hempty, habs⟩
  · exact absurd hfound (hnew _ (h.mem_live hlt (by rw [hfound]; exact hl.1)))
  · have hpath : PathTo t.slot (fun e => e.fold = EMPTY) t.nslot (t.home e.fold) (cyc t.nslot (t.home e.fold) d) :=
      PathTo.of_walk hd (Nat.le_refl d) fun i hi => (hgo i hi).1
    refine ⟨t.set (cyc t.nslot (t.home e.fold) d) e, ?_, h.fill hlt hempty hl habs hpath, nslot_set,
      live_fill hlt hempty hl⟩
    rw [Table.insertExisting, walk_eq h.pow (h.home_lt _) hd (fun _ => ())
      (fun i hi => if_neg (hgo i hi).1) (if_pos hempty), Option.map_some]

/-- Where the loop of an upsert ends: at the entry of its fold, or at an empty slot a path leads to. -/
theorem WF.upsertAt (h : WF t) (hroom : t.live.length < t.nslot) (f : Fold) :
    ∃ p < t.nslot,
      (walk t.slot t.nslot (upsertVisit f.val) t.nslot (t.home f.val) none = some (.found p) ∧
        (t.slot p).fold = f.val) ∨
      (walk t.slot t.nslot (upsertVisit f.val) t.nslot (t.home f.val) none = some (.insert p false) ∧
        (t.slot p).fold = EMPTY ∧ (∀ i < t.nslot, (t.slot i).fold ≠ f.val) ∧
        PathTo t.slot (fun e => e.fold = EMPTY) t.nslot (t.home f.val) p) := by
  obtain ⟨d, hd, hgo, hend⟩ := h.search hroom f.ne_zero
  have hlt : ∀ i, cyc t.nslot (t.home f.val) i < t.nslot := fun i => cyc_lt h.pow
  have hwalk : ∀ b, upsertVisit f.val none (cyc t.nslot (t.home f.val) d) (t.slot (cyc t.nslot (t.home f.val) d)) =
      .inr b → walk t.slot t.nslot (upsertVisit f.val) t.nslot (t.home f.val) none = some b := by
    intro b hb
    refine walk_eq h.pow (h.home_lt _) hd (fun _ => none) (fun i hi => ?_) hb
    obtain ⟨hne, hnf⟩ := hgo i hi
    rw [upsertVisit, if_neg hnf, if_neg (h.noTomb _ (hlt i)), if_neg hne]
  refine ⟨_, hlt d, ?_⟩
  rcases hend with hfound | ⟨hempty, habs⟩
  · exact Or.inl ⟨hwalk _ (if_pos hfound), hfound⟩
  · refine Or.inr ⟨hwalk _ ?_, hempty, habs, PathTo.of_walk hd (Nat.le_refl d) fun i hi => (hgo i hi).1⟩
    rw [upsertVisit, if_neg (habs _ (hlt d)), if_neg (h.noTomb _ (hlt d)), if_pos hempty]

end Table
end Cachetag.Purgemap
