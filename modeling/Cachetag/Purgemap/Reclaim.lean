import Cachetag.Purgemap.Refine

/-! The reclaim of the purge map: `cachetag_purgemap_reclaim_locked` drops the sequences up to a cutoff,
    with the entries and floors that hold nothing else. -/

namespace Cachetag.Purgemap

/-- A sequence as a reclaim leaves it. -/
def cutSeq (cutoff seq : Nat) : Nat := if seq ≤ cutoff then 0 else seq

/-- An entry as `cachetag_purgemap_entry_survives_cutoff` leaves it. -/
def Entry.cut (cutoff : Nat) (e : Entry) : Entry := ⟨e.fold, cutSeq cutoff e.hardSeq, cutSeq cutoff e.softSeq⟩

/-- `cachetag_purgemap_entry_survives_cutoff` -/
def Entry.survives (cutoff : Nat) (e : Entry) : Bool :=
  e.Live && ((e.cut cutoff).hardSeq != 0 || (e.cut cutoff).softSeq != 0)

/-- The entries a reclaim copies. -/
def survivors (cutoff : Nat) (l : List Entry) : List Entry := (l.filter (Entry.survives cutoff)).map (Entry.cut cutoff)

/-- The map behind the new table of a reclaim. -/
def Map.reclaimed (pm : Map) (cutoff kept : Nat) (tbl : Option Table) : Map :=
  { pm with
    table := tbl
    nentry := kept
    ntombstone := 0
    hardFloor := cutSeq cutoff pm.hardFloor
    softFloor := cutSeq cutoff pm.softFloor }

/-- `cachetag_purgemap_reclaim_locked` -/
def reclaim (env : Env) (pm : Map) (cutoff : Nat) : Except Fault Map :=
  let kept := survivors cutoff (pm.table.elim [] Table.entries)
  if kept.length = 0 then .ok (pm.reclaimed cutoff 0 none)
  else
    match tableNew env.tableAlloc (roomFor kept.length kept.length initialSlots) with
    | none => .error .enomem
    | some fresh =>
      match insertAll kept fresh with
      | .error f => .error f
      | .ok tbl => .ok (pm.reclaimed cutoff kept.length (some tbl))

/-- `pm'` is `pm` without the sequences up to the cutoff. -/
structure ReclaimsTo (pm pm' : Map) (cutoff : Nat) : Prop where
  live : pm'.live.Perm (survivors cutoff pm.live)
  hard : pm'.hardFloor = cutSeq cutoff pm.hardFloor
  soft : pm'.softFloor = cutSeq cutoff pm.softFloor
  seq : pm'.seq = pm.seq

section
variable {env : Env} {pm pm' : Map} {t : Table} {l : List Entry} {e : Entry} {log : List Purge} {s : History}
  {cutoff seq regSeq b : Nat} {m : PurgeMode} {folds : List Nat}

theorem lt_cutSeq : regSeq < cutSeq cutoff seq ↔ regSeq < seq ∧ cutoff < seq := by
  unfold cutSeq
  split <;> omega

theorem cutSeq_le : cutSeq cutoff seq ≤ seq := by
  unfold cutSeq
  split <;> omega

theorem cutSeq_of_lt (h : cutoff < seq) : cutSeq cutoff seq = seq := if_neg (Nat.not_le.mpr h)

theorem Entry.seqOf_cut : (e.cut cutoff).seqOf m = cutSeq cutoff (e.seqOf m) := by
  cases m <;> rfl

theorem mem_survivors : e ∈ survivors cutoff l ↔ ∃ x ∈ l, x.survives cutoff = true ∧ x.cut cutoff = e := by
  simp [survivors, and_assoc]

theorem Entry.survives_iff : e.survives cutoff = true ↔ e.Live ∧ ∃ m, cutoff < e.seqOf m := by
  have hmode : (∃ m, cutoff < e.seqOf m) ↔ cutoff < e.hardSeq ∨ cutoff < e.softSeq :=
    ⟨fun ⟨m, hm⟩ => by cases m <;> simp_all [Entry.seqOf], fun h => h.elim (⟨.hard, ·⟩) (⟨.soft, ·⟩)⟩
  rw [hmode]
  simp only [Entry.survives, Entry.cut, cutSeq, Bool.and_eq_true, Bool.or_eq_true, bne_iff_ne, decide_eq_true_eq]
  refine and_congr_right fun _ => ?_
  split <;> split <;> omega

theorem survivors_live : survivors cutoff t.live = survivors cutoff t.entries := by
  unfold survivors Table.live
  rw [List.filter_filter]
  congr 1
  refine List.filter_congr fun e _ => ?_
  simp only [Entry.survives]
  cases decide e.Live <;> simp

/-- The copies of a reclaim are entries of distinct folds. -/
theorem survivors_nodup (h : (l.map (·.fold)).Nodup) : ((survivors cutoff l).map (·.fold)).Nodup := by
  have hfold : (survivors cutoff l).map (·.fold) = (l.filter (Entry.survives cutoff)).map (·.fold) := by
    simp [survivors, Entry.cut, Function.comp_def]
  rw [hfold]
  exact h.sublist (List.filter_sublist.map _)

variable (env cutoff) in
/-- A reclaim drops what it should, or memory is short. -/
theorem reclaim_spec (h : pm.WF) :
    (∃ pm', reclaim env pm cutoff = .ok pm' ∧ pm'.WF ∧ ReclaimsTo pm pm' cutoff) ∨
    reclaim env pm cutoff = .error .enomem := by
  have hkept : survivors cutoff (pm.table.elim [] Table.entries) = survivors cutoff pm.live := by
    unfold Map.live
    cases pm.table with
    | none => rfl
    | some t => exact survivors_live.symm
  unfold reclaim
  rw [hkept]
  dsimp only
  split
  · rename_i hzero
    have hnil := List.eq_nil_of_length_eq_zero hzero
    refine Or.inl ⟨_, rfl, ⟨nofun, rfl, rfl⟩, ?_, rfl, rfl, rfl⟩
    rw [hnil]
    exact List.Perm.refl _
  have hbound := loop_bound (survivors cutoff pm.live).length initialSlots (Nat.le_refl _)
  obtain ⟨hpow, hbig, hload⟩ := roomFor_spec powTwo_initialSlots hbound
  split
  · exact Or.inr rfl
  · rename_i fresh halloc
    obtain rfl := tableNew_eq halloc
    obtain ⟨t', hins, hwf, hnslot, hperm⟩ := insertAll_new (survivors cutoff pm.live) hpow hbig
      (fun e he => by
        obtain ⟨x, hx, -, rfl⟩ := mem_survivors.mp he
        exact show x.Live from Map.live_live hx)
      (survivors_nodup h.nodup) (by simpa using (Table.WF.new hpow hbig).room_of_load (by simpa using hload))
    rw [hins]
    refine Or.inl ⟨_, rfl, ⟨?_, hperm.length_eq.symm, rfl⟩, hperm, rfl, rfl, rfl⟩
    rintro _ ⟨⟩
    exact ⟨hwf, by rw [hnslot]; exact hload⟩

theorem ReclaimsTo.floor (h : ReclaimsTo pm pm' cutoff) : pm'.floor m = cutSeq cutoff (pm.floor m) := by
  cases m
  · exact h.hard
  · exact h.soft

/-- Whatever an object was registered behind the cutoff with, its verdict stays. -/
theorem ReclaimsTo.verdict (h : ReclaimsTo pm pm' cutoff) (hreg : cutoff ≤ regSeq) :
    mapVerdict pm'.live pm'.hardFloor pm'.softFloor regSeq folds =
      mapVerdict pm.live pm.hardFloor pm.softFloor regSeq folds := by
  have floors : ∀ m, regSeq < pm'.floor m ↔ regSeq < pm.floor m := fun m => by
    rw [h.floor, lt_cutSeq]
    exact and_iff_left_of_imp fun hlt => Nat.lt_of_le_of_lt hreg hlt
  have entries : ∀ m, (∃ e ∈ pm'.live, e.fold ∈ folds ∧ regSeq < e.seqOf m) ↔
      ∃ e ∈ pm.live, e.fold ∈ folds ∧ regSeq < e.seqOf m := by
    intro m
    constructor
    · rintro ⟨e, he, hf, hlt⟩
      obtain ⟨x, hx, -, rfl⟩ := mem_survivors.mp (h.live.mem_iff.mp he)
      rw [Entry.seqOf_cut, lt_cutSeq] at hlt
      exact ⟨x, hx, hf, hlt.1⟩
    · rintro ⟨e, he, hf, hlt⟩
      have hcut : cutoff < e.seqOf m := Nat.lt_of_le_of_lt hreg hlt
      have hsurvives := Entry.survives_iff.mpr ⟨Map.live_live he, m, hcut⟩
      refine ⟨e.cut cutoff, h.live.mem_iff.mpr (mem_survivors.mpr ⟨e, he, hsurvives, rfl⟩), hf, ?_⟩
      rw [Entry.seqOf_cut, lt_cutSeq]
      exact ⟨hlt, hcut⟩
  have hardFloor := floors .hard
  have softFloor := floors .soft
  have hardEntries := entries .hard
  have softEntries := entries .soft
  simp only [Map.floor, Entry.seqOf] at hardFloor softFloor hardEntries softEntries
  unfold mapVerdict
  simp only [hardFloor, softFloor, hardEntries, softEntries]

/-- The purges behind the cutoff stay represented. -/
theorem Represents.reclaimsTo (h : Represents log pm.live pm.floor) (hto : ReclaimsTo pm pm' cutoff) :
    Represents (log.filter fun p => cutoff < p.seq) pm'.live pm'.floor where
  kept := by
    intro p hp
    obtain ⟨hp, hlt⟩ := List.mem_filter.mp hp
    have hlt := of_decide_eq_true hlt
    rcases h.kept p hp with hfloor | ⟨e, he, hf, hle⟩
    · left
      rw [hto.floor, cutSeq_of_lt (Nat.lt_of_lt_of_le hlt hfloor)]
      exact hfloor
    · right
      have hcut : cutoff < e.seqOf p.mode := Nat.lt_of_lt_of_le hlt hle
      have hsurvives := Entry.survives_iff.mpr ⟨Map.live_live he, p.mode, hcut⟩
      refine ⟨e.cut cutoff, hto.live.mem_iff.mpr (mem_survivors.mpr ⟨e, he, hsurvives, rfl⟩), hf, ?_⟩
      rw [Entry.seqOf_cut, cutSeq_of_lt hcut]
      exact hle
  logged := by
    intro e he m hne
    obtain ⟨x, hx, -, rfl⟩ := mem_survivors.mp (hto.live.mem_iff.mp he)
    rw [Entry.seqOf_cut] at hne ⊢
    have hcut : cutoff < x.seqOf m := by
      by_contra hle
      exact hne (if_pos (Nat.not_lt.mp hle))
    rw [cutSeq_of_lt hcut] at hne ⊢
    exact List.mem_filter.mpr ⟨h.logged x hx m hne, decide_eq_true hcut⟩

theorem Map.Below.reclaimsTo (h : pm.Below b) (hto : ReclaimsTo pm pm' cutoff) : pm'.Below b where
  live := by
    intro e he
    obtain ⟨x, hx, hs, rfl⟩ := mem_survivors.mp (hto.live.mem_iff.mp he)
    obtain ⟨hh, hs', -⟩ := h.live x hx
    obtain ⟨-, m, hm⟩ := Entry.survives_iff.mp hs
    refine ⟨cutSeq_le.trans hh, cutSeq_le.trans hs', ?_⟩
    have hpos : 0 < (x.cut cutoff).seqOf m := by
      rw [Entry.seqOf_cut, cutSeq_of_lt hm]
      omega
    cases m
    · exact Nat.lt_of_lt_of_le hpos (Nat.le_max_left _ _)
    · exact Nat.lt_of_lt_of_le hpos (Nat.le_max_right _ _)
  hard := hto.hard ▸ cutSeq_le.trans h.hard
  soft := hto.soft ▸ cutSeq_le.trans h.soft

theorem Sound.reclaimsTo (h : Sound log pm) (hto : ReclaimsTo pm pm' cutoff) :
    Sound (log.filter fun p => cutoff < p.seq) pm' where
  below := hto.seq ▸ h.below.reclaimsTo hto
  represents := h.represents.reclaimsTo hto

end
end Cachetag.Purgemap
