import Cachetag.Purgemap.Life

/-! # The cap of the purge history

With a cap of `M` entries, a prune leaves three quarters of it: it drops the entries up to one cutoff, the sequence
of the right rank, and raises the floors to theirs. Its own checks never strike, and a table for what it keeps is no
larger than the one it has, so only a refused allocation or a failed checkpoint can leave a map above its cap. -/

namespace Cachetag.Purgemap
open LinearProbe

section Cap
variable {cfg : Config} {env : Env} {pm pm' mid : Map} {l : List Entry} {seqOf : Entry → Nat} {mode : PurgeMode}
  {d : Digest} {ds : List Digest} {fs : List Fold} {p : Purged} {seq need floor k cutoff : Nat} {force : Bool}

variable (seqOf) in
theorem raised_choice (l : List Entry) (floor : Nat) :
    raised seqOf floor l = floor ∨ ∃ e ∈ l, raised seqOf floor l = seqOf e := by
  induction l generalizing floor with
  | nil => exact Or.inl rfl
  | cons e l ih =>
    rcases ih (max floor (seqOf e)) with h | ⟨x, hx, h⟩
    · rcases max_choice floor (seqOf e) with hm | hm
      · exact Or.inl (h.trans hm)
      · exact Or.inr ⟨e, List.mem_cons_self, h.trans hm⟩
    · exact Or.inr ⟨x, List.mem_cons_of_mem _ hx, h⟩

/-- A raised floor is the greatest of its old value and the sequences raised to. -/
theorem raised_greatest : IsGreatest {x | x = floor ∨ ∃ e ∈ l, x = seqOf e} (raised seqOf floor l) := by
  refine ⟨raised_choice seqOf l floor, ?_⟩
  rintro x (rfl | ⟨e, he, rfl⟩)
  · exact floor_le_raised
  · exact le_raised seqOf he

theorem pruneTarget_le : pruneTarget k ≤ k * 3 / 4 := by
  unfold pruneTarget
  have hmod := Nat.mod_le (k * 75) (2 ^ 64)
  dsimp only
  split <;> omega

theorem pruneTarget_lt (h : 0 < k) : pruneTarget k < k := by
  unfold pruneTarget
  dsimp only
  split <;> omega

/-- What a prune keeps is what it was to leave, at most. -/
theorem PrunesTo.length_le (h : PrunesTo pm pm' cutoff)
    (hk : Quickselect.IsKth (pm.live.map Entry.newest) (need - 1) cutoff) : pm'.live.length ≤ pm.live.length - need := by
  have hcount : (pm.live.map Entry.newest).countP (· ≤ cutoff) = (pm.live.filter fun e => e.newest ≤ cutoff).length := by
    rw [List.countP_map, List.countP_eq_length_filter]
    rfl
  have hmany := hk.2
  rw [hcount] at hmany
  rw [h.live.length_eq, length_kept]
  omega

/-- A table that fits has few enough entries for `newest`, and one for fewer of them fits as well. -/
theorem Map.WF.prunable (h : pm.WF) (hf : pm.Fits) : pm.nentry ≤ sizeMax / 8 ∧
    ∀ kept ≤ pm.nentry, tableNew true (roomFor kept kept initialSlots) ≠ none := by
  cases ht : pm.table with
  | none =>
    have hzero : pm.nentry = 0 := by
      rw [h.count, Map.live, ht]
      rfl
    rw [hzero]
    refine ⟨Nat.zero_le _, fun kept hk => ?_⟩
    rw [Nat.le_zero.mp hk]
    decide
  | some t =>
    obtain ⟨hwf, hload⟩ := h.table t ht
    have hfit := hf t ht
    refine ⟨by unfold maxLoadPercent at hload; unfold sizeMax at *; omega, fun kept hk => ?_⟩
    have hle := roomFor_le kept powTwo_initialSlots hwf.pow hwf.big
      ((Nat.mul_le_mul_right 100 hk).trans hload)
    rw [tableNew, if_pos ⟨rfl, by omega⟩]
    exact Option.some_ne_none _

variable (cfg) in
/-- With memory to be had, a prune succeeds. -/
theorem prune_ok (h : pm.WF) (hf : pm.Fits) (hn : env.newestAlloc = true) (hr : env.replacementAlloc = true) :
    ∃ pm' n, prune cfg env pm = .ok (pm', n) := by
  obtain ⟨hfew, hnew⟩ := h.prunable hf
  rcases prune_spec cfg env h with ⟨-, hok⟩ | ⟨pm', n, cutoff, hok, -⟩ | ⟨f, -, -, -, -, hwhy⟩
  · exact ⟨_, _, hok⟩
  · exact ⟨_, _, hok⟩
  · rcases hwhy with hmany | hnone | ⟨kept, hk, hnone⟩
    · omega
    · rw [hn] at hnone
      cases hnone
    · rw [hr] at hnone
      exact absurd hnone (hnew kept hk)

theorem applyUpsert_fits (hf : pm.Fits) (h : applyUpsert pm k seq mode = .ok pm') : pm'.Fits := by
  unfold applyUpsert at h
  split at h
  · cases h
  rename_i tbl htbl
  split at h
  · cases h
  · cases h
    exact hf.of_nslot (by rw [htbl, Option.map_some, Option.map_some, Table.nslot_set])
  · cases h
    exact hf.of_nslot (by rw [htbl, Option.map_some, Option.map_some, Table.nslot_set])

theorem applyAll_fits (hf : pm.Fits) (h : applyAll seq mode fs pm = .ok pm') : pm'.Fits := by
  induction fs generalizing pm with
  | nil =>
    cases h
    exact hf
  | cons f fs ih =>
    rw [applyAll] at h
    split at h
    · cases h
    · rename_i mid hup
      exact ih (applyUpsert_fits hf hup) h

/-- With memory to be had and a checkpoint that is written, a prune brings a map under its cap. -/
theorem pruneCheckpoint_capped (h : pm.WF) (hb : pm.Below pm.seq) (hf : pm.Fits) (hM : 0 < cfg.historyMax)
    (hn : env.newestAlloc = true) (hr : env.replacementAlloc = true) (hw : env.checkpointWritten = true) :
    (pruneCheckpoint cfg env pm force).map.nentry ≤ cfg.historyMax := by
  have hlt := pruneTarget_lt hM
  rcases prune_spec cfg env h with ⟨hneed, hok⟩ | ⟨pm', n, cutoff, hok, hpos, hneed, hk, hwf, hto⟩ | ⟨f, herr, -⟩
  · have hfew : pm.nentry ≤ cfg.historyMax := by
      unfold pruneNeed at hneed
      split at hneed <;> omega
    simp only [pruneCheckpoint, hok]
    split
    · exact hfew
    · rw [if_neg (by decide)]
      exact hfew
  · have hle := hto.length_le hk
    have hcap : pm'.nentry ≤ cfg.historyMax := by
      rw [hwf.count]
      rw [← h.count] at hle
      unfold pruneNeed at hle hneed
      split at hneed
      · omega
      · rename_i hover
        rw [if_neg hover] at hle
        omega
    have hforce : (force || decide (n ≠ 0)) = true := by
      rw [decide_eq_true hpos.ne', Bool.or_true]
    have hwritten : ∃ w, checkpoint cfg env pm' (force || n ≠ 0) = .ok w := by
      cases hp : cfg.persist with
      | false => exact ⟨none, by rw [checkpoint, hp]; rfl⟩
      | true => exact ⟨_, checkpoint_ok hwf (hto.seq ▸ hto.below hb) hp (Or.inl hforce) hw⟩
    obtain ⟨w, hw⟩ := hwritten
    simp only [pruneCheckpoint, hok, hw]
    exact hcap
  · obtain ⟨pm', n, hok⟩ := prune_ok cfg h hf hn hr
    cases hok.symm.trans herr

/-- What commits a purge in a map with room for its folds. -/
theorem commitPurge_capped (h : pm.WF) (hb : pm.Below pm.seq) (hf : pm.Fits)
    (hroom : fs ≠ [] → pm.Room fs.length) (hM : 0 < cfg.historyMax) (hn : env.newestAlloc = true)
    (hr : env.replacementAlloc = true) (hw : env.checkpointWritten = true)
    (hp : commitPurge cfg env pm fs (pm.seq + 1) mode = .ok p) : p.map.nentry ≤ cfg.historyMax := by
  obtain ⟨mid, hall, hmid, hperm, hseq, -, hhard, hsoft⟩ :=
    applyAll_spec (pm.seq + 1) mode fs (h.with_seq (n := pm.seq + 1)) hroom
  have hseqf : Map.Fits { pm with seq := pm.seq + 1 } := hf
  have hmidf := applyAll_fits hseqf hall
  have hbelow : mid.Below mid.seq := by
    have hb' := hb.mono (Nat.le_succ pm.seq)
    rw [hseq]
    exact ⟨fun e he => upsertedAll_bound hb'.live (Nat.le_refl _) (Nat.succ_pos _) e (hperm.mem_iff.mp he),
      hhard ▸ hb'.hard, hsoft ▸ hb'.soft⟩
  rw [commitPurge, hall] at hp
  dsimp only at hp
  split at hp
  · cases hp
  · cases hp
    exact pruneCheckpoint_capped hmid hbelow hmidf hM hn hr hw

theorem purge_capped (h : pm.WF) (hb : pm.Below pm.seq) (hf : pm.Fits) (hM : 0 < cfg.historyMax)
    (hn : env.newestAlloc = true) (hr : env.replacementAlloc = true) (hw : env.checkpointWritten = true)
    (hp : purge cfg env pm d mode = .ok p) (hacc : p.reply = .accepted) : p.map.nentry ≤ cfg.historyMax := by
  rcases prepareUpsert_spec env h with ⟨mid, hmid, hwf, hs, hroom⟩ | herr
  · simp only [purge, hmid] at hp
    split at hp
    · cases hp
      cases hacc
    split at hp
    · cases hp
      cases hacc
    · have hroom' : [foldDigest d] ≠ [] → mid.Room [foldDigest d].length := fun _ => hroom
      exact commitPurge_capped hwf (hs.seq ▸ hb.same hs) (prepareUpsert_fits hf hmid) hroom' hM hn hr hw hp
  · simp only [purge, herr] at hp
    cases hp
    cases hacc

theorem purgeBatch_capped (h : pm.WF) (hb : pm.Below pm.seq) (hf : pm.Fits) (hM : 0 < cfg.historyMax)
    (hn : env.newestAlloc = true) (hr : env.replacementAlloc = true) (hw : env.checkpointWritten = true)
    (hp : purgeBatch cfg env pm ds mode = .ok p) (hacc : p.reply = .accepted) : p.map.nentry ≤ cfg.historyMax := by
  unfold purgeBatch at hp
  split at hp
  · cases hp
    cases hacc
  split at hp
  · cases hp
    cases hacc
  rcases prepareBatch_spec env ds.length h with ⟨mid, hmid, hwf, hs, hroom⟩ | ⟨f, herr, -⟩
  · rw [hmid] at hp
    dsimp only at hp
    split at hp
    · cases hp
      dsimp only at hacc
      split at hacc <;> cases hacc
    · rw [← hs.seq] at hp
      refine commitPurge_capped hwf (hs.seq ▸ hb.same hs) (prepareBatch_fits hf hmid) (fun hne => ?_) hM hn hr hw hp
      rw [List.length_map]
      exact hroom (List.length_pos_of_ne_nil fun h0 => hne (by rw [h0]; rfl))
  · rw [herr] at hp
    cases f with
    | loops => cases hp
    | _ =>
      cases hp
      cases hacc

end Cap

/-- What a prune under a cap of `M` entries has done. -/
structure Capped (M : Nat) (pm pm' : Map) (cutoff : Nat) : Prop where
  /-- the cutoff is the sequence of the right rank -/
  rank : ((pm.live.map Entry.newest).mergeSort (· ≤ ·))[pm.nentry - pruneTarget M - 1]? = some cutoff
  kept : pm'.live.Perm (pm.live.filter fun e => cutoff < e.newest)
  count : pm'.nentry = pm'.live.length
  small : pm'.nentry ≤ min (M * 3 / 4) (M - 1)
  hard : IsGreatest {x | x = pm.hardFloor ∨ ∃ e ∈ pm.live.filter fun e => e.newest ≤ cutoff, x = e.hardSeq} pm'.hardFloor
  soft : IsGreatest {x | x = pm.softFloor ∨ ∃ e ∈ pm.live.filter fun e => e.newest ≤ cutoff, x = e.softSeq} pm'.softFloor
  seq : pm'.seq = pm.seq

/-- A prune of a reached map above its cap never finds its own counts wrong. If it succeeds, it has dropped the entries
    up to the sequence of the right rank, kept the others as they are, raised the floors by what it dropped, and left
    three quarters of the cap at most. So an accepted purge leaves no more entries than the cap, if memory can be had
    and the checkpoint is written. -/
theorem history_cap (cfg : Config) (s : Life) (h : Machine.Reach (Life.step cfg) Machine.always Life.init s)
    (limits : Config) (hM : 0 < limits.historyMax) (env : Env) :
    (limits.historyMax < s.map.nentry → prune limits env s.map ≠ .error .einval ∧
      ∀ pm' pruned, prune limits env s.map = .ok (pm', pruned) →
        ∃ cutoff, Capped limits.historyMax s.map pm' cutoff) ∧
    (env.newestAlloc = true → env.replacementAlloc = true → env.checkpointWritten = true →
      (∀ d mode p, purge limits env s.map d mode = .ok p → p.reply = .accepted → p.map.nentry ≤ limits.historyMax) ∧
      ∀ ds mode p, purgeBatch limits env s.map ds mode = .ok p → p.reply = .accepted →
        p.map.nentry ≤ limits.historyMax) := by
  have hinv := Life.reach_inv h
  refine ⟨fun hover => ⟨?_, fun pm' pruned hp => ?_⟩, fun hn hr hw => ⟨?_, ?_⟩⟩
  · intro hp
    rcases prune_spec limits env hinv.wf with ⟨-, hok⟩ | ⟨pm', n, cutoff, hok, -⟩ | ⟨f, herr, -, hf, -⟩
    · cases hp.symm.trans hok
    · cases hp.symm.trans hok
    · exact hf (Except.error.inj (herr.symm.trans hp))
  · have hneed : pruneNeed limits s.map.nentry = s.map.nentry - pruneTarget limits.historyMax :=
      if_neg (not_or.mpr ⟨hM.ne', by omega⟩)
    have hlt := pruneTarget_lt hM
    have hle := pruneTarget_le (k := limits.historyMax)
    rcases prune_spec limits env hinv.wf with ⟨hzero, -⟩ | ⟨pm₁, n, cutoff, hok, -, -, hk, hwf, hto⟩ | ⟨f, herr, -⟩
    · rw [hneed] at hzero
      omega
    · cases hp.symm.trans hok
      rw [hneed] at hk
      have hlen := hto.length_le hk
      rw [← hwf.count, ← hinv.wf.count] at hlen
      refine ⟨cutoff, hk.sorted, hto.live, hwf.count, ?_, hto.hard ▸ raised_greatest,
        hto.soft ▸ raised_greatest, hto.seq⟩
      omega
    · cases hp.symm.trans herr
  · intro d mode p
    exact purge_capped hinv.wf hinv.below hinv.fits hM hn hr hw
  · intro ds mode p
    exact purgeBatch_capped hinv.wf hinv.below hinv.fits hM hn hr hw

/-- Three folds of two purges against a cap of two: the tied pair of the first goes as a whole, and a further purge
    is kept under the cap. -/
theorem history_cap_tied : ∃ s, Machine.run (Life.step ⟨0, false⟩) Life.init
      [.purgeBatch [⟨0, 7⟩, ⟨0, 9⟩] .soft .ok, .upsert, .upsert, .prune .ok, .purge ⟨0, 5⟩ .hard .ok, .upsert] = some s ∧
    (∃ pm' pruned cutoff, prune ⟨2, false⟩ .ok s.map = .ok (pm', pruned) ∧ Capped 2 s.map pm' cutoff) ∧
    ∃ p, purge ⟨2, false⟩ .ok s.map ⟨0, 11⟩ .hard = .ok p ∧ p.map.nentry ≤ 2 := by
  have hrun : ∃ s, Machine.run (Life.step ⟨0, false⟩) Life.init
      [.purgeBatch [⟨0, 7⟩, ⟨0, 9⟩] .soft .ok, .upsert, .upsert, .prune .ok, .purge ⟨0, 5⟩ .hard .ok, .upsert] = some s ∧
      2 < s.map.nentry ∧ (∃ x, prune ⟨2, false⟩ .ok s.map = .ok x) ∧
      ∃ p, purge ⟨2, false⟩ .ok s.map ⟨0, 11⟩ .hard = .ok p ∧ p.reply = .accepted :=
    ⟨_, rfl, by decide, ⟨_, rfl⟩, _, rfl, rfl⟩
  obtain ⟨s, hs, hover, ⟨⟨pm', pruned⟩, hprune⟩, p, hp, hacc⟩ := hrun
  have hcap := history_cap ⟨0, false⟩ s (.of_run hs) ⟨2, false⟩ (by decide) .ok
  obtain ⟨cutoff, hcut⟩ := (hcap.1 hover).2 pm' pruned hprune
  exact ⟨s, hs, ⟨pm', pruned, cutoff, hprune, hcut⟩, p, hp, (hcap.2 rfl rfl rfl).1 _ _ p hp hacc⟩

end Cachetag.Purgemap
