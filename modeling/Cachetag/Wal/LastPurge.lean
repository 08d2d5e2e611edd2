import Cachetag.Wal.KeyPurge

/-! # What of the live path can be replayed

A purge takes the sequence behind the map's, up to `UINT64_MAX`. The decoders and `cachetag_purgemap_checkpoint_begin`
refuse that last one: the purge that takes it is accepted and logged, and no replay gets past its record. -/

namespace Cachetag.KeyPurge
open Wal Purgemap

/-- A purge of the interface. -/
inductive PurgeCall where
  | one (digest : Digest)
  | batch (digests : List Digest)

def PurgeCall.keys : PurgeCall → List Digest
  | .one d => [d]
  | .batch ds => ds

def PurgeCall.run (cfg : Purgemap.Config) (env : Env) (pm : Map) (mode : PurgeMode) : PurgeCall → Except Fault Purged
  | .one d => purge cfg env pm d mode
  | .batch ds => purgeBatch cfg env pm ds mode

/-- The record it logs. -/
def PurgeCall.record (mode : PurgeMode) (seq : Nat) : PurgeCall → Payload
  | .one d => persistDigest d mode seq
  | .batch ds => persistBatch ds mode seq

/-- Distinct keys, in a count that is an `unsigned`. -/
structure PurgeCall.Valid (c : PurgeCall) : Prop where
  some : c.keys ≠ []
  distinct : c.keys.Nodup
  count : c.keys.length ≤ uintMax

/-- A replay of `n` keys into a map finds memory: for the keys, the table, and the arrays of a prune. -/
structure Memory (env : Env) (pm : Map) (n : Nat) : Prop where
  keys : env.foldsAlloc = true
  one : n = 1 → ∃ pm', prepareUpsert env pm = .ok pm'
  batch : n ≠ 1 → ∃ pm', prepareBatch env pm n = .ok pm'
  newest : env.newestAlloc = true
  replacement : env.replacementAlloc = true

/-- The record of a purge is read back, and replayed into every map that is where the purge's map was. -/
structure Replays (cfg : Purgemap.Config) (c : PurgeCall) (mode : PurgeMode) (seq : Nat) : Prop where
  decoded : ∃ keys, decode true (c.record mode seq) = .ok (keys, mode, seq) ∧ keys.Perm c.keys
  accepted : ∀ t : Life, Machine.Reach (Life.step cfg) Machine.always Life.init t → t.map.seq + 1 = seq →
    ∀ env, Memory env t.map c.keys.length → ∃ pm, replay cfg env t.map (c.record mode seq) = .ok pm

section Replay
variable {cfg : Purgemap.Config} {env : Env} {pm pm' : Map} {d : Digest} {ds : List Digest} {mode : PurgeMode} {seq n : Nat}
  {c : PurgeCall}

/-- With memory to be had, a replay of a later sequence goes through. -/
theorem replayOne_ok (h : pm.WF) (hf : pm.Fits) (hlt : pm.seq < seq) (hm : Memory env pm 1) :
    ∃ pm', replayOne cfg env pm d mode seq = .ok pm' := by
  obtain ⟨prep, hprep⟩ := hm.one rfl
  rcases prepareUpsert_spec env h with ⟨prep', hprep', hwf, -, hroom⟩ | herr
  · cases hprep.symm.trans hprep'
    obtain ⟨mid, hup, hmid, -⟩ := applyUpsert_spec (foldDigest d) seq mode hwf hroom
    have hmidf : mid.Fits := applyUpsert_fits (prepareUpsert_fits hf hprep) hup
    obtain ⟨out, k, hprune⟩ := prune_ok cfg (hmid.with_seq (n := seq)) hmidf hm.newest hm.replacement
    refine ⟨out, ?_⟩
    rw [replayOne, if_neg (Nat.not_le.mpr hlt), hprep]
    dsimp only
    rw [hup]
    dsimp only
    rw [hprune]
    rfl
  · cases hprep.symm.trans herr

theorem replayBatch_ok (h : pm.WF) (hf : pm.Fits) (hlt : pm.seq < seq) (htwo : 2 ≤ ds.length)
    (hm : Memory env pm ds.length) : ∃ pm', replayBatch cfg env pm ds mode seq = .ok pm' := by
  obtain ⟨prep, hprep⟩ := hm.batch (by omega)
  rcases prepareBatch_spec env ds.length h with ⟨prep', hprep', hwf, -, hroom⟩ | ⟨f, herr, -⟩
  · cases hprep.symm.trans hprep'
    obtain ⟨mid, hall, hmid, -⟩ := applyAll_spec seq mode (ds.map foldDigest) (hwf.with_seq (n := seq)) fun _ => by
      rw [List.length_map]
      exact hroom (by omega)
    have hprepf : prep.Fits := prepareBatch_fits hf hprep
    have hseqf : Map.Fits { prep with seq := seq } := hprepf
    have hmidf := applyAll_fits hseqf hall
    obtain ⟨out, k, hprune⟩ := prune_ok cfg hmid hmidf hm.newest hm.replacement
    refine ⟨out, ?_⟩
    rw [replayBatch, if_neg (Nat.not_le.mpr hlt), hprep]
    dsimp only
    rw [hall]
    dsimp only
    rw [hprune]
    rfl
  · cases hprep.symm.trans herr

theorem persistDigest_type : ¬(persistDigest d mode seq).type = replayKeyPurgeBatch :=
  show ¬replayKeyPurge = replayKeyPurgeBatch by decide

variable (cfg d mode) in
theorem replays_one (hpos : 0 < seq) (hmax : seq ≤ u64Max) (hlast : seq ≠ u64Max) : Replays cfg (.one d) mode seq where
  decoded := by
    refine ⟨[d], ?_, List.Perm.refl _⟩
    have hone := decodeOne_persist d mode hpos hmax
    rw [if_neg hlast] at hone
    rw [decode, PurgeCall.record, if_neg persistDigest_type, hone]
    rfl
  accepted := by
    intro t ht hseq env hm
    have hinv := Life.reach_inv ht
    have hone := decodeOne_persist d mode hpos hmax
    rw [if_neg hlast] at hone
    rw [replay, PurgeCall.record, if_neg persistDigest_type, hone]
    exact replayOne_ok hinv.wf hinv.fits (by omega) hm

theorem replays_batch (hv : (PurgeCall.batch ds).Valid) (hpos : 0 < seq) (hmax : seq ≤ u64Max) (hlast : seq ≠ u64Max) :
    Replays cfg (.batch ds) mode seq := by
  rcases ds with _ | ⟨d, _ | ⟨e, ds⟩⟩
  · exact absurd rfl hv.some
  · obtain ⟨hdec, hacc⟩ := replays_one cfg d mode hpos hmax hlast
    exact ⟨hdec, hacc⟩
  · obtain ⟨htype, hbytes⟩ := decodeBatch_persist mode hpos hmax (show 2 ≤ (d :: e :: ds).length by simp) hv.count
      hv.distinct
    rw [if_neg hlast] at hbytes
    refine ⟨⟨_, ?_, List.mergeSort_perm _ fun a b => decide (keyCompare a b ≤ 0)⟩, ?_⟩
    · rw [decode, PurgeCall.record, if_pos htype, hbytes]
      rfl
    · intro t ht hseq env hm
      have hinv := Life.reach_inv ht
      have hlen : ((d :: e :: ds).mergeSort fun a b => keyCompare a b ≤ 0).length = (d :: e :: ds).length :=
        List.length_mergeSort _
      rw [replay, PurgeCall.record, if_pos htype, hm.keys, hbytes]
      refine replayBatch_ok hinv.wf hinv.fits (by omega) ?_ ?_
      · rw [hlen]
        simp
      · rw [hlen]
        exact hm

/-- No decoder takes the last sequence. -/
theorem not_replays_last (hv : c.Valid) : ¬Replays cfg c mode u64Max := by
  rintro ⟨⟨keys, hdec, -⟩, -⟩
  have one : ∀ d, decode true (persistDigest d mode u64Max) ≠ .ok (keys, mode, u64Max) := by
    intro d
    have hone := decodeOne_persist d mode (show 0 < u64Max by decide) (Nat.le_refl _)
    rw [if_pos rfl] at hone
    rw [decode, if_neg persistDigest_type, hone]
    nofun
  cases c with
  | one d => exact one d hdec
  | batch ds =>
    rcases ds with _ | ⟨d, _ | ⟨e, ds⟩⟩
    · exact absurd rfl hv.some
    · exact one d hdec
    · obtain ⟨htype, hbytes⟩ := decodeBatch_persist mode (show 0 < u64Max by decide) (Nat.le_refl _)
        (show 2 ≤ (d :: e :: ds).length by simp) hv.count hv.distinct
      rw [if_pos rfl] at hbytes
      rw [decode, PurgeCall.record, if_pos htype, hbytes] at hdec
      cases hdec

theorem PurgeCall.accepted (h : pm.WF) {p : Purged} (hp : c.run cfg env pm mode = .ok p) (hacc : p.reply = .accepted) :
    pm.seq ≠ u64Max := by
  cases c with
  | one d =>
    obtain ⟨p', hp', ha⟩ := purge_spec cfg env mode d h
    cases hp.symm.trans hp'
    exact (ha.accepted hacc).1
  | batch ds =>
    obtain ⟨p', hp', ha⟩ := purgeBatch_spec cfg env mode ds h
    cases hp.symm.trans hp'
    exact (ha.accepted hacc).1

/-- The checkpoint of a map can be begun again, but for one of the last sequence. -/
theorem checkpointBegin_image (h : pm.WF) (hb : pm.Below pm.seq) (hf : pm.Fits) (halloc : env.tableAlloc = true) :
    (∃ pm', checkpointBegin env Map.init pm.image = .ok pm') ↔ pm.seq ≠ u64Max := by
  obtain ⟨hfew, hnew⟩ := h.prunable hf
  constructor
  · rintro ⟨pm', hok⟩ hlast
    have hlast : pm.image.purgeSequence = u64Max := hlast
    rw [checkpointBegin, if_pos (Or.inl hlast)] at hok
    cases hok
  · intro hlast
    have hbounds : ¬(pm.image.purgeSequence = u64Max ∨ pm.image.hardFloor > pm.image.purgeSequence ∨
        pm.image.softFloor > pm.image.purgeSequence ∨ pm.image.entries > Purgemap.sizeMax) := by
      have hhard := hb.hard
      have hsoft := hb.soft
      simp only [Map.image, not_or, Nat.not_lt, gt_iff_lt]
      refine ⟨hlast, hhard, hsoft, hfew.trans (Nat.div_le_self _ _)⟩
    have hroom : roomForChecked pm.image.entries pm.image.entries initialSlots =
        some (roomFor pm.image.entries pm.image.entries initialSlots) := by
      cases ht : pm.table with
      | none =>
        have hzero : pm.image.entries = 0 := by
          rw [show pm.image.entries = pm.nentry from rfl, h.count, Map.live, ht]
          rfl
        rw [hzero]
        rfl
      | some t =>
        obtain ⟨hwf, hload⟩ := h.table t ht
        have hfit := hf t ht
        exact roomForChecked_eq powTwo_initialSlots hwf.pow hwf.big hload (by unfold Purgemap.sizeMax at *; omega)
    have htable := hnew pm.image.entries (Nat.le_refl _)
    rw [← halloc] at htable
    have hgot : ¬(pm.image.entries ≠ 0 ∧ (if pm.image.entries ≠ 0 then
        tableNew env.tableAlloc (roomFor pm.image.entries pm.image.entries initialSlots) else none) = none) := by
      rintro ⟨hne, hnone⟩
      rw [if_pos hne] at hnone
      exact htable hnone
    rw [checkpointBegin, if_neg hbounds, if_neg (by simp [Map.init]), hroom]
    dsimp only
    rw [if_neg hgot]
    exact ⟨_, rfl⟩

end Replay

/-- The record of an accepted purge can be replayed just if it has not taken the last sequence, and the checkpoint of a
    map can be begun just if the map is not at it. No payload is taken that the encoders do not write, but for the
    reserved bytes. -/
theorem logged_purges_replay (cfg : Purgemap.Config) (s : Life)
    (h : Machine.Reach (Life.step cfg) Machine.always Life.init s) :
    (∀ (c : PurgeCall) mode env p, c.Valid → c.run cfg env s.map mode = .ok p → p.reply = .accepted →
      (Replays cfg c mode (s.map.seq + 1) ↔ s.map.seq ≠ u64Max - 1)) ∧
    (∀ env force c, checkpoint cfg env s.map force = .ok (some c) → ∀ env', env'.tableAlloc = true →
      ((∃ pm, checkpointBegin env' Map.init c = .ok pm) ↔ s.map.seq ≠ u64Max)) ∧
    (∀ p d mode seq, decodeOne p = .ok (d, mode, seq) →
      0 < seq ∧ seq < u64Max ∧ SameFields p (persistDigest d mode seq).bytes) ∧
    ∀ alloc p keys mode seq, decodeBatch alloc p = .ok (keys, mode, seq) →
      0 < seq ∧ seq < u64Max ∧ ∃ ds, ds.Perm keys ∧ ds.Nodup ∧ 2 ≤ ds.length ∧ ds.length ≤ uintMax ∧
        SameFields p (persistBatch ds mode seq).bytes := by
  have hinv := Life.reach_inv h
  refine ⟨?_, ?_, fun p d mode seq => decodeOne_fields, fun alloc p keys mode seq => decodeBatch_fields⟩
  · intro c mode env p hv hp hacc
    have hne := c.accepted hinv.wf hp hacc
    have hlast := hinv.last
    constructor
    · intro hr heq
      have hsucc : s.map.seq + 1 = u64Max := by
        unfold u64Max at *
        omega
      rw [hsucc] at hr
      exact not_replays_last hv hr
    · intro hnot
      cases c with
      | one d => exact replays_one cfg d mode (by omega) (by omega) (by omega)
      | batch ds => exact replays_batch hv (by omega) (by omega) (by omega)
  · intro env force c hc env' halloc
    rw [checkpoint_image hc]
    exact checkpointBegin_image hinv.wf hinv.below hinv.fits halloc

theorem logged_purges_replay_pair : Replays ⟨0, true⟩ (.batch [⟨0, 5⟩, ⟨7, 0⟩]) .soft 1 := by
  obtain ⟨p, hp, hacc⟩ : ∃ p, purgeBatch ⟨0, true⟩ .ok Life.init.map [⟨0, 5⟩, ⟨7, 0⟩] .soft = .ok p ∧
      p.reply = .accepted := ⟨_, rfl, rfl⟩
  have hv : (PurgeCall.batch [⟨0, 5⟩, ⟨7, 0⟩]).Valid := ⟨by decide, by decide, by decide⟩
  exact ((logged_purges_replay ⟨0, true⟩ Life.init .init).1 _ .soft .ok p hv hp hacc).mpr (by decide)

/-! ### The last sequence is reached -/

section Last
variable {s : Life} {pm : Map} {d : Digest} {n : Nat}

/-- A map of a single fold needs no more than the table it starts with. -/
theorem prepareUpsert_single (h : pm.WF) (hone : ∀ e ∈ pm.live, e.fold = (foldDigest d).val) :
    ∃ pm', prepareUpsert .ok pm = .ok pm' := by
  have hle : pm.nentry ≤ 1 := by
    have hnd := h.nodup
    rw [List.eq_replicate_of_mem (l := pm.live.map (·.fold)) (a := (foldDigest d).val)
      (fun x hx => by obtain ⟨e, he, rfl⟩ := List.mem_map.mp hx; exact hone e he), List.nodup_replicate,
      List.length_map, ← h.count] at hnd
    exact hnd
  unfold prepareUpsert
  cases ht : pm.table with
  | none =>
    rcases rebuild_spec .ok initialSlots true h with ⟨pm', t, hok, -⟩ | ⟨-, hnone⟩
    · exact ⟨pm', hok⟩
    · rw [baseSlots, ht] at hnone
      exact absurd hnone (by decide)
  | some t =>
    obtain ⟨hwf, -⟩ := h.table t ht
    have hbig := hwf.big
    dsimp only
    rw [h.no_rebuild, if_neg (by decide), if_neg (by unfold initialSlots maxLoadPercent at *; omega)]
    exact ⟨pm, rfl⟩

theorem fold_of_upserted {l : List Entry} {f seq : Nat} {mode : PurgeMode} {e : Entry}
    (he : e ∈ upserted l f seq mode) : e.fold = f ∨ ∃ x ∈ l, x.fold = e.fold := by
  unfold upserted at he
  split at he
  · obtain ⟨x, hx, rfl⟩ := List.mem_map.mp he
    refine Or.inr ⟨x, hx, ?_⟩
    split
    · exact Entry.bump_fold.symm
    · rfl
  · rcases List.mem_cons.mp he with rfl | he
    · exact Or.inl Entry.fresh_fold
    · exact Or.inr ⟨e, he, rfl⟩

/-- Purges of one key bring a map without a cap to every sequence. -/
theorem every_sequence (persist : Bool) (d : Digest) (hn : n ≤ u64Max) :
    ∃ s, Machine.Reach (Life.step ⟨0, persist⟩) Machine.always Life.init s ∧ s.turn = .idle ∧ s.map.seq = n ∧
      ∀ e ∈ s.map.live, e.fold = (foldDigest d).val := by
  induction n with
  | zero => exact ⟨Life.init, .init, rfl, rfl, nofun⟩
  | succ n ih =>
    obtain ⟨s, hr, hidle, hseq, hone⟩ := ih (by omega)
    have hinv := Life.reach_inv hr
    obtain ⟨prep, hprep⟩ := prepareUpsert_single hinv.wf hone
    obtain ⟨prep', hprep', hwf, hsame, hroom⟩ : ∃ prep', prepareUpsert .ok s.map = .ok prep' ∧ prep'.WF ∧
        s.map.Same prep' ∧ prep'.Room 1 := by
      rcases prepareUpsert_spec .ok hinv.wf with hok | herr
      · exact hok
      · cases hprep.symm.trans herr
    cases hprep.symm.trans hprep'
    have hseq' : prep.seq = n := hsame.seq.trans hseq
    have htake : Life.step ⟨0, persist⟩ s (.purge d .hard .ok) =
        some ⟨{ prep with seq := n + 1 }, .upserts (n + 1) .hard [foldDigest d]⟩ := by
      have hgo : ¬(n = u64Max ∨ (persist && Env.ok.logFault.isSome) = true) := by
        rw [show Env.ok.logFault.isSome = false from rfl, Bool.and_false]
        simp only [Bool.false_eq_true, or_false]
        omega
      simp only [Life.step, Life.move, hidle, hprep, orElse, hseq', if_neg hgo]
      rfl
    obtain ⟨out, hup, hwf', hperm, hseq'', -, -, -, -⟩ :=
      applyUpsert_spec (foldDigest d) (n + 1) .hard (hwf.with_seq (n := n + 1)) hroom
    have hfind : Life.step ⟨0, persist⟩ ⟨{ prep with seq := n + 1 }, .upserts (n + 1) .hard [foldDigest d]⟩ .upsert =
        some ⟨out, .upserts (n + 1) .hard []⟩ := by
      simp only [Life.step, Life.move, hup]
      rfl
    have hend : Life.step ⟨0, persist⟩ ⟨out, .upserts (n + 1) .hard []⟩ (.prune .ok) = some ⟨out, .idle⟩ := rfl
    refine ⟨⟨out, .idle⟩, ((hr.step _ trivial htake).step _ trivial hfind).step _ trivial hend, rfl, hseq'', ?_⟩
    intro e he
    rcases fold_of_upserted (hperm.mem_iff.mp he) with hf | ⟨x, hx, hf⟩
    · exact hf
    · exact hf ▸ hone x (hsame.live.mem_iff.mp hx)

end Last

/-- Where a map stands one before `UINT64_MAX`, a hard purge is accepted and logged, and a checkpoint is written after
    it. The record is refused by its decoder, and the checkpoint by `cachetag_purgemap_checkpoint_begin`. -/
theorem last_purge_lost :
    ∃ s p c, Machine.Reach (Life.step ⟨0, true⟩) Machine.always Life.init s ∧ s.map.seq = 2 ^ 64 - 2 ∧
      purge ⟨0, true⟩ .ok s.map ⟨0, 5⟩ .hard = .ok p ∧ p.reply = .accepted ∧
      decodeOne (persistDigest ⟨0, 5⟩ .hard (s.map.seq + 1)).bytes = .error .einval ∧
      checkpoint ⟨0, true⟩ .ok p.map true = .ok (some c) ∧ checkpointBegin .ok Map.init c = .error .einval := by
  obtain ⟨s, hr, -, hseq, hone⟩ := every_sequence (n := 2 ^ 64 - 2) true ⟨0, 5⟩ (by decide)
  have hinv := Life.reach_inv hr
  obtain ⟨prep, hprep⟩ := prepareUpsert_single hinv.wf hone
  rcases prepareUpsert_spec .ok hinv.wf with ⟨prep', hprep', hwf, hsame, hroom⟩ | herr
  · cases hprep.symm.trans hprep'
    have hroom' : [foldDigest ⟨0, 5⟩] ≠ [] → prep.Room [foldDigest ⟨0, 5⟩].length := fun _ => hroom
    obtain ⟨p, hp, hacc, hwf', hto, -⟩ := commitPurge_spec ⟨0, true⟩ .ok .hard hwf hsame hroom'
    have hpurge : purge ⟨0, true⟩ .ok s.map ⟨0, 5⟩ .hard = .ok p := by
      have hmax : ¬prep.seq = u64Max := by
        rw [hsame.seq, hseq]
        decide
      simp only [purge, hprep, if_neg hmax]
      rw [if_neg (by decide), hsame.seq]
      exact hp
    have hlast : p.map.seq = u64Max := by
      rw [hto.seq, hseq]
      decide
    have hwritten : checkpoint ⟨0, true⟩ .ok p.map true = .ok (some p.map.image) :=
      checkpoint_ok hwf' (hto.below hinv.below (Nat.lt_succ_self _)) rfl (Or.inl rfl) rfl
    refine ⟨s, p, p.map.image, hr, hseq, hpurge, hacc, ?_, hwritten, ?_⟩
    · rw [hseq]
      exact (decodeOne_persist _ _ (by decide) (by decide)).trans (if_pos (by decide))
    · have hlast' : p.map.image.purgeSequence = u64Max := hlast
      rw [checkpointBegin, if_pos (Or.inl hlast')]
  · cases hprep.symm.trans herr

end Cachetag.KeyPurge
