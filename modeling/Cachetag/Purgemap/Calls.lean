import Cachetag.Purgemap.Spec

/-! What the calls of the purge map's interface do: the purges, the compaction, the checkpoint and its
    restoration, the replay of a record, and the probe. -/

namespace Cachetag.Purgemap
open LinearProbe

/-! ### Checkpoints -/

section Checkpoint
variable {cfg : Config} {env : Env} {pm : Map} {force : Bool} {c : Checkpoint}

theorem checkpoint_image (h : checkpoint cfg env pm force = .ok (some c)) : c = pm.image := by
  unfold checkpoint at h
  split at h
  · cases h
  split at h
  · cases h
  split at h
  · cases h
  split at h
  · cases h
    rfl
  · cases h

theorem checkpoint_ne_loops : checkpoint cfg env pm force ≠ .error .loops := by
  unfold checkpoint
  split
  · nofun
  split
  · nofun
  split
  · nofun
  split <;> nofun

/-- A map in order is fit to be written. -/
theorem checkpoint_ok (h : pm.WF) (hb : pm.Below pm.seq) (hp : cfg.persist = true)
    (hforce : force = true ∨ env.checkpointDue = true) (hw : env.checkpointWritten = true) :
    checkpoint cfg env pm force = .ok (some pm.image) := by
  have hdue : ¬(!cfg.persist || (!force && !env.checkpointDue)) = true := by
    rcases hforce with hf | hd <;> simp_all
  have htable : ¬(pm.table.isNone ∧ pm.nentry ≠ 0) := by
    rintro ⟨hnone, hne⟩
    rw [h.count, Map.live, Option.isNone_iff_eq_none.mp hnone] at hne
    exact hne rfl
  have hentries : ¬(pm.live.length ≠ pm.nentry ∨ (!pm.live.all (Checkpoint.entryOk pm.seq)) = true) := by
    rw [not_or]
    refine ⟨fun hne => hne h.count.symm, ?_⟩
    simp only [Bool.not_eq_true', Bool.not_eq_false, List.all_eq_true]
    intro e he
    obtain ⟨hh, hs, hn⟩ := hb.live e he
    have hne : ¬(e.hardSeq = 0 ∧ e.softSeq = 0) := by
      rintro ⟨h0, h1⟩
      simp [Entry.newest, h0, h1] at hn
    simp only [Checkpoint.entryOk, Bool.and_eq_true, decide_eq_true_eq, Bool.not_eq_true', Bool.and_eq_false_iff,
      beq_eq_false_iff_ne]
    exact ⟨⟨⟨Map.live_live he, not_and_or.mp hne⟩, hh⟩, hs⟩
  rw [checkpoint, if_neg hdue, if_neg htable, if_neg hentries, if_pos hw]

end Checkpoint

/-! ### Prune and checkpoint -/

/-- What a prune, if one is due, can do to a map. -/
def MayPrune (pm pm' : Map) : Prop := pm' = pm ∨ ∃ cutoff, PrunesTo pm pm' cutoff

section PruneCheckpoint
variable {cfg : Config} {env : Env} {pm pm' : Map} {force : Bool} {b : Nat}

theorem PrunesTo.below {cutoff : Nat} (h : PrunesTo pm pm' cutoff) (hb : pm.Below b) : pm'.Below b where
  live := fun e he => hb.live e (List.mem_of_mem_filter (h.live.mem_iff.mp he))
  hard := h.hard ▸ raised_le hb.hard fun e he => (hb.live e (List.mem_of_mem_filter he)).1
  soft := h.soft ▸ raised_le hb.soft fun e he => (hb.live e (List.mem_of_mem_filter he)).2.1

theorem MayPrune.below (h : MayPrune pm pm') (hb : pm.Below b) : pm'.Below b := by
  rcases h with rfl | ⟨_, h⟩
  · exact hb
  · exact h.below hb

theorem MayPrune.seq (h : MayPrune pm pm') : pm'.seq = pm.seq := by
  rcases h with rfl | ⟨_, h⟩
  · rfl
  · exact h.seq

/-- A rollback puts back every field that a prune has written. -/
theorem PrunesTo.rollback {cutoff : Nat} (h : PrunesTo pm pm' cutoff) :
    pruneRollback pm' pm.table pm.nentry pm.ntombstone pm.hardFloor pm.softFloor = pm := by
  cases pm
  simp only [pruneRollback, h.seq, h.memoSeq]

variable (cfg env force) in
theorem pruneCheckpoint_spec (h : pm.WF) :
    (pruneCheckpoint cfg env pm force).map.WF ∧ MayPrune pm (pruneCheckpoint cfg env pm force).map ∧
      (pruneCheckpoint cfg env pm force).fault ≠ some .loops ∧
      ∀ c, (pruneCheckpoint cfg env pm force).written = some c → c = (pruneCheckpoint cfg env pm force).map.image := by
  have written : ∀ pm' n, pm'.WF → MayPrune pm pm' → prune cfg env pm = .ok (pm', n) →
      pruneRollback pm' pm.table pm.nentry pm.ntombstone pm.hardFloor pm.softFloor = pm →
      (pruneCheckpoint cfg env pm force).map.WF ∧ MayPrune pm (pruneCheckpoint cfg env pm force).map ∧
        (pruneCheckpoint cfg env pm force).fault ≠ some .loops ∧
        ∀ c, (pruneCheckpoint cfg env pm force).written = some c →
          c = (pruneCheckpoint cfg env pm force).map.image := by
    intro pm' n hwf hmay hok hback
    cases hc : checkpoint cfg env pm' (force || n ≠ 0) with
    | ok w =>
      simp only [pruneCheckpoint, hok, hc]
      exact ⟨hwf, hmay, nofun, fun c hw => checkpoint_image (hw ▸ hc)⟩
    | error f =>
      have hf : some f ≠ some Fault.loops := fun heq => checkpoint_ne_loops (Option.some.inj heq ▸ hc)
      simp only [pruneCheckpoint, hok, hc]
      split
      · rw [hback]
        exact ⟨h, Or.inl rfl, hf, nofun⟩
      · exact ⟨hwf, hmay, hf, nofun⟩
  rcases prune_spec cfg env h with ⟨-, hok⟩ | ⟨pm', n, cutoff, hok, -, -, -, hwf, hto⟩ | ⟨f, herr, hf, -⟩
  · exact written pm 0 h (Or.inl rfl) hok rfl
  · exact written pm' n hwf (Or.inr ⟨cutoff, hto⟩) hok hto.rollback
  · simp only [pruneCheckpoint, herr]
    exact ⟨h, Or.inl rfl, fun heq => hf (Option.some.inj heq), nofun⟩

end PruneCheckpoint

/-! ### Purges -/

/-- The entries, floors and sequence of a map once a purge of sequence `n` has entered it, with the prune
    that follows. -/
def PurgesTo (pm pm' : Map) (n : Nat) (folds : List Fold) (mode : PurgeMode) : Prop :=
  ∃ mid : Map, mid.live.Perm (upsertedAll pm.live folds n mode) ∧ mid.seq = n ∧
    mid.hardFloor = pm.hardFloor ∧ mid.softFloor = pm.softFloor ∧
    ∃ (out : Map) (memo : Nat), MayPrune mid out ∧ pm' = { out with memoSeq := memo }

section Purge
variable {cfg : Config} {env : Env} {pm pm' : Map} {folds : List Fold} {mode : PurgeMode} {n b : Nat}

theorem Map.WF.with_seq (h : pm.WF) : Map.WF { pm with seq := n } := ⟨h.table, h.count, h.tomb⟩

theorem Map.WF.with_memo (h : pm.WF) : Map.WF { pm with memoSeq := n } := ⟨h.table, h.count, h.tomb⟩

theorem upserted_bound {l : List Entry} {f : Fold} (hl : ∀ e ∈ l, e.hardSeq ≤ b ∧ e.softSeq ≤ b ∧ 0 < e.newest)
    (hn : n ≤ b) (hpos : 0 < n) :
    ∀ e ∈ upserted l f.val n mode, e.hardSeq ≤ b ∧ e.softSeq ≤ b ∧ 0 < e.newest := by
  intro e he
  unfold upserted at he
  split at he
  · obtain ⟨x, hx, rfl⟩ := List.mem_map.mp he
    obtain ⟨hh, hs, hn⟩ := hl x hx
    split
    · cases mode <;> simp only [Entry.bump] <;> split <;> simp only [Entry.newest] at * <;> omega
    · exact ⟨hh, hs, hn⟩
  · rcases List.mem_cons.mp he with rfl | he
    · cases mode <;> simp only [Entry.fresh, Entry.newest] <;> omega
    · exact hl e he

theorem upsertedAll_bound {l : List Entry} (hl : ∀ e ∈ l, e.hardSeq ≤ b ∧ e.softSeq ≤ b ∧ 0 < e.newest)
    (hn : n ≤ b) (hpos : 0 < n) :
    ∀ e ∈ upsertedAll l folds n mode, e.hardSeq ≤ b ∧ e.softSeq ≤ b ∧ 0 < e.newest := by
  induction folds generalizing l with
  | nil => exact hl
  | cons f fs ih => exact ih (upserted_bound hl hn hpos)

theorem PurgesTo.below (h : PurgesTo pm pm' n folds mode) (hb : pm.Below pm.seq) (hn : pm.seq < n) :
    pm'.Below pm'.seq := by
  obtain ⟨mid, hlive, hseq, hhard, hsoft, out, memo, hmay, rfl⟩ := h
  have hmid : mid.Below n := by
    have hb' := hb.mono hn.le
    exact ⟨fun e he => upsertedAll_bound hb'.live (Nat.le_refl _) (Nat.zero_lt_of_lt hn) e (hlive.mem_iff.mp he),
      hhard ▸ hb'.hard, hsoft ▸ hb'.soft⟩
  have hout := hmay.below hmid
  rw [← hseq, ← hmay.seq] at hout
  exact ⟨hout.live, hout.hard, hout.soft⟩

theorem PurgesTo.seq (h : PurgesTo pm pm' n folds mode) : pm'.seq = n := by
  obtain ⟨mid, -, hseq, -, -, out, memo, hmay, rfl⟩ := h
  exact hmay.seq.trans hseq

variable (cfg env mode) in
/-- Behind its record, a purge goes through. -/
theorem commitPurge_spec {prep : Map} (hwf : prep.WF) (hs : pm.Same prep) (hroom : folds ≠ [] → prep.Room folds.length) :
    ∃ p, commitPurge cfg env prep folds (pm.seq + 1) mode = .ok p ∧ p.reply = .accepted ∧ p.map.WF ∧
      PurgesTo pm p.map (pm.seq + 1) folds mode ∧
      ∀ c, p.written = some c → ∃ out : Map, c = out.image ∧ p.map = { out with memoSeq := pm.seq + 1 } := by
  obtain ⟨mid, hall, hmid, hperm, hseq, -, hhard, hsoft⟩ :=
    applyAll_spec (pm.seq + 1) mode folds (hwf.with_seq (n := pm.seq + 1)) hroom
  obtain ⟨hwf', hmay, hfault, hwritten⟩ := pruneCheckpoint_spec cfg env false hmid
  refine ⟨⟨{ (pruneCheckpoint cfg env mid false).map with memoSeq := pm.seq + 1 }, .accepted,
      (pruneCheckpoint cfg env mid false).written⟩, by simp only [commitPurge, hall, hfault, if_false], rfl,
    hwf'.with_memo, ⟨mid, ?_, hseq, ?_, ?_, _, _, hmay, rfl⟩, fun c hc => ⟨_, hwritten c hc, rfl⟩⟩
  · exact hperm.trans (upsertedAll_perm hs.live)
  · exact hhard.trans hs.hard
  · exact hsoft.trans hs.soft

/-- What an answered purge has done: the accepted one has entered the map, any other leaves it as it is. -/
structure Answered (pm : Map) (folds : List Fold) (mode : PurgeMode) (p : Purged) : Prop where
  wf : p.map.WF
  accepted : p.reply = .accepted → pm.seq ≠ u64Max ∧ PurgesTo pm p.map (pm.seq + 1) folds mode
  refused : p.reply ≠ .accepted → pm.Same p.map
  written : ∀ c, p.written = some c → p.reply = .accepted ∧ ∃ out : Map, c = out.image ∧ p.map = { out with memoSeq := pm.seq + 1 }

theorem Answered.of_refused {reply : Reply} (hwf : pm'.WF) (hs : pm.Same pm') (hr : reply ≠ .accepted) :
    Answered pm folds mode ⟨pm', reply, none⟩ :=
  ⟨hwf, fun h => absurd h hr, fun _ => hs, nofun⟩

theorem Answered.of_commit {prep : Map} (hwf : prep.WF) (hs : pm.Same prep) (hmax : pm.seq ≠ u64Max)
    (hroom : folds ≠ [] → prep.Room folds.length) :
    ∃ p, commitPurge cfg env prep folds (pm.seq + 1) mode = .ok p ∧ Answered pm folds mode p := by
  obtain ⟨p, hok, hreply, hwf', hto, hwritten⟩ := commitPurge_spec cfg env mode hwf hs hroom
  exact ⟨p, hok, hwf', fun _ => ⟨hmax, hto⟩, fun hne => absurd hreply hne, fun c hc => ⟨hreply, hwritten c hc⟩⟩

variable (cfg env mode) in
theorem purge_spec (d : Digest) (h : pm.WF) :
    ∃ p, purge cfg env pm d mode = .ok p ∧ Answered pm [foldDigest d] mode p := by
  rcases prepareUpsert_spec env h with ⟨prep, hprep, hwf, hs, hroom⟩ | herr
  · simp only [purge, hprep]
    split
    · exact ⟨_, rfl, .of_refused hwf hs (by decide)⟩
    rename_i hmax
    split
    · exact ⟨_, rfl, .of_refused hwf hs (by decide)⟩
    · rw [hs.seq] at hmax ⊢
      exact Answered.of_commit hwf hs hmax fun _ => hroom
  · simp only [purge, herr]
    exact ⟨_, rfl, .of_refused h Map.Same.rfl' (by decide)⟩

variable (cfg env mode) in
theorem purgeBatch_spec (ds : List Digest) (h : pm.WF) :
    ∃ p, purgeBatch cfg env pm ds mode = .ok p ∧ Answered pm (ds.map foldDigest) mode p := by
  unfold purgeBatch
  split
  · exact ⟨_, rfl, .of_refused h Map.Same.rfl' (by decide)⟩
  split
  · exact ⟨_, rfl, .of_refused h Map.Same.rfl' (by decide)⟩
  rename_i hmax
  rcases prepareBatch_spec env ds.length h with ⟨prep, hprep, hwf, hs, hroom⟩ | ⟨f, herr, hf⟩
  · rw [hprep]
    dsimp only
    split
    · refine ⟨_, rfl, .of_refused hwf hs ?_⟩
      split <;> decide
    · refine Answered.of_commit hwf hs hmax fun hne => ?_
      rw [List.length_map]
      exact hroom (List.length_pos_of_ne_nil fun h0 => hne (by rw [h0]; rfl))
  · rw [herr]
    cases f with
    | loops => exact absurd rfl hf
    | _ => exact ⟨_, rfl, .of_refused h Map.Same.rfl' (by decide)⟩

variable (cfg env pm folds mode) in
/-- The prune that ends a replay. -/
theorem replayed_spec {mid : Map} (hmid : mid.WF) (hlive : mid.live.Perm (upsertedAll pm.live folds n mode))
    (hseq : mid.seq = n) (hhard : mid.hardFloor = pm.hardFloor) (hsoft : mid.softFloor = pm.softFloor) :
    (∃ pm', (prune cfg env mid).map Prod.fst = .ok pm' ∧ pm'.WF ∧ PurgesTo pm pm' n folds mode) ∨
    (∃ f, (prune cfg env mid).map Prod.fst = .error f ∧ f ≠ .loops) := by
  rcases prune_spec cfg env hmid with
    ⟨-, hok⟩ | ⟨pm', k, cutoff, hok, -, -, -, hwf, hto⟩ | ⟨f, herr, hf, -⟩
  · exact Or.inl ⟨mid, by rw [hok]; rfl, hmid, mid, hlive, hseq, hhard, hsoft, mid, _, Or.inl rfl, rfl⟩
  · exact Or.inl ⟨pm', by rw [hok]; rfl, hwf, mid, hlive, hseq, hhard, hsoft, pm', _, Or.inr ⟨cutoff, hto⟩, rfl⟩
  · exact Or.inr ⟨f, by rw [herr]; rfl, hf⟩

variable (cfg env mode n) in
/-- A record is replayed into the map, or refused. -/
theorem replayOne_spec (d : Digest) (h : pm.WF) :
    (∃ pm', replayOne cfg env pm d mode n = .ok pm' ∧ pm'.WF ∧ pm.seq < n ∧
      PurgesTo pm pm' n [foldDigest d] mode) ∨
    (∃ f, replayOne cfg env pm d mode n = .error f ∧ f ≠ .loops) := by
  unfold replayOne
  split
  · exact Or.inr ⟨.einval, rfl, by decide⟩
  rename_i hlt
  rcases prepareUpsert_spec env h with ⟨prep, hprep, hwf, hs, hroom⟩ | herr
  · obtain ⟨mid, hup, hmid, hperm, -, -, hhard, hsoft, -⟩ :=
      applyUpsert_spec (foldDigest d) n mode hwf hroom
    rw [hprep]
    dsimp only
    rw [hup]
    rcases replayed_spec cfg env pm [foldDigest d] mode
      (hmid.with_seq (n := n)) (hperm.trans (upserted_perm hs.live)) rfl (hhard.trans hs.hard) (hsoft.trans hs.soft) with
      ⟨pm', hok, hwf', hto⟩ | herr
    · exact Or.inl ⟨pm', hok, hwf', Nat.lt_of_not_le hlt, hto⟩
    · exact Or.inr herr
  · exact Or.inr ⟨.enomem, by rw [herr], by decide⟩

variable (cfg env mode n) in
theorem replayBatch_spec (ds : List Digest) (h : pm.WF) :
    (∃ pm', replayBatch cfg env pm ds mode n = .ok pm' ∧ pm'.WF ∧ pm.seq < n ∧
      PurgesTo pm pm' n (ds.map foldDigest) mode) ∨
    (∃ f, replayBatch cfg env pm ds mode n = .error f ∧ f ≠ .loops) := by
  unfold replayBatch
  split
  · exact Or.inr ⟨.einval, rfl, by decide⟩
  rename_i hlt
  rcases prepareBatch_spec env ds.length h with ⟨prep, hprep, hwf, hs, hroom⟩ | ⟨f, herr, hf⟩
  · have hroom' : ds.map foldDigest ≠ [] → Map.Room { prep with seq := n } (ds.map foldDigest).length := by
      intro hne
      rw [List.length_map]
      exact hroom (List.length_pos_of_ne_nil fun h0 => hne (by rw [h0]; rfl))
    obtain ⟨mid, hall, hmid, hperm, hseq, -, hhard, hsoft⟩ :=
      applyAll_spec n mode (ds.map foldDigest) (hwf.with_seq (n := n)) hroom'
    rw [hprep]
    dsimp only
    rw [hall]
    rcases replayed_spec cfg env pm (ds.map foldDigest) mode
      hmid (hperm.trans (upsertedAll_perm hs.live)) hseq (hhard.trans hs.hard) (hsoft.trans hs.soft) with
      ⟨pm', hok, hwf', hto⟩ | herr
    · exact Or.inl ⟨pm', hok, hwf', Nat.lt_of_not_le hlt, hto⟩
    · exact Or.inr herr
  · exact Or.inr ⟨f, by rw [herr], hf⟩

end Purge

/-! ### Compaction and recovery -/

section Recovery
variable {cfg : Config} {env : Env} {pm : Map} {c : Checkpoint} {e : Entry} {es : List Entry}

variable (cfg env) in
theorem compact_spec (h : pm.WF) :
    (compact cfg env pm).map.WF ∧ (∃ mid, MayPrune pm mid ∧ mid.Same (compact cfg env pm).map) ∧
      (compact cfg env pm).fault ≠ some .loops ∧
      ∀ c, (compact cfg env pm).written = some c → c = (compact cfg env pm).map.image := by
  obtain ⟨hwf, hmay, hfault, hwritten⟩ := pruneCheckpoint_spec cfg env true h
  unfold compact
  dsimp only
  split
  · rw [hwf.no_rebuild, if_neg (by decide)]
    exact ⟨hwf, ⟨_, hmay, Map.Same.rfl'⟩, hfault, hwritten⟩
  · exact ⟨hwf, ⟨_, hmay, Map.Same.rfl'⟩, hfault, hwritten⟩

/-- A checkpoint that a map in order has written. -/
structure Checkpoint.WF (c : Checkpoint) : Prop where
  count : c.entries = c.list.length
  live : ∀ e ∈ c.list, e.Live
  nodup : (c.list.map (·.fold)).Nodup

theorem Map.WF.image (h : pm.WF) : pm.image.WF :=
  ⟨h.count, fun _ he => Map.live_live he, h.nodup⟩

theorem checkpointEntry_spec (h : pm.WF) (hroom : pm.Room 1) (hl : e.Live) (hnew : ∀ x ∈ pm.live, x.fold ≠ e.fold) :
    ∃ t, checkpointEntry pm e = .ok { pm with table := some t, nentry := pm.nentry + 1 } ∧
      Map.WF { pm with table := some t, nentry := pm.nentry + 1 } ∧ t.live.Perm (e :: pm.live) ∧
      pm.table.map Table.nslot = some t.nslot := by
  obtain ⟨t, ht, hload⟩ := hroom
  obtain ⟨hwf, -⟩ := h.table t ht
  have hlive := Map.live_some ht
  have hlt := h.room ht
  have hcount := h.count
  rw [hlive] at hnew hcount
  obtain ⟨t', hins, hwf', hnslot, hperm⟩ := hwf.insertExisting hlt hl hnew
  have hwalk : ∃ p, walk t.slot t.nslot (checkpointVisit e.fold) t.nslot (t.home e.fold) () = some (some p) := by
    obtain ⟨d, hd, hgo, hend⟩ := hwf.search hlt hl.1
    rcases hend with hfound | ⟨hempty, habs⟩
    · exact absurd hfound (hnew _ (hwf.mem_live (cyc_lt hwf.pow) (by rw [hfound]; exact hl.1)))
    · refine ⟨cyc t.nslot (t.home e.fold) d, walk_eq hwf.pow (hwf.home_lt _) hd (fun _ => ()) (fun i hi => ?_) ?_⟩
      · rw [checkpointVisit, if_neg (hgo i hi).2, if_neg (hgo i hi).1]
      · rw [checkpointVisit, if_neg (habs _ (cyc_lt hwf.pow)), if_pos hempty]
  obtain ⟨p, hp⟩ := hwalk
  refine ⟨t', ?_, ⟨?_, ?_, h.tomb⟩, by rw [hlive]; exact hperm, by rw [ht, Option.map_some, hnslot]⟩
  · simp only [checkpointEntry, ht, hp, hins]
    rw [if_neg (by omega)]
  · rintro _ ⟨⟩
    exact ⟨hwf', by rw [hnslot]; exact hload⟩
  · rw [show Map.live { pm with table := some t', nentry := pm.nentry + 1 } = t'.live from rfl, hperm.length_eq]
    simp [hcount]

variable (es) in
theorem checkpointEntries_spec (h : pm.WF) (hroom : es ≠ [] → pm.Room es.length) (hl : ∀ e ∈ es, e.Live)
    (hnd : (es.map (·.fold)).Nodup) (hnew : ∀ e ∈ es, ∀ x ∈ pm.live, x.fold ≠ e.fold) :
    ∃ pm', checkpointEntries es pm = .ok pm' ∧ pm'.WF ∧ pm'.live.Perm (es ++ pm.live) ∧ pm'.seq = pm.seq ∧
      pm'.memoSeq = pm.memoSeq ∧ pm'.hardFloor = pm.hardFloor ∧ pm'.softFloor = pm.softFloor := by
  induction es generalizing pm with
  | nil => exact ⟨pm, rfl, h, List.Perm.refl _, rfl, rfl, rfl, rfl⟩
  | cons e es ih =>
    obtain ⟨t, ht, hload⟩ := hroom (by simp)
    simp only [List.length_cons] at hload
    simp only [List.map_cons, List.nodup_cons, List.mem_map, not_exists, not_and] at hnd
    obtain ⟨t', hok, hwf, hperm, hnslot⟩ := checkpointEntry_spec h ⟨t, ht, by unfold maxLoadPercent at *; omega⟩
      (hl e List.mem_cons_self) (hnew e List.mem_cons_self)
    rw [ht, Option.map_some, Option.some.injEq] at hnslot
    obtain ⟨pm', hall, hwf', hperm', hseq, hmemo, hhard, hsoft⟩ := ih hwf
      (fun _ => ⟨t', rfl, by dsimp only; rw [← hnslot]; omega⟩)
      (fun x hx => hl x (List.mem_cons_of_mem _ hx)) hnd.2 (fun x hx y hy => by
        rcases List.mem_cons.mp (hperm.mem_iff.mp hy) with rfl | hy
        · exact fun heq => hnd.1 x hx heq.symm
        · exact hnew x (List.mem_cons_of_mem _ hx) y hy)
    refine ⟨pm', by rw [checkpointEntries, hok]; exact hall, hwf', hperm'.trans ?_, hseq, hmemo, hhard, hsoft⟩
    exact (hperm.append_left es).trans List.perm_middle

/-- The map that the entries of a checkpoint are read into. -/
def begun (c : Checkpoint) (tbl : Option Table) : Map :=
  { Map.init with
    table := tbl
    hardFloor := c.hardFloor
    softFloor := c.softFloor
    seq := c.purgeSequence }

variable (c) in
theorem begun_spec (tbl : Option Table) (htbl : ∀ t, tbl = some t → ∃ n, PowTwo n ∧ initialSlots ≤ n ∧ t = Table.new n) :
    (begun c tbl).WF ∧ (begun c tbl).live = [] := by
  cases tbl with
  | none => exact ⟨⟨nofun, rfl, rfl⟩, rfl⟩
  | some t =>
    obtain ⟨n, hpow, hbig, rfl⟩ := htbl t rfl
    have hnil : (begun c (some (Table.new n))).live = [] := Table.live_new
    refine ⟨⟨?_, by rw [hnil]; rfl, rfl⟩, hnil⟩
    rintro _ ⟨⟩
    exact ⟨Table.WF.new hpow hbig, by simp [begun, Map.init]⟩

variable (env c) in
theorem checkpointBegin_spec :
    (∃ tbl, checkpointBegin env Map.init c = .ok (begun c tbl) ∧ (begun c tbl).WF ∧ (begun c tbl).live = [] ∧
      (c.entries ≠ 0 → (begun c tbl).Room c.entries)) ∨
    (∃ f, checkpointBegin env Map.init c = .error f ∧ f ≠ .loops) := by
  have hfuel := loop_bound c.entries initialSlots (Nat.le_refl _)
  obtain ⟨hpow, hbig, hload⟩ := roomFor_spec powTwo_initialSlots hfuel
  unfold checkpointBegin
  split
  · exact Or.inr ⟨.einval, rfl, by decide⟩
  rw [if_neg (by simp [Map.init])]
  cases hr : roomForChecked c.entries c.entries initialSlots with
  | none => exact Or.inr ⟨.efbig, rfl, by decide⟩
  | some nslot =>
    obtain rfl := roomForChecked_spec powTwo_initialSlots hfuel hr
    dsimp only
    by_cases halloc : c.entries ≠ 0 ∧
      (if c.entries ≠ 0 then tableNew env.tableAlloc (roomFor c.entries c.entries initialSlots) else none) = none
    · exact Or.inr ⟨.enomem, if_pos halloc, by decide⟩
    obtain ⟨hwf, hnil⟩ := begun_spec c
      (if c.entries ≠ 0 then tableNew env.tableAlloc (roomFor c.entries c.entries initialSlots) else none)
      fun t ht => by
        split at ht
        · exact ⟨_, hpow, hbig, tableNew_eq ht⟩
        · cases ht
    refine Or.inl ⟨_, if_neg halloc, hwf, hnil, fun hentries => ?_⟩
    rw [if_pos hentries] at halloc ⊢
    obtain ⟨t, ht⟩ := Option.ne_none_iff_exists'.mp fun hnone => halloc ⟨hentries, hnone⟩
    refine ⟨t, ht, ?_⟩
    obtain rfl := tableNew_eq ht
    simpa [begun, Map.init] using hload

variable (env) in
/-- A checkpoint is restored to the entries, floors and sequence it was taken of, or refused. -/
theorem restore_spec (h : c.WF) :
    (∃ pm, restore env c = .ok pm ∧ pm.WF ∧ pm.live.Perm c.list ∧ pm.seq = c.purgeSequence ∧ pm.memoSeq = 0 ∧
      pm.hardFloor = c.hardFloor ∧ pm.softFloor = c.softFloor) ∨
    (∃ f, restore env c = .error f ∧ f ≠ .loops) := by
  unfold restore
  rcases checkpointBegin_spec env c with ⟨tbl, hbegin, hwf, hnil, hroom⟩ | ⟨f, herr, hf⟩
  · have hroom' : c.list ≠ [] → (begun c tbl).Room c.list.length := by
      intro hne
      rw [← h.count]
      exact hroom fun h0 => hne (List.eq_nil_of_length_eq_zero (h.count ▸ h0))
    obtain ⟨pm, hok, hwf', hperm, hseq, hmemo, hhard, hsoft⟩ := checkpointEntries_spec c.list hwf hroom'
      h.live h.nodup (fun e _ x hx => by rw [hnil] at hx; cases hx)
    rw [hnil, List.append_nil] at hperm
    exact Or.inl ⟨pm, by rw [hbegin]; exact hok, hwf', hperm, hseq, hmemo, hhard, hsoft⟩
  · exact Or.inr ⟨f, by rw [herr], hf⟩

end Recovery

/-! ### Probes -/

/-- The verdict that a map's entries and floors give on an object. -/
def mapVerdict (l : List Entry) (hardFloor softFloor regSeq : Nat) (folds : List Nat) : ProbeResult :=
  if regSeq < hardFloor ∨ ∃ e ∈ l, e.fold ∈ folds ∧ regSeq < e.hardSeq then .hard
  else if regSeq < softFloor ∨ ∃ e ∈ l, e.fold ∈ folds ∧ regSeq < e.softSeq then .soft
  else .none

/-- The part of that verdict that the entries give. -/
def tagsVerdict (l : List Entry) (regSeq : Nat) (folds : List Nat) : ProbeResult :=
  if ∃ e ∈ l, e.fold ∈ folds ∧ regSeq < e.hardSeq then .hard
  else if ∃ e ∈ l, e.fold ∈ folds ∧ regSeq < e.softSeq then .soft
  else .none

section Probe
variable {pm : Map} {l : List Entry} {regSeq hardFloor softFloor : Nat} {folds : List Nat} {fs : List Fold} {soft : Bool}

theorem withFloors_tags :
    withFloors (tagsVerdict l regSeq folds) hardFloor softFloor regSeq = mapVerdict l hardFloor softFloor regSeq folds := by
  unfold tagsVerdict mapVerdict withFloors
  by_cases hh : ∃ e ∈ l, e.fold ∈ folds ∧ regSeq < e.hardSeq
  · simp [hh]
  · by_cases hs : ∃ e ∈ l, e.fold ∈ folds ∧ regSeq < e.softSeq <;>
      by_cases hfl : regSeq < hardFloor <;> by_cases hsf : regSeq < softFloor <;> simp [hh, hs, hfl, hsf]

theorem mapVerdict_congr {l' : List Entry} {folds' : List Nat} (hl : ∀ e, e ∈ l ↔ e ∈ l')
    (hf : ∀ x, x ∈ folds ↔ x ∈ folds') :
    mapVerdict l hardFloor softFloor regSeq folds = mapVerdict l' hardFloor softFloor regSeq folds' := by
  simp only [mapVerdict, hl, hf]

theorem exists_fold_cons {q : Entry → Prop} {x : Nat} {xs : List Nat} :
    (∃ e ∈ l, e.fold ∈ x :: xs ∧ q e) ↔ (∃ e ∈ l, e.fold = x ∧ q e) ∨ ∃ e ∈ l, e.fold ∈ xs ∧ q e := by
  constructor
  · rintro ⟨e, he, hmem, hq⟩
    rcases List.mem_cons.mp hmem with heq | hmem
    · exact .inl ⟨e, he, heq, hq⟩
    · exact .inr ⟨e, he, hmem, hq⟩
  · rintro (⟨e, he, rfl, hq⟩ | ⟨e, he, hmem, hq⟩)
    · exact ⟨e, he, List.mem_cons_self, hq⟩
    · exact ⟨e, he, List.mem_cons_of_mem _ hmem, hq⟩

/-- The loop of a probe finds what the entries say of the folds it has still to see. -/
theorem probeFolds_spec {tbl : Option Table} (hone : ∀ f : Fold, probeOne tbl regSeq f.val = some (tagVerdict l regSeq f.val)) :
    probeFolds tbl regSeq (fs.map Fold.val) soft =
      some (match tagsVerdict l regSeq (fs.map Fold.val) with
        | .hard => .hard
        | .soft => .soft
        | .none => if soft then .soft else .none) := by
  induction fs generalizing soft with
  | nil => simp [probeFolds, tagsVerdict]
  | cons f fs ih =>
    rw [List.map_cons, probeFolds, hone f]
    by_cases hh : ∃ e ∈ l, e.fold = f.val ∧ regSeq < e.hardSeq
    · simp only [tagVerdict, tagsVerdict, if_pos hh, if_pos (exists_fold_cons.mpr (.inl hh))]
    · have hhard : (∃ e ∈ l, e.fold ∈ f.val :: fs.map Fold.val ∧ regSeq < e.hardSeq) ↔
          ∃ e ∈ l, e.fold ∈ fs.map Fold.val ∧ regSeq < e.hardSeq := exists_fold_cons.trans (or_iff_right hh)
      by_cases hs : ∃ e ∈ l, e.fold = f.val ∧ regSeq < e.softSeq
      · -- A soft hit is kept, and a hard one among the others still goes before it.
        simp only [tagVerdict, tagsVerdict, if_neg hh, if_pos hs, if_pos (exists_fold_cons.mpr (.inl hs)), hhard, ih]
        split_ifs <;> rfl
      · have hsoft : (∃ e ∈ l, e.fold ∈ f.val :: fs.map Fold.val ∧ regSeq < e.softSeq) ↔
            ∃ e ∈ l, e.fold ∈ fs.map Fold.val ∧ regSeq < e.softSeq := exists_fold_cons.trans (or_iff_right hs)
        simp only [tagVerdict, tagsVerdict, if_neg hh, if_neg hs, hhard, hsoft, ih]

theorem Map.WF.probeOne (h : pm.WF) (f : Fold) :
    probeOne pm.table regSeq f.val = some (tagVerdict pm.live regSeq f.val) := by
  cases ht : pm.table with
  | none => simp [Purgemap.probeOne, Map.live, ht, tagVerdict]
  | some t =>
    rw [Map.live_some ht]
    exact (h.table t ht).1.probeOne (h.room ht) f

theorem Map.WF.probeFolds (h : pm.WF) :
    probeFolds pm.table regSeq (fs.map Fold.val) false = some (tagsVerdict pm.live regSeq (fs.map Fold.val)) := by
  rw [probeFolds_spec fun f => h.probeOne f]
  cases tagsVerdict pm.live regSeq (fs.map Fold.val) <;> rfl

/-- The probe ends, and says what the map's entries and floors say. -/
theorem probe_spec (h : pm.WF) :
    probe pm regSeq (fs.map Fold.val) =
      some (mapVerdict pm.live pm.hardFloor pm.softFloor regSeq (fs.map Fold.val)) := by
  unfold probe
  split
  · rename_i hzero
    obtain ⟨hn, hh, hs⟩ := hzero
    have hnil : pm.live = [] := List.eq_nil_of_length_eq_zero (h.count ▸ hn)
    simp [mapVerdict, hnil, hh, hs]
  · rw [h.probeFolds, Option.map_some, withFloors_tags]

end Probe

/-! ### Probes for any fold -/

section Ends
variable {pm : Map} {regSeq fold : Nat} {folds : List Nat} {soft : Bool}

theorem Map.WF.probeOne_ends (h : pm.WF) : ∃ v, Purgemap.probeOne pm.table regSeq fold = some v := by
  cases ht : pm.table with
  | none => exact ⟨_, rfl⟩
  | some t => exact (h.table t ht).1.probeOne_ends (h.room ht)

theorem Map.WF.probeFolds_ends (h : pm.WF) : ∃ v, Purgemap.probeFolds pm.table regSeq folds soft = some v := by
  induction folds generalizing soft with
  | nil => exact ⟨_, rfl⟩
  | cons f fs ih =>
    obtain ⟨v, hv⟩ : ∃ v, Purgemap.probeOne pm.table regSeq f = some v := h.probeOne_ends
    rw [Purgemap.probeFolds, hv]
    cases v with
    | none => exact ih
    | hard => exact ⟨_, rfl⟩
    | soft => exact ih

theorem Map.WF.probe_ends (h : pm.WF) : ∃ v, Purgemap.probe pm regSeq folds = some v := by
  unfold Purgemap.probe
  split
  · exact ⟨_, rfl⟩
  · obtain ⟨v, hv⟩ : ∃ v, Purgemap.probeFolds pm.table regSeq folds false = some v := h.probeFolds_ends
    rw [hv]
    exact ⟨_, rfl⟩

end Ends

end Cachetag.Purgemap
