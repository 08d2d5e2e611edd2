import Cachetag.Header.Agree
import Cachetag.Purgemap.Reclaim

/-! The operations on the purge map as programs that store to it, one field after the other. A program that
fails keeps what it has stored before: nothing is undone but by a store. -/

namespace Cachetag.Purgemap
open Header LinearProbe

/-- A piece of code that runs under `purge_mtx`. -/
abbrev Locked := StateM Map

/-! ### Programs -/

/-- `cachetag_purgemap_rebuild_locked` -/
def rebuildLocked (env : Env) (minslot : Nat) (grow : Bool) : Locked (Option Fault) := do
  let pm ← get
  match tableNew env.tableAlloc (atLeast minslot minslot (baseSlots pm grow)) with
  | none => return some .enomem
  | some fresh =>
    match insertAll pm.live fresh with
    | .error e => return some e
    | .ok tbl =>
      modify fun pm => { pm with table := some tbl }
      modify fun pm => { pm with ntombstone := 0 }
      return none

/-- `cachetag_purgemap_prepare_upsert_locked` -/
def prepareUpsertLocked (env : Env) : Locked (Option Fault) := do
  let pm ← get
  match pm.table with
  | none => rebuildLocked env initialSlots true
  | some tbl =>
    if needsSameSizeRebuild pm then rebuildLocked env tbl.nslot false
    else if (pm.nentry + 1) * 100 > tbl.nslot * maxLoadPercent then rebuildLocked env (tbl.nslot * 2) true
    else return none

/-- `cachetag_purgemap_prepare_batch_locked` -/
def prepareBatchLocked (env : Env) (nfolds : Nat) : Locked (Option Fault) := do
  let pm ← get
  if pm.nentry > sizeMax - nfolds then return some .eoverflow
  else
    match roomForChecked (pm.nentry + nfolds) (pm.nentry + nfolds) (pm.table.elim initialSlots Table.nslot) with
    | none => return some .eoverflow
    | some nslot =>
      let grow := pm.table.all fun tbl => nslot > tbl.nslot
      if !grow && !needsSameSizeRebuild pm then return none else rebuildLocked env nslot grow

/-- `cachetag_purgemap_apply_upsert_locked` -/
def applyUpsertLocked (fold seq : Nat) (mode : PurgeMode) : Locked (Option Fault) := do
  let pm ← get
  match pm.table with
  | none => return some .einval
  | some tbl =>
    match walk tbl.slot tbl.nslot (Table.upsertVisit fold) tbl.nslot (tbl.home fold) none with
    | none => return some .loops
    | some (.found pos) =>
      modify fun pm => { pm with table := some (tbl.set pos ((tbl.slot pos).bump seq mode)) }
      return none
    | some (.insert pos tombstone) =>
      modify fun pm => { pm with ntombstone := if tombstone then pm.ntombstone - 1 else pm.ntombstone }
      modify fun pm => { pm with table := some (tbl.set pos (.fresh fold seq mode)) }
      modify fun pm => { pm with nentry := pm.nentry + 1 }
      return none

/-- The upserts of a batch. -/
def applyAllLocked (seq : Nat) (mode : PurgeMode) : List Fold → Locked (Option Fault)
  | [] => return none
  | f :: fs => do
    match ← applyUpsertLocked f.val seq mode with
    | some e => return some e
    | none => applyAllLocked seq mode fs

/-- The stores of a prune. -/
def storePruned (replacement : Table) (kept hardFloor softFloor : Nat) : Locked Unit := do
  modify fun pm => { pm with table := some replacement }
  modify fun pm => { pm with nentry := kept }
  modify fun pm => { pm with ntombstone := 0 }
  modify fun pm => { pm with hardFloor := hardFloor }
  modify fun pm => { pm with softFloor := softFloor }

/-- The part of `cachetag_purgemap_prune_locked` behind the choice of the cutoff. -/
def pruneAtLocked (env : Env) (tbl : Table) (need cutoff : Nat) : Locked (Option Fault × Nat) := do
  let pm ← get
  let actualPruned := (tbl.live.map Entry.newest).countP (· ≤ cutoff)
  if actualPruned < need ∨ actualPruned > tbl.live.length then return (some .einval, 0)
  else
    let kept := tbl.live.length - actualPruned
    let pruned := tbl.live.filter fun e => e.newest ≤ cutoff
    match tableNew env.replacementAlloc (roomFor kept kept initialSlots) with
    | none => return (some .enomem, 0)
    | some fresh =>
      match insertAll (tbl.live.filter fun e => cutoff < e.newest) fresh with
      | .error e => return (some e, 0)
      | .ok replacement =>
        if pruned.length ≠ actualPruned then return (some .einval, 0)
        else
          storePruned replacement kept (pruned.foldl (fun fl e => max fl e.hardSeq) pm.hardFloor)
            (pruned.foldl (fun fl e => max fl e.softSeq) pm.softFloor)
          return (none, pruned.length)

/-- `cachetag_purgemap_prune_locked`, with `*prunedp`. -/
def pruneLocked (cfg : Config) (env : Env) : Locked (Option Fault × Nat) := do
  let pm ← get
  if cfg.historyMax = 0 ∨ pm.nentry ≤ cfg.historyMax then return (none, 0)
  else match pm.table with
  | none => return (none, 0)
  | some tbl =>
    let need := pm.nentry - pruneTarget cfg.historyMax
    if need = 0 then return (none, 0)
    else if pm.nentry > sizeMax / 8 then return (some .efbig, 0)
    else if env.newestAlloc then
      let newest := tbl.live.map Entry.newest
      if newest.length ≠ pm.nentry ∨ need > newest.length then return (some .einval, 0)
      else
        match Quickselect.select (fun i => newest.getD i 0) newest.length (need - 1) with
        | none => return (some .loops, 0)
        | some cutoff => pruneAtLocked env tbl need cutoff
    else return (some .enomem, 0)

/-- `cachetag_purgemap_prune_rollback_locked` -/
def pruneRollbackLocked (original : Option Table) (nentry ntombstone hardFloor softFloor : Nat) : Locked Unit := do
  modify fun pm => { pm with table := original }
  modify fun pm => { pm with nentry := nentry }
  modify fun pm => { pm with ntombstone := ntombstone }
  modify fun pm => { pm with hardFloor := hardFloor }
  modify fun pm => { pm with softFloor := softFloor }

/-- `cachetag_purgemap_checkpoint_locked`, which only reads the map. -/
def checkpointLocked (cfg : Config) (env : Env) (force : Bool) : Locked (Option Fault × Option Checkpoint) := do
  match checkpoint cfg env (← get) force with
  | .ok written => return (none, written)
  | .error e => return (some e, none)

/-- What `cachetag_purgemap_prune_checkpoint_locked` has done: its return value, the number of entries that were
    pruned, and the checkpoint that was written. -/
structure PruneOutcome where
  fault : Option Fault
  pruned : Nat
  written : Option Checkpoint

/-- `cachetag_purgemap_prune_checkpoint_locked` -/
def pruneCheckpointLocked (cfg : Config) (env : Env) (force : Bool) : Locked PruneOutcome := do
  let old ← get
  match ← pruneLocked cfg env with
  | (some e, _) => return ⟨some e, 0, none⟩
  | (none, pruned) =>
    match ← checkpointLocked cfg env (force || pruned ≠ 0) with
    | (none, written) => return ⟨none, pruned, written⟩
    | (some e, _) =>
      if pruned ≠ 0 then pruneRollbackLocked old.table old.nentry old.ntombstone old.hardFloor old.softFloor
      return ⟨some e, pruned, none⟩

/-- `cachetag_purgemap_reclaim_locked` -/
def reclaimLocked (env : Env) (cutoff : Nat) : Locked (Option Fault) := do
  let pm ← get
  let kept := survivors cutoff (pm.table.elim [] Table.entries)
  let store (tbl : Option Table) : Locked (Option Fault) := do
    modify fun pm => { pm with table := tbl }
    modify fun pm => { pm with nentry := kept.length }
    modify fun pm => { pm with ntombstone := 0 }
    modify fun pm => { pm with hardFloor := cutSeq cutoff pm.hardFloor }
    modify fun pm => { pm with softFloor := cutSeq cutoff pm.softFloor }
    return none
  if kept.length = 0 then store none
  else
    match tableNew env.tableAlloc (roomFor kept.length kept.length initialSlots) with
    | none => return some .enomem
    | some fresh =>
      match insertAll kept fresh with
      | .error f => return some f
      | .ok tbl => store (some tbl)

/-- The part of both purge calls behind the log record. -/
def commitPurgeLocked (cfg : Config) (env : Env) (folds : List Fold) (seq : Nat) (mode : PurgeMode) : Locked Int := do
  modify fun pm => { pm with seq := seq }
  let _ ← applyAllLocked seq mode folds
  let _ ← pruneCheckpointLocked cfg env false
  modify fun pm => { pm with memoSeq := seq }
  return -1

/-- `cachetag_purge`. `mapAlloc` is whether `cachetag_purgemap_get` finds or makes a map. -/
def purgeLocked (cfg : Config) (env : Env) (mapAlloc : Bool) (limits : Limits) (digest : Bytes → Digest)
    (key : Option Bytes) (mode : PurgeMode) : Locked Int := do
  match key.elim (.error .einval) (digestSnapshotLen limits digest) with
  | .error .einval => return -3
  | .error .e2big => return -2
  | .ok d =>
    if !mapAlloc then return -2
    else
      match ← prepareUpsertLocked env with
      | some _ => return -2
      | none =>
        let pm ← get
        if pm.seq = u64Max then return -2
        else if cfg.persist && env.logFault.isSome then return -4
        else commitPurgeLocked cfg env [foldDigest d] (pm.seq + 1) mode

/-- `cachetag_purge_batch` -/
def purgeBatchLocked (cfg : Config) (env : Env) (mapAlloc : Bool) (digests : List Digest) (mode : PurgeMode) :
    Locked Int := do
  if !env.foldsAlloc || !mapAlloc then return -2
  else
    let pm ← get
    if pm.seq = u64Max then return -2
    else
      match ← prepareBatchLocked env digests.length with
      | some _ => return -2
      | none =>
        if cfg.persist && env.logFault.isSome then
          return if env.logFault = some .enomem ∨ env.logFault = some .efbig then -2 else -4
        else commitPurgeLocked cfg env (digests.map foldDigest) (pm.seq + 1) mode

/-- What `cachetag_purge_header_tokens` returns of a header that it rejects. -/
def rejectCode : PurgeFault → Int
  | .embeddedWs | .invalidKey => -3
  | .headerTooLarge | .keyTooLong | .noMemory => -2

/-- The end of `cachetag_purge_header_tokens`. -/
def purgeHeaderLocked (cfg : Config) (env : Env) (mapAlloc : Bool) (h : HeaderPurge) (mode : PurgeMode) : Locked Int :=
  match h with
  | .nothing => return 0
  | .rejected f => return rejectCode f
  | .batch keys => purgeBatchLocked cfg env mapAlloc keys mode

/-! ### What they compute -/

/-- A program goes on where its first part has stopped. -/
theorem run_bind_of {α β : Type} {x : Locked α} {f : α → Locked β} {pm pm' : Map} {a : α} (h : x.run pm = (a, pm')) :
    (x >>= f).run pm = (f a).run pm' := by
  rw [StateT.run_bind, h]
  rfl

/-- The outcome of a call that either makes a new map or fails. -/
def outcome (pm : Map) : Except Fault Map → Option Fault × Map
  | .ok pm' => (none, pm')
  | .error e => (some e, pm)

section Runs
variable {cfg : Config} {env : Env} {pm : Map} {minslot : Nat} {grow : Bool}

theorem rebuildLocked_run : (rebuildLocked env minslot grow).run pm = outcome pm (rebuild env pm minslot grow) := by
  unfold rebuildLocked rebuild
  rw [StateT.run_bind, StateT.run_get, pure_bind]
  dsimp only
  cases tableNew env.tableAlloc (atLeast minslot minslot (baseSlots pm grow)) with
  | none => rfl
  | some fresh =>
    dsimp only
    cases insertAll pm.live fresh with
    | error e => rfl
    | ok tbl => rfl

theorem prepareUpsertLocked_run : (prepareUpsertLocked env).run pm = outcome pm (prepareUpsert env pm) := by
  unfold prepareUpsertLocked prepareUpsert
  rw [StateT.run_bind, StateT.run_get, pure_bind]
  dsimp only
  cases pm.table with
  | none => exact rebuildLocked_run
  | some tbl =>
    dsimp only
    split_ifs
    · exact rebuildLocked_run
    · exact rebuildLocked_run
    · rfl

theorem prepareBatchLocked_run {k : Nat} : (prepareBatchLocked env k).run pm = outcome pm (prepareBatch env pm k) := by
  unfold prepareBatchLocked prepareBatch
  rw [StateT.run_bind, StateT.run_get, pure_bind]
  dsimp only
  split_ifs with hbig
  · rfl
  · cases roomForChecked (pm.nentry + k) (pm.nentry + k) (pm.table.elim initialSlots Table.nslot) with
    | none => rfl
    | some nslot =>
      dsimp only
      split_ifs
      · rfl
      · exact rebuildLocked_run

theorem applyUpsertLocked_run {fold seq : Nat} {mode : PurgeMode} :
    (applyUpsertLocked fold seq mode).run pm = outcome pm (applyUpsert pm fold seq mode) := by
  unfold applyUpsertLocked applyUpsert
  rw [StateT.run_bind, StateT.run_get, pure_bind]
  dsimp only
  cases pm.table with
  | none => rfl
  | some tbl =>
    dsimp only
    cases walk tbl.slot tbl.nslot (Table.upsertVisit fold) tbl.nslot (tbl.home fold) none with
    | none => rfl
    | some spot => cases spot <;> rfl

/-- The upserts of a batch, if they go through. -/
theorem applyAllLocked_run {seq : Nat} {mode : PurgeMode} {folds : List Fold} {pm' : Map}
    (h : applyAll seq mode folds pm = .ok pm') : (applyAllLocked seq mode folds).run pm = (none, pm') := by
  induction folds generalizing pm with
  | nil =>
    cases h
    rfl
  | cons f fs ih =>
    unfold applyAll at h
    unfold applyAllLocked
    rw [StateT.run_bind, applyUpsertLocked_run]
    cases hup : applyUpsert pm f.val seq mode with
    | error e =>
      rw [hup] at h
      cases h
    | ok mid =>
      rw [hup] at h
      exact ih h

/-- What a prune is as a program. -/
def pruneOutcome (pm : Map) : Except Fault (Map × Nat) → (Option Fault × Nat) × Map
  | .ok (pm', n) => ((none, n), pm')
  | .error e => ((some e, 0), pm)

theorem pruneAtLocked_run {tbl : Table} {need cutoff : Nat} :
    (pruneAtLocked env tbl need cutoff).run pm = pruneOutcome pm (pruneAt env pm tbl need cutoff) := by
  unfold pruneAtLocked pruneAt
  rw [StateT.run_bind, StateT.run_get, pure_bind]
  dsimp only
  by_cases hcount : (tbl.live.map Entry.newest).countP (· ≤ cutoff) < need ∨
      (tbl.live.map Entry.newest).countP (· ≤ cutoff) > tbl.live.length
  · rw [if_pos hcount, if_pos hcount]
    rfl
  rw [if_neg hcount, if_neg hcount]
  cases tableNew env.replacementAlloc _ with
  | none => rfl
  | some fresh =>
    dsimp only
    cases insertAll (tbl.live.filter fun e => cutoff < e.newest) fresh with
    | error e => rfl
    | ok replacement =>
      dsimp only
      split_ifs
      · rfl
      · rfl

theorem pruneLocked_run : (pruneLocked cfg env).run pm = pruneOutcome pm (prune cfg env pm) := by
  unfold pruneLocked prune
  rw [StateT.run_bind, StateT.run_get, pure_bind]
  dsimp only
  by_cases hfew : cfg.historyMax = 0 ∨ pm.nentry ≤ cfg.historyMax
  · rw [if_pos hfew, if_pos hfew]
    rfl
  rw [if_neg hfew, if_neg hfew]
  cases pm.table with
  | none => rfl
  | some tbl =>
    dsimp only
    by_cases hneed : pm.nentry - pruneTarget cfg.historyMax = 0
    · rw [if_pos hneed, if_pos hneed]
      rfl
    rw [if_neg hneed, if_neg hneed]
    by_cases hbig : pm.nentry > sizeMax / 8
    · rw [if_pos hbig, if_pos hbig]
      rfl
    rw [if_neg hbig, if_neg hbig]
    by_cases halloc : env.newestAlloc = true
    · rw [if_pos halloc, if_pos halloc]
      split_ifs
      · rfl
      cases Quickselect.select (fun i => (tbl.live.map Entry.newest).getD i 0) (tbl.live.map Entry.newest).length
          (pm.nentry - pruneTarget cfg.historyMax - 1) with
      | none => rfl
      | some cutoff => exact pruneAtLocked_run
    · rw [if_neg halloc, if_neg halloc]
      rfl

theorem reclaimLocked_run {cutoff : Nat} : (reclaimLocked env cutoff).run pm = outcome pm (reclaim env pm cutoff) := by
  unfold reclaimLocked reclaim
  rw [StateT.run_bind, StateT.run_get, pure_bind]
  dsimp only
  split_ifs with hzero
  · rw [hzero]
    rfl
  · cases tableNew env.tableAlloc _ with
    | none => rfl
    | some fresh =>
      dsimp only
      cases insertAll (survivors cutoff (pm.table.elim [] Table.entries)) fresh with
      | error e => rfl
      | ok tbl => rfl

/-- A prune with its checkpoint, and the rollback of a prune whose checkpoint fails. -/
theorem pruneCheckpointLocked_run {force : Bool} :
    ∃ n, (pruneCheckpointLocked cfg env force).run pm =
      (⟨(pruneCheckpoint cfg env pm force).fault, n, (pruneCheckpoint cfg env pm force).written⟩,
        (pruneCheckpoint cfg env pm force).map) := by
  unfold pruneCheckpointLocked pruneCheckpoint
  rw [StateT.run_bind, StateT.run_get, pure_bind, StateT.run_bind, pruneLocked_run]
  cases prune cfg env pm with
  | error e => exact ⟨0, rfl⟩
  | ok p =>
    obtain ⟨pm', n⟩ := p
    refine ⟨n, ?_⟩
    show (do
      match ← checkpointLocked cfg env (force || n ≠ 0) with
      | (none, written) => return PruneOutcome.mk none n written
      | (some e, _) =>
        if n ≠ 0 then pruneRollbackLocked pm.table pm.nentry pm.ntombstone pm.hardFloor pm.softFloor
        return PruneOutcome.mk (some e) n none : Locked PruneOutcome).run pm' = _
    have hcheck : (checkpointLocked cfg env (force || n ≠ 0)).run pm' =
        (match checkpoint cfg env pm' (force || n ≠ 0) with
          | .ok written => (none, written)
          | .error e => (some e, none), pm') := by
      unfold checkpointLocked
      rw [StateT.run_bind, StateT.run_get, pure_bind]
      cases checkpoint cfg env pm' (force || n ≠ 0) with
      | ok written => rfl
      | error e => rfl
    rw [StateT.run_bind, hcheck]
    dsimp only
    cases checkpoint cfg env pm' (force || n ≠ 0) with
    | ok written => rfl
    | error e =>
      dsimp only
      split_ifs
      · rfl
      · rfl

/-- The number that a purge call returns. -/
def Reply.code : Reply → Int
  | .accepted => -1
  | .limit => -2
  | .persist => -4

theorem commitPurgeLocked_run {folds : List Fold} {n : Nat} {mode : PurgeMode} {p : Purged}
    (h : commitPurge cfg env pm folds n mode = .ok p) :
    (commitPurgeLocked cfg env folds n mode).run pm = (p.reply.code, p.map) := by
  unfold commitPurge at h
  cases hall : applyAll n mode folds { pm with seq := n } with
  | error e =>
    rw [hall] at h
    cases h
  | ok mid =>
    rw [hall] at h
    dsimp only at h
    split at h
    · cases h
    · cases h
      obtain ⟨k, hprune⟩ := @pruneCheckpointLocked_run cfg env mid false
      unfold commitPurgeLocked
      rw [StateT.run_bind, StateT.run_modify, pure_bind, run_bind_of (applyAllLocked_run hall), run_bind_of hprune]
      rfl

variable (cfg env) in
/-- The program of a purge does what the purge does, and the same for a batch. -/
theorem purgeLocked_run {limits : Limits} {digest : Bytes → Digest} {key : Bytes} {d : Digest} (mode : PurgeMode)
    (hkey : digestSnapshotLen limits digest key = .ok d) (h : pm.WF) :
    ∃ p, purge cfg env pm d mode = .ok p ∧
      (purgeLocked cfg env true limits digest (some key) mode).run pm = (p.reply.code, p.map) := by
  obtain ⟨p, hp, -⟩ := purge_spec cfg env mode d h
  refine ⟨p, hp, ?_⟩
  unfold purgeLocked
  simp only [Option.elim_some, hkey, Bool.not_true, Bool.false_eq_true, if_false]
  unfold purge at hp
  cases hprep : prepareUpsert env pm with
  | error e =>
    have hrun : (prepareUpsertLocked env).run pm = (some e, pm) := by rw [prepareUpsertLocked_run, hprep]; rfl
    rw [run_bind_of hrun]
    rw [hprep] at hp
    cases e <;> cases hp <;> rfl
  | ok pm' =>
    have hrun : (prepareUpsertLocked env).run pm = (none, pm') := by rw [prepareUpsertLocked_run, hprep]; rfl
    rw [run_bind_of hrun]
    rw [hprep] at hp
    dsimp only at hp ⊢
    rw [StateT.run_bind, StateT.run_get, pure_bind]
    dsimp only
    split_ifs at hp ⊢
    · cases hp
      rfl
    · cases hp
      rfl
    · exact commitPurgeLocked_run hp

variable (cfg env) in
theorem purgeBatchLocked_run (ds : List Digest) (mode : PurgeMode) (h : pm.WF) :
    ∃ p, purgeBatch cfg env pm ds mode = .ok p ∧
      (purgeBatchLocked cfg env true ds mode).run pm = (p.reply.code, p.map) := by
  obtain ⟨p, hp, -⟩ := purgeBatch_spec cfg env mode ds h
  refine ⟨p, hp, ?_⟩
  unfold purgeBatchLocked
  unfold purgeBatch at hp
  rw [Bool.not_true, Bool.or_false]
  by_cases halloc : (!env.foldsAlloc) = true
  · rw [if_pos halloc] at hp ⊢
    cases hp
    rfl
  rw [if_neg halloc] at hp ⊢
  rw [StateT.run_bind, StateT.run_get, pure_bind]
  dsimp only
  by_cases hmax : pm.seq = u64Max
  · rw [if_pos hmax] at hp ⊢
    cases hp
    rfl
  rw [if_neg hmax] at hp ⊢
  cases hprep : prepareBatch env pm ds.length with
  | error e =>
    have hrun : (prepareBatchLocked env ds.length).run pm = (some e, pm) := by rw [prepareBatchLocked_run, hprep]; rfl
    rw [run_bind_of hrun]
    rw [hprep] at hp
    cases e <;> cases hp <;> rfl
  | ok pm' =>
    have hrun : (prepareBatchLocked env ds.length).run pm = (none, pm') := by rw [prepareBatchLocked_run, hprep]; rfl
    rw [run_bind_of hrun]
    rw [hprep] at hp
    dsimp only at hp ⊢
    by_cases hlog : (cfg.persist && env.logFault.isSome) = true
    · rw [if_pos hlog] at hp ⊢
      cases hp
      split_ifs <;> rfl
    · rw [if_neg hlog] at hp ⊢
      exact commitPurgeLocked_run hp

/-! ### Failures -/

/-- Two maps with the same purge history. -/
structure Untouched (pm pm' : Map) : Prop where
  entries : pm'.live.Perm pm.live
  nentry : pm'.nentry = pm.nentry
  hardFloor : pm'.hardFloor = pm.hardFloor
  softFloor : pm'.softFloor = pm.softFloor
  seq : pm'.seq = pm.seq
  memoSeq : pm'.memoSeq = pm.memoSeq

theorem Untouched.refl : Untouched pm pm := ⟨List.Perm.refl _, rfl, rfl, rfl, rfl, rfl⟩

variable {pm' : Map}

theorem Untouched.of_same (h : pm.WF) (h' : pm'.WF) (hs : pm.Same pm') (hm : pm'.memoSeq = pm.memoSeq) :
    Untouched pm pm' := ⟨hs.live, hs.nentry h h', hs.hard, hs.soft, hs.seq, hm⟩

theorem rebuild_memo (h : rebuild env pm minslot grow = .ok pm') : pm'.memoSeq = pm.memoSeq := by
  unfold rebuild at h
  split at h
  · cases h
  · split at h
    · cases h
    · cases h
      rfl

theorem prepareUpsert_untouched (h : pm.WF) (hp : prepareUpsert env pm = .ok pm') : Untouched pm pm' := by
  have hmemo : pm'.memoSeq = pm.memoSeq := by
    unfold prepareUpsert at hp
    split at hp
    · exact rebuild_memo hp
    · split_ifs at hp
      · exact rebuild_memo hp
      · exact rebuild_memo hp
      · cases hp
        rfl
  rcases prepareUpsert_spec env h with ⟨pm'', hok, hwf, hs, -⟩ | herr
  · cases hp.symm.trans hok
    exact .of_same h hwf hs hmemo
  · cases hp.symm.trans herr

theorem prepareBatch_untouched {k : Nat} (h : pm.WF) (hp : prepareBatch env pm k = .ok pm') : Untouched pm pm' := by
  have hmemo : pm'.memoSeq = pm.memoSeq := by
    unfold prepareBatch at hp
    split at hp
    · cases hp
    · split at hp
      · cases hp
      · dsimp only at hp
        split at hp
        · cases hp
          rfl
        · exact rebuild_memo hp
  rcases prepareBatch_spec env k h with ⟨pm'', hok, hwf, hs, -⟩ | ⟨f, herr, -⟩
  · cases hp.symm.trans hok
    exact .of_same h hwf hs hmemo
  · cases hp.symm.trans herr

theorem purgeLocked_failed {mapAlloc : Bool} {limits : Limits} {digest : Bytes → Digest} {key : Option Bytes}
    {mode : PurgeMode} {r : Int} (h : pm.WF)
    (hrun : (purgeLocked cfg env mapAlloc limits digest key mode).run pm = (r, pm')) (hr : r ≠ -1) :
    Untouched pm pm' := by
  unfold purgeLocked at hrun
  cases hkey : key.elim (.error .einval) (digestSnapshotLen limits digest) with
  | error e =>
    rw [hkey] at hrun
    cases e <;> cases hrun <;> exact .refl
  | ok d =>
    rw [hkey] at hrun
    dsimp only at hrun
    split at hrun
    · cases hrun
      exact .refl
    cases hprep : prepareUpsert env pm with
    | error e =>
      have hrun' : (prepareUpsertLocked env).run pm = (some e, pm) := by rw [prepareUpsertLocked_run, hprep]; rfl
      rw [run_bind_of hrun'] at hrun
      cases hrun
      exact .refl
    | ok mid =>
      have hrun' : (prepareUpsertLocked env).run pm = (none, mid) := by rw [prepareUpsertLocked_run, hprep]; rfl
      rw [run_bind_of hrun'] at hrun
      dsimp only at hrun
      rw [StateT.run_bind, StateT.run_get, pure_bind] at hrun
      dsimp only at hrun
      split_ifs at hrun
      · cases hrun
        exact prepareUpsert_untouched h hprep
      · cases hrun
        exact prepareUpsert_untouched h hprep
      · exact absurd (congrArg Prod.fst hrun).symm hr

theorem purgeBatchLocked_failed {mapAlloc : Bool} {ds : List Digest} {mode : PurgeMode} {r : Int} (h : pm.WF)
    (hrun : (purgeBatchLocked cfg env mapAlloc ds mode).run pm = (r, pm')) (hr : r ≠ -1) : Untouched pm pm' := by
  unfold purgeBatchLocked at hrun
  split at hrun
  · cases hrun
    exact .refl
  rw [StateT.run_bind, StateT.run_get, pure_bind] at hrun
  dsimp only at hrun
  split at hrun
  · cases hrun
    exact .refl
  cases hprep : prepareBatch env pm ds.length with
  | error e =>
    have hrun' : (prepareBatchLocked env ds.length).run pm = (some e, pm) := by rw [prepareBatchLocked_run, hprep]; rfl
    rw [run_bind_of hrun'] at hrun
    cases hrun
    exact .refl
  | ok mid =>
    have hrun' : (prepareBatchLocked env ds.length).run pm = (none, mid) := by rw [prepareBatchLocked_run, hprep]; rfl
    rw [run_bind_of hrun'] at hrun
    dsimp only at hrun
    split at hrun
    · cases hrun
      exact prepareBatch_untouched h hprep
    · exact absurd (congrArg Prod.fst hrun).symm hr

/-- A prune whose checkpoint fails is taken back. -/
theorem pruneCheckpoint_failed {force : Bool} (h : pm.WF) (hf : (pruneCheckpoint cfg env pm force).fault ≠ none) :
    (pruneCheckpoint cfg env pm force).map = pm := by
  have written : ∀ pm' n, prune cfg env pm = .ok (pm', n) → (n = 0 → pm' = pm) →
      pruneRollback pm' pm.table pm.nentry pm.ntombstone pm.hardFloor pm.softFloor = pm →
      (pruneCheckpoint cfg env pm force).map = pm := by
    intro pm' n hok hzero hback
    simp only [pruneCheckpoint, hok] at hf ⊢
    cases hc : checkpoint cfg env pm' (force || n ≠ 0) with
    | ok w =>
      rw [hc] at hf
      exact absurd rfl hf
    | error f =>
      dsimp only
      split_ifs with hn
      · exact hback
      · exact hzero (not_not.mp hn)
  rcases prune_spec cfg env h with ⟨-, hok⟩ | ⟨pm', n, cutoff, hok, hn, -, -, -, hto⟩ | ⟨f, herr, -⟩
  · exact written pm 0 hok (fun _ => rfl) rfl
  · exact written pm' n hok (fun h0 => absurd h0 hn.ne') hto.rollback
  · simp only [pruneCheckpoint, herr]

end Runs

/-! ### Runs -/

/-- The calls that change a map: those of `Event`, and a reclaim. -/
inductive MapEvent where
  | call (e : Event)
  | reclaim (cutoff : Nat) (env : Env)

/-- One call. What a reclaim drops is gone from the log. -/
def History.stepAll (cfg : Config) (s : History) : MapEvent → Option History
  | .call e => s.step cfg e
  | .reclaim cutoff env =>
    match reclaim env s.map cutoff with
    | .error _ => some s
    | .ok pm => some { s with map := pm, log := s.log.filter fun p => cutoff < p.seq }

section
variable {cfg : Config} {s t : History}

theorem History.Inv.stepAll {e : MapEvent} (h : s.Inv) (hs : s.stepAll cfg e = some t) : t.Inv := by
  cases e with
  | call e => exact h.step hs
  | reclaim cutoff env =>
    simp only [History.stepAll] at hs
    rcases reclaim_spec env cutoff h.wf with ⟨pm, hok, hwf, hto⟩ | herr
    · rw [hok] at hs
      cases hs
      exact ⟨hwf, h.sound.reclaimsTo hto, h.saved⟩
    · rw [herr] at hs
      cases hs
      exact h

theorem History.reachAll_inv (h : Machine.Reach (History.stepAll cfg) Machine.always History.init s) : s.Inv :=
  h.inv History.Inv.init fun _ hi _ hs => hi.stepAll hs

/-- What a program leaves of a map that it fails on. -/
structure FailsClean (cfg : Config) (pm : Map) : Prop where
  purge : ∀ env mapAlloc limits digest key mode r pm',
    (purgeLocked cfg env mapAlloc limits digest key mode).run pm = (r, pm') → r ≠ -1 → Untouched pm pm'
  batch : ∀ env mapAlloc ds mode r pm',
    (purgeBatchLocked cfg env mapAlloc ds mode).run pm = (r, pm') → r ≠ -1 → Untouched pm pm'
  prune : ∀ env e n pm', (pruneLocked cfg env).run pm = ((some e, n), pm') → Untouched pm pm'
  reclaim : ∀ env cutoff e pm', (reclaimLocked env cutoff).run pm = (some e, pm') → Untouched pm pm'
  checkpoint : ∀ env force o pm', (pruneCheckpointLocked cfg env force).run pm = (o, pm') → o.fault ≠ none →
    Untouched pm pm'
  header : ∀ env mapAlloc limits digest alloc fuel header sep h mode, rejection limits header sep ≠ none →
    purgeHeaderTokens limits digest alloc fuel header sep = some h →
    ∃ r, (purgeHeaderLocked cfg env mapAlloc h mode).run pm = (r, pm) ∧ (r = -2 ∨ r = -3)

/-- Whatever a map has gone through, a call that fails on it leaves its purge history as it was: a purge that
    returns another number than -1, a prune or a reclaim that reports an error, and a prune with its checkpoint
    when either fails; and a header with a token that is rejected does not come to a purge at all. -/
theorem failures_leave_history (h : Machine.Reach (History.stepAll cfg) Machine.always History.init s) :
    FailsClean cfg s.map := by
  have hwf := (History.reachAll_inv h).wf
  refine ⟨fun env mapAlloc limits digest key mode r pm' hrun hr => purgeLocked_failed hwf hrun hr,
    fun env mapAlloc ds mode r pm' hrun hr => purgeBatchLocked_failed hwf hrun hr,
    fun env e n pm' hrun => ?_, fun env cutoff e pm' hrun => ?_, fun env force o pm' hrun ho => ?_,
    fun env mapAlloc limits digest alloc fuel header sep h mode hrej hrun => ?_⟩
  · rw [pruneLocked_run] at hrun
    cases hp : Purgemap.prune cfg env s.map with
    | error f =>
      rw [hp] at hrun
      cases hrun
      exact .refl
    | ok p =>
      rw [hp] at hrun
      cases hrun
  · rw [reclaimLocked_run] at hrun
    cases hp : Purgemap.reclaim env s.map cutoff with
    | error f =>
      rw [hp] at hrun
      cases hrun
      exact .refl
    | ok pm =>
      rw [hp] at hrun
      cases hrun
  · obtain ⟨n, heq⟩ := @pruneCheckpointLocked_run cfg env s.map force
    cases heq.symm.trans hrun
    rw [pruneCheckpoint_failed hwf ho]
    exact .refl
  · obtain ⟨f, rfl⟩ := purgeHeaderTokens_rejects hrej hrun
    refine ⟨rejectCode f, rfl, ?_⟩
    cases f <;> decide

end

/-- No checkpoint can be written. -/
def Env.unwritten : Env := { Env.ok with checkpointWritten := false }

/-- A namespace that keeps one entry of history, after a hard purge of two tags: its next prune is rolled back. -/
theorem failures_leave_history_rollback : ∃ s o pm', Machine.run (History.stepAll ⟨1, true⟩) History.init
      [.call (.purgeBatch [⟨0, 5⟩, ⟨0, 7⟩] .hard .unwritten)] = some s ∧
    (pruneCheckpointLocked ⟨1, true⟩ .unwritten true).run s.map = (o, pm') ∧ o.pruned = 2 ∧ o.fault = some .eio ∧
    Untouched s.map pm' := by
  have hrun : (Machine.run (History.stepAll ⟨1, true⟩) History.init
      [.call (.purgeBatch [⟨0, 5⟩, ⟨0, 7⟩] .hard .unwritten)]).map (fun s =>
        let o := ((pruneCheckpointLocked ⟨1, true⟩ .unwritten true).run s.map).1
        (o.pruned, o.fault)) = some (2, some .eio) := by decide +kernel
  obtain ⟨s, hs, heq⟩ := Option.map_eq_some_iff.mp hrun
  have hclean := (failures_leave_history (.of_run hs)).checkpoint .unwritten true
  cases hr : (pruneCheckpointLocked ⟨1, true⟩ .unwritten true).run s.map with
  | mk o pm' =>
    rw [hr] at heq
    obtain ⟨hpruned, hfault⟩ := Prod.mk.inj heq
    exact ⟨s, o, pm', hs, hr, hpruned, hfault, hclean o pm' hr (hfault ▸ Option.some_ne_none Fault.eio)⟩

end Cachetag.Purgemap
