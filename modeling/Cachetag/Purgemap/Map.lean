import Cachetag.Lib.Quickselect
import Cachetag.Purgemap.TableOps

/-! The purge map and the operations on it, as `src/vmod_cachetag_purgemap.c` runs them under `purge_mtx`.

An operation is a function of the map and of what the calls outside the map answer: allocations, the log
and the checkpoint file. Sizes are natural numbers: a count that wrapped would need a table of 2^57 slots. -/

namespace Cachetag.Purgemap
open LinearProbe

/-- `SIZE_MAX` -/
def sizeMax : Nat := 2 ^ 64 - 1

/-- Why a call fails: an errno, or a loop of it that would never end. -/
inductive Fault where
  | loops
  | enomem
  | einval
  | eoverflow
  | efbig
  | eio
deriving DecidableEq, Repr

/-- The settings of an index that its purge map reads. -/
structure Config where
  /-- `limits.purgemap_history_max_entries` -/
  historyMax : Nat
  /-- `cachetag_persist_enabled` -/
  persist : Bool
deriving DecidableEq, Repr

/-- What the calls outside the map answer during one operation. -/
structure Env where
  /-- the `folds` array of a batch is allocated -/
  foldsAlloc : Bool
  /-- the table of a rebuild is allocated -/
  tableAlloc : Bool
  /-- the error of `cachetag_persist_key_purge_digest` or `_batch`, if it has one -/
  logFault : Option Fault
  /-- the `newest` array of a prune is allocated -/
  newestAlloc : Bool
  /-- the replacement table of a prune is allocated -/
  replacementAlloc : Bool
  /-- `cachetag_wal_checkpoint_due` -/
  checkpointDue : Bool
  /-- every file operation of a checkpoint succeeds -/
  checkpointWritten : Bool
deriving DecidableEq, Repr

/-- Every call succeeds. -/
def Env.ok : Env := ⟨true, true, none, true, true, true, true⟩

/-- `struct cachetag_purgemap`, less the reader gate, which `Cachetag/ReaderGate.lean` models. -/
structure Map where
  table : Option Table
  nentry : Nat
  ntombstone : Nat
  seq : Nat
  memoSeq : Nat
  hardFloor : Nat
  softFloor : Nat
deriving DecidableEq, Repr

/-- The map that `cachetag_purgemap_get` makes. -/
def Map.init : Map := ⟨none, 0, 0, 0, 0, 0, 0⟩

/-- The entries a map holds. -/
def Map.live (pm : Map) : List Entry := pm.table.elim [] Table.live

/-! ### Capacity -/

/-- The loop `while (need * 100 > nslot * TAG_PURGEMAP_MAX_LOAD_PERCENT) nslot *= 2;` -/
def roomFor (need : Nat) : Nat → Nat → Nat
  | 0, nslot => nslot
  | fuel + 1, nslot => if need * 100 > nslot * maxLoadPercent then roomFor need fuel (nslot * 2) else nslot

/-- The same loop where it refuses to go past `SIZE_MAX`. -/
def roomForChecked (need : Nat) : Nat → Nat → Option Nat
  | 0, nslot => some nslot
  | fuel + 1, nslot =>
    if need * 100 > nslot * maxLoadPercent then
      if nslot > sizeMax / 2 then none else roomForChecked need fuel (nslot * 2)
    else some nslot

/-- The loop `while (nslot < minslot) nslot *= 2;` -/
def atLeast (minslot : Nat) : Nat → Nat → Nat
  | 0, nslot => nslot
  | fuel + 1, nslot => if nslot < minslot then atLeast minslot fuel (nslot * 2) else nslot

/-- `cachetag_purgemap_empty_slots` -/
def emptySlots (pm : Map) (tbl : Table) : Nat := tbl.nslot - (pm.nentry + pm.ntombstone)

/-- `cachetag_purgemap_needs_same_size_rebuild` -/
def needsSameSizeRebuild (pm : Map) : Bool :=
  match pm.table with
  | none => false
  | some tbl =>
    let threshold := max (tbl.nslot / emptyMinDivisor) 1
    emptySlots pm tbl < threshold || pm.ntombstone ≥ threshold

/-- The copying loop of a rebuild, a prune and a reclaim. -/
def insertAll : List Entry → Table → Except Fault Table
  | [], t => .ok t
  | e :: es, t =>
    match t.insertExisting e with
    | none => .error .loops
    | some t' => insertAll es t'

/-- `cachetag_purgemap_table_new`. A table of more than `SIZE_MAX` bytes is never allocated. -/
def tableNew (alloc : Bool) (nslot : Nat) : Option Table :=
  if alloc ∧ 16 + nslot * 24 ≤ sizeMax then some (Table.new nslot) else none

/-- The number of slots a rebuild starts from. -/
def baseSlots (pm : Map) (grow : Bool) : Nat :=
  match pm.table with
  | none => initialSlots
  | some old => if grow then old.nslot * 2 else old.nslot

/-- `cachetag_purgemap_rebuild_locked` -/
def rebuild (env : Env) (pm : Map) (minslot : Nat) (grow : Bool) : Except Fault Map :=
  match tableNew env.tableAlloc (atLeast minslot minslot (baseSlots pm grow)) with
  | none => .error .enomem
  | some fresh =>
    match insertAll pm.live fresh with
    | .error e => .error e
    | .ok tbl => .ok { pm with table := some tbl, ntombstone := 0 }

/-- `cachetag_purgemap_prepare_upsert_locked` -/
def prepareUpsert (env : Env) (pm : Map) : Except Fault Map :=
  match pm.table with
  | none => rebuild env pm initialSlots true
  | some tbl =>
    if needsSameSizeRebuild pm then rebuild env pm tbl.nslot false
    else if (pm.nentry + 1) * 100 > tbl.nslot * maxLoadPercent then rebuild env pm (tbl.nslot * 2) true
    else .ok pm

/-- `cachetag_purgemap_prepare_batch_locked` -/
def prepareBatch (env : Env) (pm : Map) (nfolds : Nat) : Except Fault Map :=
  if pm.nentry > sizeMax - nfolds then .error .eoverflow
  else
    match roomForChecked (pm.nentry + nfolds) (pm.nentry + nfolds) (pm.table.elim initialSlots Table.nslot) with
    | none => .error .eoverflow
    | some nslot =>
      let grow := pm.table.all fun tbl => nslot > tbl.nslot
      if !grow && !needsSameSizeRebuild pm then .ok pm else rebuild env pm nslot grow

/-! ### Upserts -/

/-- `cachetag_purgemap_apply_upsert_locked` -/
def applyUpsert (pm : Map) (fold seq : Nat) (mode : PurgeMode) : Except Fault Map :=
  match pm.table with
  | none => .error .einval
  | some tbl =>
    match walk tbl.slot tbl.nslot (Table.upsertVisit fold) tbl.nslot (tbl.home fold) none with
    | none => .error .loops
    | some (.found pos) => .ok { pm with table := some (tbl.set pos ((tbl.slot pos).bump seq mode)) }
    | some (.insert pos tombstone) =>
      .ok { pm with
        table := some (tbl.set pos (.fresh fold seq mode))
        ntombstone := if tombstone then pm.ntombstone - 1 else pm.ntombstone
        nentry := pm.nentry + 1 }

/-- The upserts of a batch. -/
def applyAll (seq : Nat) (mode : PurgeMode) : List Fold → Map → Except Fault Map
  | [], pm => .ok pm
  | f :: fs, pm =>
    match applyUpsert pm f.val seq mode with
    | .error e => .error e
    | .ok pm' => applyAll seq mode fs pm'

/-! ### History prune -/

/-- `cachetag_purgemap_entry_newest` -/
def Entry.newest (e : Entry) : Nat := max e.hardSeq e.softSeq

/-- The number of entries a prune leaves at most. The product is one of `uint64_t`. -/
def pruneTarget (historyMax : Nat) : Nat :=
  let target := historyMax * 75 % 2 ^ 64 / 100
  if target ≥ historyMax then historyMax - 1 else target

/-- The part of `cachetag_purgemap_prune_locked` behind the choice of the cutoff. -/
def pruneAt (env : Env) (pm : Map) (tbl : Table) (need cutoff : Nat) : Except Fault (Map × Nat) :=
  let actualPruned := (tbl.live.map Entry.newest).countP (· ≤ cutoff)
  if actualPruned < need ∨ actualPruned > tbl.live.length then .error .einval
  else
    let kept := tbl.live.length - actualPruned
    let pruned := tbl.live.filter fun e => e.newest ≤ cutoff
    match tableNew env.replacementAlloc (roomFor kept kept initialSlots) with
    | none => .error .enomem
    | some fresh =>
      match insertAll (tbl.live.filter fun e => cutoff < e.newest) fresh with
      | .error e => .error e
      | .ok replacement =>
        if pruned.length ≠ actualPruned then .error .einval
        else .ok ({ pm with
          table := some replacement
          nentry := kept
          ntombstone := 0
          hardFloor := pruned.foldl (fun fl e => max fl e.hardSeq) pm.hardFloor
          softFloor := pruned.foldl (fun fl e => max fl e.softSeq) pm.softFloor }, pruned.length)

/-- `cachetag_purgemap_prune_locked`, with the number of pruned entries. -/
def prune (cfg : Config) (env : Env) (pm : Map) : Except Fault (Map × Nat) :=
  if cfg.historyMax = 0 ∨ pm.nentry ≤ cfg.historyMax then .ok (pm, 0)
  else match pm.table with
  | none => .ok (pm, 0)
  | some tbl =>
    let need := pm.nentry - pruneTarget cfg.historyMax
    if need = 0 then .ok (pm, 0)
    else if pm.nentry > sizeMax / 8 then .error .efbig
    else if env.newestAlloc then
      let newest := tbl.live.map Entry.newest
      if newest.length ≠ pm.nentry ∨ need > newest.length then .error .einval
      else
        match Quickselect.select (fun i => newest.getD i 0) newest.length (need - 1) with
        | none => .error .loops
        | some cutoff => pruneAt env pm tbl need cutoff
    else .error .enomem

/-- `cachetag_purgemap_prune_rollback_locked` -/
def pruneRollback (pm : Map) (original : Option Table) (nentry ntombstone hardFloor softFloor : Nat) : Map :=
  { pm with
    table := original
    nentry := nentry
    ntombstone := ntombstone
    hardFloor := hardFloor
    softFloor := softFloor }

/-! ### Checkpoints -/

/-- A checkpoint: `struct cachetag_wal_checkpoint_meta`, less the log position, and the entries behind it. -/
structure Checkpoint where
  purgeSequence : Nat
  hardFloor : Nat
  softFloor : Nat
  entries : Nat
  list : List Entry
deriving DecidableEq, Repr

/-- What `cachetag_wal_checkpoint` asks of an entry before it writes it. -/
def Checkpoint.entryOk (purgeSequence : Nat) (e : Entry) : Bool :=
  e.Live && !(e.hardSeq == 0 && e.softSeq == 0) && e.hardSeq ≤ purgeSequence && e.softSeq ≤ purgeSequence

/-- The checkpoint of a map. -/
def Map.image (pm : Map) : Checkpoint := ⟨pm.seq, pm.hardFloor, pm.softFloor, pm.nentry, pm.live⟩

/-- `cachetag_purgemap_checkpoint_locked`: the checkpoint it writes, if one is due. -/
def checkpoint (cfg : Config) (env : Env) (pm : Map) (force : Bool) : Except Fault (Option Checkpoint) :=
  if !cfg.persist || (!force && !env.checkpointDue) then .ok none
  else if pm.table.isNone ∧ pm.nentry ≠ 0 then .error .einval
  else if pm.live.length ≠ pm.nentry ∨ !pm.live.all (Checkpoint.entryOk pm.seq) then .error .einval
  else if env.checkpointWritten then .ok (some pm.image)
  else .error .eio

/-- What `cachetag_purgemap_prune_checkpoint_locked` leaves: the map, its return value, and the checkpoint
    it wrote. -/
structure Pruned where
  map : Map
  fault : Option Fault
  written : Option Checkpoint
deriving DecidableEq, Repr

/-- `cachetag_purgemap_prune_checkpoint_locked` -/
def pruneCheckpoint (cfg : Config) (env : Env) (pm : Map) (force : Bool) : Pruned :=
  match prune cfg env pm with
  | .error e => ⟨pm, some e, none⟩
  | .ok (pm', pruned) =>
    match checkpoint cfg env pm' (force || pruned ≠ 0) with
    | .ok written => ⟨pm', none, written⟩
    | .error e =>
      if pruned ≠ 0 then
        ⟨pruneRollback pm' pm.table pm.nentry pm.ntombstone pm.hardFloor pm.softFloor, some e, none⟩
      else ⟨pm', some e, none⟩

/-! ### The calls of the interface -/

/-- What `cachetag_purge` and `cachetag_purge_batch` return: -1, -2 and -4. -/
inductive Reply where
  | accepted
  | limit
  | persist
deriving DecidableEq, Repr

/-- What a purge leaves. -/
structure Purged where
  map : Map
  reply : Reply
  written : Option Checkpoint
deriving DecidableEq, Repr

/-- The part of both purge calls behind the log record: the upserts, the prune, and the memo token. -/
def commitPurge (cfg : Config) (env : Env) (pm : Map) (folds : List Fold) (seq : Nat) (mode : PurgeMode) :
    Except Fault Purged :=
  match applyAll seq mode folds { pm with seq := seq } with
  | .error e => .error e
  | .ok pm' =>
    let p := pruneCheckpoint cfg env pm' false
    if p.fault = some .loops then .error .loops
    else .ok ⟨{ p.map with memoSeq := seq }, .accepted, p.written⟩

/-- `cachetag_purge` of a key with the given digest. -/
def purge (cfg : Config) (env : Env) (pm : Map) (digest : Digest) (mode : PurgeMode) : Except Fault Purged :=
  match prepareUpsert env pm with
  | .error .loops => .error .loops
  | .error _ => .ok ⟨pm, .limit, none⟩
  | .ok pm' =>
    if pm'.seq = u64Max then .ok ⟨pm', .limit, none⟩
    else if cfg.persist && env.logFault.isSome then .ok ⟨pm', .persist, none⟩
    else commitPurge cfg env pm' [foldDigest digest] (pm'.seq + 1) mode

/-- `cachetag_purge_batch` of keys with the given digests. -/
def purgeBatch (cfg : Config) (env : Env) (pm : Map) (digests : List Digest) (mode : PurgeMode) :
    Except Fault Purged :=
  if !env.foldsAlloc then .ok ⟨pm, .limit, none⟩
  else if pm.seq = u64Max then .ok ⟨pm, .limit, none⟩
  else
    match prepareBatch env pm digests.length with
    | .error .loops => .error .loops
    | .error _ => .ok ⟨pm, .limit, none⟩
    | .ok pm' =>
      if cfg.persist && env.logFault.isSome then
        .ok ⟨pm', if env.logFault = some .enomem ∨ env.logFault = some .efbig then .limit else .persist, none⟩
      else commitPurge cfg env pm' (digests.map foldDigest) (pm.seq + 1) mode

/-- The part of `cachetag_compact_all` that touches the map. -/
def compact (cfg : Config) (env : Env) (pm : Map) : Pruned :=
  let p := pruneCheckpoint cfg env pm true
  match p.fault, p.map.table with
  | none, some tbl =>
    if needsSameSizeRebuild p.map then
      match rebuild env p.map tbl.nslot false with
      | .error e => { p with fault := some e }
      | .ok pm' => { p with map := pm' }
    else p
  | _, _ => p

/-! ### Recovery -/

/-- `cachetag_purgemap_checkpoint_begin` -/
def checkpointBegin (env : Env) (pm : Map) (c : Checkpoint) : Except Fault Map :=
  if c.purgeSequence = u64Max ∨ c.hardFloor > c.purgeSequence ∨ c.softFloor > c.purgeSequence ∨
      c.entries > sizeMax then .error .einval
  else if pm.table.isSome ∨ pm.nentry ≠ 0 ∨ pm.seq ≠ 0 then .error .einval
  else
    match roomForChecked c.entries c.entries initialSlots with
    | none => .error .efbig
    | some nslot =>
      let tbl := if c.entries ≠ 0 then tableNew env.tableAlloc nslot else none
      if c.entries ≠ 0 ∧ tbl = none then .error .enomem
      else .ok { pm with
        table := tbl
        hardFloor := c.hardFloor
        softFloor := c.softFloor
        seq := c.purgeSequence }

/-- One turn of the loop of `cachetag_purgemap_checkpoint_entry`: `none` for a fold already there. -/
def checkpointVisit (fold : Nat) : Unit → Nat → Entry → Unit ⊕ Option Nat := fun () pos ent =>
  if ent.fold = fold then .inr none
  else if ent.fold = EMPTY then .inr (some pos)
  else .inl ()

/-- `cachetag_purgemap_checkpoint_entry` -/
def checkpointEntry (pm : Map) (e : Entry) : Except Fault Map :=
  match pm.table with
  | none => .error .einval
  | some tbl =>
    if pm.nentry ≥ tbl.nslot then .error .einval
    else
      match walk tbl.slot tbl.nslot (checkpointVisit e.fold) tbl.nslot (tbl.home e.fold) () with
      | none => .error .loops
      | some none => .error .einval
      | some (some _) =>
        match tbl.insertExisting e with
        | none => .error .loops
        | some tbl' => .ok { pm with table := some tbl', nentry := pm.nentry + 1 }

/-- The entries of a checkpoint in their turn. -/
def checkpointEntries : List Entry → Map → Except Fault Map
  | [], pm => .ok pm
  | e :: es, pm =>
    match checkpointEntry pm e with
    | .error f => .error f
    | .ok pm' => checkpointEntries es pm'

/-- The map a restart makes from a checkpoint. -/
def restore (env : Env) (c : Checkpoint) : Except Fault Map :=
  match checkpointBegin env Map.init c with
  | .error f => .error f
  | .ok pm => checkpointEntries c.list pm

/-- `cachetag_purgemap_replay` of the record of a single purge. -/
def replayOne (cfg : Config) (env : Env) (pm : Map) (digest : Digest) (mode : PurgeMode) (seq : Nat) :
    Except Fault Map :=
  if seq ≤ pm.seq then .error .einval
  else
    match prepareUpsert env pm with
    | .error f => .error f
    | .ok pm' =>
      match applyUpsert pm' (foldDigest digest).val seq mode with
      | .error f => .error f
      | .ok pm'' => (prune cfg env { pm'' with seq := seq }).map Prod.fst

/-- `cachetag_purgemap_replay` of the record of a batch. -/
def replayBatch (cfg : Config) (env : Env) (pm : Map) (digests : List Digest) (mode : PurgeMode) (seq : Nat) :
    Except Fault Map :=
  if seq ≤ pm.seq then .error .einval
  else
    match prepareBatch env pm digests.length with
    | .error f => .error f
    | .ok pm' =>
      match applyAll seq mode (digests.map foldDigest) { pm' with seq := seq } with
      | .error f => .error f
      | .ok pm'' => (prune cfg env pm'').map Prod.fst

/-- `cachetag_purgemap_replay_complete` -/
def replayComplete (pm : Map) : Map := { pm with memoSeq := pm.seq }

/-! ### Probes -/

/-- The loop of a probe over the folds of an object; its accumulator is `soft`. -/
def probeFolds (tbl : Option Table) (regSeq : Nat) : List Nat → Bool → Option ProbeResult
  | [], soft => some (if soft then .soft else .none)
  | f :: fs, soft =>
    match probeOne tbl regSeq f with
    | none => none
    | some .hard => some .hard
    | some .soft => probeFolds tbl regSeq fs true
    | some .none => probeFolds tbl regSeq fs soft

/-- What a probe makes of its loop's result and the floors. -/
def withFloors (tags : ProbeResult) (hardFloor softFloor regSeq : Nat) : ProbeResult :=
  match tags with
  | .hard => .hard
  | tags => if hardFloor > regSeq then .hard else if tags = .soft ∨ softFloor > regSeq then .soft else .none

/-- `cachetag_purgemap_probe_reader_guarded`, when nothing changes the map meanwhile. -/
def probe (pm : Map) (regSeq : Nat) (folds : List Nat) : Option ProbeResult :=
  if pm.nentry = 0 ∧ pm.hardFloor = 0 ∧ pm.softFloor = 0 then some .none
  else (probeFolds pm.table regSeq folds false).map fun tags => withFloors tags pm.hardFloor pm.softFloor regSeq

end Cachetag.Purgemap
