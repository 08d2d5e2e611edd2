import Cachetag.Wal.Manifest

/-! The functions of `src/vmod_cachetag_wal.c` that change a log: preparing it, appending to it, rotating it,
replacing its segments by a checkpoint, and replaying it. -/

namespace Cachetag.Wal
open Numeral

/-- `struct cachetag_wal_checkpoint_meta` -/
structure CheckpointMeta where
  purgeSequence : Nat
  walSequence : Nat
  hardFloor : Nat
  softFloor : Nat
  entries : Nat
deriving DecidableEq, Repr

/-- `struct cachetag_wal_checkpoint_entry` -/
structure CheckpointEntry where
  fold : Nat
  hardSequence : Nat
  softSequence : Nat
deriving DecidableEq, Repr

/-- `TAG_CHECKPOINT_HEADER_LEN`, `TAG_CHECKPOINT_ENTRY_LEN`, `TAG_CHECKPOINT_FOOTER_LEN` and
    `TAG_CHECKPOINT_WRITE_BUFFER_BYTES` -/
def checkpointHeaderLen : Nat := 88
def checkpointEntryLen : Nat := 24
def checkpointFooterLen : Nat := 8
def checkpointWriteBufferBytes : Nat := 64 * 1024

/-- The entries that a checkpoint file can be counted for. -/
def checkpointEntriesMax : Nat := (u64Max - checkpointHeaderLen - checkpointFooterLen) / checkpointEntryLen

/-- What both sides ask of an entry. -/
def CheckpointEntry.ok (meta' : CheckpointMeta) (ent : CheckpointEntry) : Bool :=
  !(ent.fold = 0 || ent.fold = u64Max || (ent.hardSequence = 0 && ent.softSequence = 0) ||
    meta'.purgeSequence < ent.hardSequence || meta'.purgeSequence < ent.softSequence)

section
variable (csum : Bytes → UInt64)

/-- The cut of a torn tail in `cachetag_wal_prepare_locked`. -/
def cutTail (wal : Log) (seg : Segment) : Prog Call.Ans (Option Errno) :=
  if wal.replayed ∧ seg.lastSeq = 0 then do
    match ← fstat wal.fdPath with
    | .error _ => pure none
    | .ok size => calls (if seg.bytes < size then [.ftruncate wal.fdPath seg.bytes] else [])
  else pure none

/-- `cachetag_wal_prepare_locked` -/
def prepareLocked (wal : Log) : Prog Call.Ans (Option Errno × Log) :=
  if wal.degraded then pure (some .eio, wal)
  else if wal.fd.isSome then pure (none, wal)
  else do
    match ← calls [.mkdir [], .mkdir (ascii "wal")] with
    | some e => pure (wal.failLocked e)
    | none =>
      match wal.activeSegment with
      | none => pure (wal.failLocked .enomem)
      | some seg =>
        match ← calls [.alloc] with
        | some _ => pure (wal.failLocked .enomem)
        | none =>
          match ← attempt (.stat seg.relpath.path) with
          | none => opened wal seg false
          | some .enoent => opened wal seg true
          | some e => pure (wal.failLocked e)
where
  /-- What follows the `stat`. -/
  opened (wal : Log) (seg : Segment) (created : Bool) : Prog Call.Ans (Option Errno × Log) := do
    match ← calls [.openAppend seg.relpath.path] with
    | some e => pure (wal.failLocked e)
    | none =>
      let wal := { wal with fd := some seg.relpath }
      match ← cutTail wal seg with
      | some e => pure (wal.failLocked e)
      | none =>
        if created then
          match ← calls [.fsyncDir (ascii "wal")] with
          | some e => pure (wal.failLocked e)
          | none => manifestPublishLocked csum wal
        else pure (none, wal)

/-- `cachetag_wal_rotate_locked` -/
def rotateLocked (wal : Log) : Prog Call.Ans (Option Errno × Log) :=
  match wal.activeSegment with
  | none => pure (none, wal)
  | some seg =>
    if seg.records = 0 then pure (none, wal)
    else do
      let lastSeq := (wal.nextSeq + u64Max) % 2 ^ 64
      let next := Segment.new wal.nextSeq
      match ← calls [.alloc, .alloc] with
      | some _ => pure (wal.failLocked .enomem)
      | none =>
        match ← calls [.fsync wal.fdPath] with
        | some e => pure (wal.failLocked e)
        | none =>
          match ← calls [.close wal.fdPath] with
          | some e => pure ({ wal with fd := none }.failLocked e)
          | none =>
            let wal := { wal.withActive [{ seg with lastSeq }, next] with fd := none }
            match ← calls [.openAppend next.relpath.path] with
            | some e => pure (wal.failLocked e)
            | none =>
              let wal := { wal with fd := some next.relpath }
              match ← calls [.fsyncDir (ascii "wal")] with
              | some e => pure (wal.failLocked e)
              | none => manifestPublishLocked csum wal

/-- What `cachetag_wal_append` does once there is room: it writes the frame and counts it. -/
def appendRecord (wal : Log) (type : UInt8) (data : Bytes) : Prog Call.Ans ((Option Errno × Log) × Option Nat) := do
  let seq := wal.nextSeq
  let wal := { wal with nextSeq := (seq + 1) % 2 ^ 64 }
  let payload := if 0 < data.length then [Call.write wal.fdPath data] else []
  match ← calls (.write wal.fdPath (header csum type seq data) :: payload ++ [.fsync wal.fdPath]) with
  | some e => pure (wal.failLocked e, none)
  | none =>
    let counted := wal.activeSegment.map fun seg =>
      { seg with records := seg.records + 1, bytes := seg.bytes + (headerLen + data.length) }
    pure ((none, (counted.map fun seg => wal.withActive [seg]).getD wal), some seq)

/-- `cachetag_wal_append`: the result, the log and `*seqp`. -/
def append (wal : Log) (type : UInt8) (payload : Option Bytes) (payloadLen : Nat) :
    Prog Call.Ans ((Option Errno × Log) × Option Nat) := do
  match ← prepareLocked csum wal with
  | (some e, wal) => pure ((some e, wal), none)
  | (none, wal) =>
    if 0 < payloadLen ∧ payload = none then pure (wal.failLocked .einval, none)
    else if sizeMax - headerLen < payloadLen then pure (wal.failLocked .efbig, none)
    else
      let full := wal.activeSegment.any fun seg =>
        0 < seg.records && wal.segmentMaxBytes < seg.bytes + (headerLen + payloadLen)
      match ← if full then rotateLocked csum wal else pure (none, wal) with
      | (some e, wal) => pure ((some e, wal), none)
      | (none, wal) => appendRecord csum wal type ((payload.getD []).take payloadLen)

/-! ### Checkpoints -/

/-- `cachetag_wal_namespace_digest` -/
def namespaceDigest (wal : Log) : UInt64 := csum wal.name.bytes

/-- `cachetag_wal_checkpoint_header` -/
def checkpointHeader (wal : Log) (meta' : CheckpointMeta) (generation : Nat) : Bytes :=
  ascii "VTC1" ++ [1, 0] ++ [88, 0] ++ le64enc generation ++ le64enc wal.rootIdHi ++ le64enc wal.rootIdLo ++
    le64enc (namespaceDigest csum wal).toNat ++ le64enc meta'.purgeSequence ++ le64enc meta'.walSequence ++
    le64enc meta'.hardFloor ++ le64enc meta'.softFloor ++ le64enc meta'.entries ++ le64enc 0

def CheckpointEntry.encoded (ent : CheckpointEntry) : Bytes :=
  le64enc ent.fold ++ le64enc ent.hardSequence ++ le64enc ent.softSequence

/-- The loop of `cachetag_wal_checkpoint` over what `next` yields: the entries it emitted, the buffer at its end
    and all the bytes of the entries. -/
def emitLoop (meta' : CheckpointMeta) :
    List (Except Errno CheckpointEntry) → Nat → Bytes → Bytes → Prog Call.Ans (Except Errno (Nat × Bytes × Bytes))
  | [], emitted, buffer, data => pure (.ok (emitted, buffer, data))
  | .error e :: _, _, _, _ => pure (.error e)
  | .ok ent :: next, emitted, buffer, data =>
    if meta'.entries ≤ emitted ∨ !ent.ok meta' then pure (.error .einval)
    else if checkpointWriteBufferBytes < buffer.length + checkpointEntryLen then do
      match ← calls [.write (ascii "checkpoint.tmp") buffer] with
      | some e => pure (.error e)
      | none => emitLoop meta' next (emitted + 1) ent.encoded (data ++ ent.encoded)
    else emitLoop meta' next (emitted + 1) (buffer ++ ent.encoded) (data ++ ent.encoded)

/-- The part of `cachetag_wal_checkpoint` that writes the file: its checksum. -/
def checkpointFile (wal : Log) (meta' : CheckpointMeta) (generation : Nat) (next : List (Except Errno CheckpointEntry)) :
    Prog Call.Ans (Except Errno UInt64) := do
  let hdr := checkpointHeader csum wal meta' generation
  match ← calls [.write (ascii "checkpoint.tmp") hdr] with
  | some e => pure (.error e)
  | none =>
    match ← emitLoop meta' next 0 [] [] with
    | .error e => pure (.error e)
    | .ok (emitted, buffer, data) =>
      if emitted ≠ meta'.entries then pure (.error .einval)
      else
        let checksum := csum (hdr ++ data)
        let flush := if buffer ≠ [] then [Call.write (ascii "checkpoint.tmp") buffer] else []
        match ← calls (flush ++ [.write (ascii "checkpoint.tmp") (le64enc checksum.toNat), .fsync (ascii "checkpoint.tmp")]) with
        | some e => pure (.error e)
        | none => pure (.ok checksum)

/-- The removal of files that nothing names any more. What fails is left behind. -/
def unlinkAll : List Bytes → Prog Call.Ans Unit
  | [] => pure ()
  | path :: paths => do
    match ← calls [.alloc] with
    | some _ => unlinkAll paths
    | none => do
      let _ ← attempt (.unlink path)
      unlinkAll paths

/-- What `cachetag_wal_checkpoint` does once the file is in its place. -/
def checkpointPublish (wal : Log) (meta' : CheckpointMeta) (generation : Nat) (checksum : UInt64) :
    Prog Call.Ans (Option Errno × Log) := do
  match ← rotateLocked csum wal with
  | (some e, wal) => pure (wal.failLocked e)
  | (none, wal) =>
    let covered := fun seg : Segment => seg.lastSeq ≠ 0 && decide (seg.lastSeq ≤ meta'.walSequence)
    let collected := (wal.segments.filter covered).reverse
    let oldCheckpoint := wal.checkpointRelpath
    let wal := { wal with
      segments := wal.segments.filter fun seg => !covered seg
      checkpointRelpath := some (checkpointRelpath generation)
      checkpoint :=
        ⟨generation, meta'.purgeSequence, meta'.walSequence, meta'.hardFloor, meta'.softFloor, meta'.entries,
          checkpointHeaderLen + meta'.entries * checkpointEntryLen + checkpointFooterLen, checksum.toNat⟩ }
    match ← manifestPublishLocked csum wal with
    | (some e, wal) => pure (some e, wal)
    | (none, wal) => do
      unlinkAll (collected.map (·.relpath.path))
      unlinkAll (oldCheckpoint.map (·.path)).toList
      let _ ← attempt (.fsyncDir (ascii "wal"))
      let _ ← attempt (.fsyncDir [])
      pure (none, wal)

/-- `cachetag_wal_checkpoint`, with what `next` yields. `meta'.walSequence` is set here. -/
def checkpoint (wal : Log) (meta' : CheckpointMeta) (next : List (Except Errno CheckpointEntry)) :
    Prog Call.Ans (Option Errno × Log) :=
  if checkpointEntriesMax < meta'.entries then pure (some .efbig, wal)
  else do
    match ← prepareLocked csum wal with
    | (some e, wal) => pure (some e, wal)
    | (none, wal) =>
      if !wal.replayed then pure (wal.failLocked .ebusy)
      else
        let meta' := { meta' with walSequence := if wal.nextSeq = 0 then 0 else wal.nextSeq - 1 }
        let generation := (wal.generation + 1) % 2 ^ 64
        match ← calls [.alloc] with
        | some _ => pure (wal.failLocked .enomem)
        | none =>
          match ← calls [.openTrunc (ascii "checkpoint.tmp")] with
          | some e => pure (wal.failLocked e)
          | none =>
            match ← calls [.alloc] with
            | some _ => do
              let _ ← attempt (.close (ascii "checkpoint.tmp"))
              pure (wal.failLocked .enomem)
            | none =>
              match ← checkpointFile csum wal meta' generation next with
              | .error e => do
                let _ ← attempt (.close (ascii "checkpoint.tmp"))
                pure (wal.failLocked e)
              | .ok checksum =>
                match ← calls [.close (ascii "checkpoint.tmp"),
                    .rename (ascii "checkpoint.tmp") (checkpointRelpath generation).path, .fsyncDir []] with
                | some e => pure (wal.failLocked e)
                | none => checkpointPublish csum wal meta' generation checksum

/-! ### Replay -/

variable {σ : Type}

/-- The callbacks of a replay. -/
structure Callbacks (σ : Type) where
  func : Option (ReplayFn σ)
  checkpointBegin : Option (σ → CheckpointMeta → σ × Option Errno)
  checkpointEntry : Option (σ → CheckpointEntry → σ × Option Errno)

/-- The loop of `cachetag_wal_replay_checkpoint` over the entries: what is left of the file. -/
def replayEntries (cb : Callbacks σ) (meta' : CheckpointMeta) : Nat → Bytes → σ → Except Errno Bytes × σ
  | 0, rest, priv => (.ok rest, priv)
  | n + 1, rest, priv =>
    let encoded := rest.take checkpointEntryLen
    let ent : CheckpointEntry := ⟨le64dec encoded, le64dec (encoded.drop 8), le64dec (encoded.drop 16)⟩
    if encoded.length ≠ checkpointEntryLen then (.error .eio, priv)
    else if !ent.ok meta' then (.error .einval, priv)
    else
      match (cb.checkpointEntry.map fun f => f priv ent).getD (priv, none) with
      | (priv, some e) => (.error e, priv)
      | (priv, none) => replayEntries cb meta' n (rest.drop checkpointEntryLen) priv

/-- The checks that `cachetag_wal_replay_checkpoint` makes of the header. -/
def checkpointHeaderOk (wal : Log) (hdr : Bytes) : Bool :=
  hdr.take 4 = ascii "VTC1" && LittleEndian.dec ((hdr.drop 4).take 2) = 1 &&
    LittleEndian.dec ((hdr.drop 6).take 2) = checkpointHeaderLen &&
    le64dec (hdr.drop 8) = wal.checkpoint.generation && le64dec (hdr.drop 16) = wal.rootIdHi &&
    le64dec (hdr.drop 24) = wal.rootIdLo && le64dec (hdr.drop 32) = (namespaceDigest csum wal).toNat &&
    le64dec (hdr.drop 40) = wal.checkpoint.purgeSequence && le64dec (hdr.drop 48) = wal.checkpoint.walSequence &&
    le64dec (hdr.drop 56) = wal.checkpoint.hardFloor && le64dec (hdr.drop 64) = wal.checkpoint.softFloor &&
    le64dec (hdr.drop 72) = wal.checkpoint.entries && le64dec (hdr.drop 80) = 0 &&
    wal.checkpoint.entries ≤ checkpointEntriesMax &&
    wal.checkpoint.bytes = checkpointHeaderLen + wal.checkpoint.entries * checkpointEntryLen + checkpointFooterLen

/-- `cachetag_wal_replay_checkpoint` on an open file. -/
def replayCheckpoint (cb : Callbacks σ) (wal : Log) (file : File) (priv : σ) : Option Errno × σ :=
  let hdr := file.bytes.take checkpointHeaderLen
  let meta' : CheckpointMeta := ⟨wal.checkpoint.purgeSequence, wal.checkpoint.walSequence, wal.checkpoint.hardFloor,
    wal.checkpoint.softFloor, wal.checkpoint.entries⟩
  if hdr.length ≠ checkpointHeaderLen then (some .eio, priv)
  else if !checkpointHeaderOk csum wal hdr then (some .einval, priv)
  else
    match (cb.checkpointBegin.map fun f => f priv meta').getD (priv, none) with
    | (priv, some e) => (some e, priv)
    | (priv, none) =>
      match replayEntries cb meta' meta'.entries (file.bytes.drop checkpointHeaderLen) priv with
      | (.error e, priv) => (some e, priv)
      | (.ok rest, priv) =>
        let footer := rest.take checkpointFooterLen
        let checksum := csum (file.bytes.take (checkpointHeaderLen + meta'.entries * checkpointEntryLen))
        if footer.length ≠ checkpointFooterLen then (some .eio, priv)
        else if le64dec footer ≠ checksum.toNat ∨ checksum.toNat ≠ wal.checkpoint.checksum then (some .einval, priv)
        else if rest.drop checkpointFooterLen ≠ [] then (some .einval, priv)
        else (none, priv)

/-- The loop of `cachetag_wal_replay` over the segments, with `*max_seqp`. -/
def replaySegments (func : Option (ReplayFn σ)) :
    List Segment → Nat → σ → Prog Call.Ans ((Option Errno × List Segment × Nat) × σ)
  | [], maxSeq, priv => pure ((none, [], maxSeq), priv)
  | seg :: segs, maxSeq, priv => do
    let env := match ← replayEnv seg.relpath.path with
      | .ok env => env
      | .error e => { ReplayEnv.quiet .empty with opened := .error e }
    match replaySegment csum env func seg maxSeq priv with
    | (some e, seg, maxSeq, priv) => pure ((some e, seg :: segs, maxSeq), priv)
    | (none, seg, maxSeq, priv) => do
      match ← replaySegments func segs maxSeq priv with
      | ((r, segs, maxSeq), priv) => pure ((r, seg :: segs, maxSeq), priv)

/-- What `cachetag_wal_replay` does once the manifest is loaded. -/
def replayLoaded (cb : Callbacks σ) (wal : Log) (priv : σ) : Prog Call.Ans ((Option Errno × Log) × σ) := do
  let checkpoint : Option Errno × σ ← match wal.checkpointRelpath with
    | none => pure (none, priv)
    | some rel => do
      match ← readFile rel.path with
      | .error e => pure (some e, priv)
      | .ok file =>
        match ← calls [.alloc] with
        | some _ => pure (some .enomem, priv)
        | none => pure (replayCheckpoint csum cb wal file priv)
  match checkpoint with
  | (some e, priv) => pure (wal.failLocked e, priv)
  | (none, priv) =>
    let maxSeq := if wal.checkpointRelpath.isSome then wal.checkpoint.walSequence else 0
    match ← replaySegments csum cb.func wal.segments maxSeq priv with
    | ((some e, segments, _), priv) => pure ({ wal with segments }.failLocked e, priv)
    | ((none, segments, maxSeq), priv) =>
      let next := (maxSeq + 1) % 2 ^ 64
      let nextSeq := if wal.nextSeq < next then next else wal.nextSeq
      pure ((none, { wal with segments, nextSeq, replayed := true }), priv)

/-- `cachetag_wal_replay` -/
def replay (cb : Callbacks σ) (wal : Log) (priv : σ) : Prog Call.Ans ((Option Errno × Log) × σ) :=
  if wal.replayed then pure ((none, wal), priv)
  else do
    match ← manifestLoadLocked csum wal with
    | (some .enodata, wal) => pure ((none, { wal with replayed := true }), priv)
    | (some e, wal) => pure (wal.failLocked e, priv)
    | (none, wal) => replayLoaded csum cb wal priv

end
end Cachetag.Wal
