import Cachetag.Lib.Scan
import Cachetag.Wal.State

/-! The manifest of a log: what `cachetag_wal_manifest_publish_locked` writes, and how
`cachetag_wal_manifest_load_locked` reads it. -/

namespace Cachetag.Wal
open Numeral Scan

/-- A path and numbers behind it. -/
def entryText (rel : Relpath) (vals : List Nat) : Bytes := rel.path ++ vals.flatMap fun v => 44 :: print 10 v

/-- The numbers of a checkpoint, in the order of the manifest. -/
def Checkpoint.vals (c : Checkpoint) : List Nat :=
  [c.generation, c.purgeSequence, c.walSequence, c.hardFloor, c.softFloor, c.entries, c.bytes, c.checksum]

/-- The segments that a manifest names: the active one, and those with records. -/
def Log.published (wal : Log) : List Segment :=
  wal.segments.filter fun seg => wal.activeSegment = some seg || !(seg.bytes = 0 && seg.records = 0)

/-- The lines in front of the checksum. -/
def manifestLines (wal : Log) (now : Nat) : List Bytes :=
  [ascii "magic=VTM1",
   ascii "version=1",
   ascii "namespace=" ++ wal.name.bytes,
   ascii "root_id=" ++ pad 16 16 wal.rootIdHi ++ pad 16 16 wal.rootIdLo,
   ascii "generation=" ++ print 10 wal.generation,
   ascii "created_unix_nsec=" ++ print 10 (now * 1000000000 % 2 ^ 64),
   ascii "last_sequence=" ++ print 10 (if wal.nextSeq = 0 then 0 else wal.nextSeq - 1)] ++
  (wal.checkpointRelpath.map fun rel => ascii "checkpoint=" ++ entryText rel wal.checkpoint.vals).toList ++
  wal.published.map fun seg => ascii "wal=" ++ entryText seg.relpath [seg.firstSeq, seg.lastSeq, seg.bytes]

/-- The text of lines. -/
def unlines (ls : List Bytes) : Bytes := ls.flatMap (· ++ [10])

def manifestBody (wal : Log) (now : Nat) : Bytes := unlines (manifestLines wal now)

/-- `"checksum=xxh3:"` -/
def checksumMark : Bytes := ascii "checksum=xxh3:"

section
variable (csum : Bytes → UInt64)

/-- What stands in the file after a publication. -/
def manifestText (wal : Log) (now : Nat) : Bytes :=
  manifestBody wal now ++ (checksumMark ++ pad 16 16 (csum (manifestBody wal now)).toNat ++ [10])

/-- `cachetag_wal_manifest_publish_locked` -/
def manifestPublishLocked (wal : Log) : Prog Call.Ans (Option Errno × Log) :=
  if wal.degraded then pure (some .eio, wal)
  else do
    -- The two paths and the buffer.
    match ← calls [.alloc, .alloc] with
    | some _ => pure (wal.failLocked .enomem)
    | none =>
      let wal := { wal with generation := (wal.generation + 1) % 2 ^ 64 }
      match ← time with
      | .error e => pure (wal.failLocked e)
      | .ok now =>
        let tail := checksumMark ++ pad 16 16 (csum (manifestBody wal now)).toNat ++ [10]
        match ← calls [.alloc] with
        | some _ => pure (wal.failLocked .enomem)
        | none =>
          match ← calls [.openTrunc (ascii "manifest.tmp")] with
          | some e => pure (wal.failLocked e)
          | none =>
            match ← calls [.write (ascii "manifest.tmp") (manifestBody wal now), .write (ascii "manifest.tmp") tail,
                .fsync (ascii "manifest.tmp")] with
            | some e => do
              let _ ← attempt (.close (ascii "manifest.tmp"))
              pure (wal.failLocked e)
            | none =>
              match ← calls [.close (ascii "manifest.tmp"), .rename (ascii "manifest.tmp") (ascii "manifest"),
                  .fsyncDir []] with
              | some e => pure (wal.failLocked e)
              | none => pure (none, wal)

/-! ### Orphans -/

/-- `cachetag_wal_file_has_valid_record` -/
def fileHasValidRecord (path : Bytes) : Prog Call.Ans (Except Errno Bool) := do
  match ← readFile path with
  | .error e => pure (.error e)
  | .ok file =>
    let hdr := file.bytes.take headerLen
    let payloadLen := le64dec (hdr.drop 16)
    if hdr.length ≠ headerLen then pure (.ok false)
    else if hdr.take 4 ≠ magic ∨ hdr[4]? ≠ some 1 then pure (.ok false)
    else if sizeMax - headerCsum < payloadLen then pure (.ok false)
    else
      match ← calls (if 0 < payloadLen then [.alloc] else []) with
      | some _ => pure (.error .enomem)
      | none =>
        let payload := (file.bytes.drop headerLen).take payloadLen
        if payload.length ≠ payloadLen then pure (.ok false)
        else pure (.ok ((recordChecksum csum hdr payload).toNat = le64dec (hdr.drop headerCsum)))

/-- The loop of `cachetag_wal_orphan_files_have_records`, and what follows it. -/
def orphanLoop : List Bytes → Bool → Option Errno → Prog Call.Ans (Except Errno Bool)
  | [], removed, cleanup => do
    match cleanup with
    | some e => pure (.error e)
    | none =>
      match ← calls (if removed then [.fsyncDir (ascii "wal")] else []) with
      | some e => pure (.error e)
      | none => pure (.ok false)
  | name :: names, removed, cleanup =>
    if !hasSuffix name (ascii ".vtw") then orphanLoop names removed cleanup
    else do
      match ← calls [.alloc] with
      | some _ => pure (.error .enomem)
      | none =>
        match ← fileHasValidRecord csum (ascii "wal/" ++ name) with
        | .error e => pure (.error e)
        | .ok true =>
          match cleanup with
          | some e => pure (.error e)
          | none => pure (.ok true)
        | .ok false =>
          match ← attempt (.unlink (ascii "wal/" ++ name)) with
          | none => orphanLoop names true cleanup
          | some e =>
            if e ≠ .enoent ∧ cleanup = none then orphanLoop names removed (some e) else orphanLoop names true cleanup

/-- `cachetag_wal_orphan_files_have_records` -/
def orphanFilesHaveRecords : Prog Call.Ans (Except Errno Bool) := do
  match ← readdir (ascii "wal/") with
  | .error e => if e = .enoent ∨ e = .enotdir then pure (.ok false) else pure (.error e)
  | .ok names => orphanLoop csum names false none

end

/-- What follows the last slash of a path. -/
def basename (p : Bytes) : Bytes := p.rtakeWhile (· ≠ 47)

/-- `cachetag_wal_segment_is_manifested` -/
def segmentIsManifested (wal : Log) (name : Bytes) : Bool := wal.segments.any fun seg => basename seg.relpath.path = name

/-- A directory loop of `cachetag_wal_manifest_orphan_gc_locked`: the error, and whether anything was removed. -/
def gcLoop (dir : Bytes) (keep : Bytes → Bool) : List Bytes → Bool → Prog Call.Ans (Option Errno × Bool)
  | [], removed => pure (none, removed)
  | name :: names, removed =>
    if keep name then gcLoop dir keep names removed
    else do
      match ← calls [.alloc] with
      | some _ => pure (some .enomem, removed)
      | none =>
        match ← attempt (.unlink (dir ++ name)) with
        | none | some .enoent => gcLoop dir keep names true
        | some e => pure (some e, removed)

/-- What the second loop leaves alone. -/
def keepsInRoot (wal : Log) (name : Bytes) : Bool :=
  (name ≠ ascii "checkpoint.tmp" && !((ascii "checkpoint-").isPrefixOf name && hasSuffix name (ascii ".vtc"))) ||
    wal.checkpointRelpath.any fun rel => name = rel.path

/-- `cachetag_wal_manifest_orphan_gc_locked` -/
def manifestOrphanGcLocked (wal : Log) : Prog Call.Ans (Option Errno) := do
  let keepsInWal name := !hasSuffix name (ascii ".vtw") || segmentIsManifested wal name
  let names := (← readdir (ascii "wal/")).toOption.getD []
  match ← gcLoop (ascii "wal/") keepsInWal names false with
  | (some e, _) => pure (some e)
  | (none, removed) =>
    match ← readdir [] with
    | .error e => pure (some e)
    | .ok names =>
      match ← gcLoop [] (keepsInRoot wal) names removed with
      | (some e, _) => pure (some e)
      | (none, removed) => calls (if removed then [.fsyncDir (ascii "wal"), .fsyncDir []] else [])

/-! ### Loading -/

/-- `",%" SCNu64`, so many times. -/
def scanNumbers : Nat → Bytes → Option (List Nat × Bytes)
  | 0, s => some ([], s)
  | n + 1, 44 :: s => do
    let (v, s) ← strtoull? 10 s
    let (vs, s) ← scanNumbers n s
    pure (v :: vs, s)
  | _ + 1, _ => none

/-- `sscanf` with `%255[^,]`, so many numbers and `%n`, to the end of the line. -/
def scanEntry (n : Nat) (s : Bytes) : Option (Bytes × List Nat) :=
  let rel := (s.takeWhile (· ≠ 44)).take 255
  if rel = [] then none
  else
    match scanNumbers n (s.drop rel.length) with
    | some (vs, []) => some (rel, vs)
    | _ => none

/-- The locals of `cachetag_wal_manifest_load_locked`. -/
structure Loading where
  wal : Log
  maxSeq : Nat
  sawMagic : Bool
  sawVersion : Bool
  sawNamespace : Bool
  sawRoot : Bool
  sawCheckpoint : Bool

/-- The branch of a `root_id` line. -/
def loadRootId (s : Bytes) (ld : Loading) : Option Errno × Loading :=
  if s.length ≠ 32 then (some .einval, ld)
  else
    let (hi, restHi) := strtoull 16 (s.take 16)
    let (lo, restLo) := strtoull 16 (s.drop 16)
    if restHi ≠ [] then (some .einval, { ld with wal := { ld.wal with rootIdHi := hi } })
    else
      let wal := { ld.wal with rootIdHi := hi, rootIdLo := lo }
      if restLo ≠ [] ∨ hi = 0 ∧ lo = 0 then (some .einval, { ld with wal })
      else (none, { ld with wal, sawRoot := true })

/-- The branch of a `checkpoint` line. -/
def loadCheckpoint (s : Bytes) (ld : Loading) : Prog Call.Ans (Option Errno × Loading) :=
  match if ld.sawCheckpoint then none else scanEntry 8 s with
  | some (rel, [generation, purge, walSeq, hard, soft, entries, bytes, checksum]) =>
    if ok : relpathOk rel = true then do
      match ← calls [.alloc] with
      | some _ => pure (some .einval, ld)
      | none =>
        if !hasSuffix rel (ascii ".vtc") then pure (some .einval, ld)
        else
          match ← calls [.alloc] with
          | some _ => pure (some .enomem, { ld with wal := { ld.wal with checkpointRelpath := none } })
          | none =>
            let checkpoint := ⟨generation, purge, walSeq, hard, soft, entries, bytes, checksum⟩
            pure (none, { ld with
              wal := { ld.wal with checkpointRelpath := some ⟨rel, ok⟩, checkpoint }, sawCheckpoint := true })
    else pure (some .einval, ld)
  | _ => pure (some .einval, ld)

/-- The branch of a `wal` line. -/
def loadSegment (s : Bytes) (ld : Loading) : Prog Call.Ans (Option Errno × Loading) :=
  match scanEntry 3 s with
  | some (rel, [first, last, bytes]) =>
    if ok : relpathOk rel = true then do
      match ← calls [.alloc] with
      | some _ => pure (some .einval, ld)
      | none =>
        match ← calls [.alloc, .alloc] with
        | some _ => pure (some .enomem, ld)
        | none =>
          let seg := ⟨⟨rel, ok⟩, first, last, bytes, 0⟩
          pure (none, { ld with wal := { ld.wal with segments := ld.wal.segments ++ [seg] } })
    else pure (some .einval, ld)
  | _ => pure (some .einval, ld)

/-- One turn of the loop over the lines. -/
def loadLine (line : Bytes) (ld : Loading) : Prog Call.Ans (Option Errno × Loading) :=
  if line = ascii "magic=VTM1" then pure (none, { ld with sawMagic := true })
  else if line = ascii "version=1" then pure (none, { ld with sawVersion := true })
  else if (ascii "generation=").isPrefixOf line then
    pure (none, { ld with wal := { ld.wal with generation := (strtoull 10 (line.drop 11)).1 } })
  else if (ascii "namespace=").isPrefixOf line then
    -- The value is cut to the 255 characters that fit into the buffer.
    if (line.drop 10).take 255 ≠ ld.wal.name.bytes then pure (some .einval, ld)
    else pure (none, { ld with sawNamespace := true })
  else if (ascii "root_id=").isPrefixOf line then pure (loadRootId (line.drop 8) ld)
  else if (ascii "created_unix_nsec=").isPrefixOf line then pure (none, ld)
  else if (ascii "last_sequence=").isPrefixOf line then
    pure (none, { ld with maxSeq := (strtoull 10 (line.drop 14)).1 })
  else if (ascii "checkpoint=").isPrefixOf line then loadCheckpoint (line.drop 11) ld
  else if (ascii "wal=").isPrefixOf line then loadSegment (line.drop 4) ld
  else if (ascii "x-").isPrefixOf line then pure (none, ld)
  else pure (some .einval, ld)

/-- The loop over the lines. -/
def loadLines : List Bytes → Loading → Prog Call.Ans (Option Errno × Loading)
  | [], ld => pure (none, ld)
  | line :: lines, ld => do
    match ← loadLine line ld with
    | (none, ld) => loadLines lines ld
    | (some e, ld) => pure (some e, ld)

/-- The check that the segments follow one another, and that only the last may be active. -/
def rangeOk : Nat → List Segment → Bool
  | _, [] => true
  | next, seg :: segs =>
    seg.firstSeq = next && !(seg.lastSeq ≠ 0 && seg.lastSeq < seg.firstSeq) && !(seg.lastSeq = 0 && segs ≠ []) &&
      (seg.lastSeq = 0 || (seg.lastSeq ≠ u64Max && rangeOk (seg.lastSeq + 1) segs))

/-- What `cachetag_wal_manifest_load_locked` does behind the lines. -/
def loadEnd (ld : Loading) : Prog Call.Ans (Option Errno × Log) :=
  let wal := ld.wal
  let rangeNext := if ld.sawCheckpoint then (wal.checkpoint.walSequence + 1) % 2 ^ 64 else 1
  if !ld.sawMagic || !ld.sawVersion || !ld.sawNamespace || !ld.sawRoot then pure (wal.failLocked .einval)
  else if ld.sawCheckpoint ∧ rangeNext = 0 then pure (wal.failLocked .einval)
  else if !rangeOk rangeNext wal.segments then pure (wal.failLocked .einval)
  else
    let noActive := wal.activeSegment = none
    let maxSeq := if noActive then max ld.maxSeq wal.checkpoint.walSequence else ld.maxSeq
    let next := (maxSeq + 1) % 2 ^ 64
    do
      match ← calls (if noActive then [.alloc] else []) with
      | some _ => pure (wal.failLocked .enomem)
      | none =>
        let segments := wal.segments ++ if noActive then [.new next] else []
        let wal := { wal with segments, nextSeq := next }
        match ← manifestOrphanGcLocked wal with
        | some e => pure (wal.failLocked e)
        | none => pure (none, wal)

/-- `cachetag_wal_manifest_load_locked`. Without a manifest the result is `ENODATA`. -/
def manifestLoadLocked (csum : Bytes → UInt64) (wal : Log) : Prog Call.Ans (Option Errno × Log) := do
  match ← calls [.alloc] with
  | some _ => pure (wal.failLocked .enomem)
  | none =>
    match ← readFile (ascii "manifest") with
    | .error e =>
      if e = .enoent ∨ e = .enotdir then
        match ← orphanFilesHaveRecords csum with
        | .error e => pure (wal.failLocked e)
        | .ok true => pure (wal.failLocked .eio)
        | .ok false => pure (some .enodata, wal)
      else pure (wal.failLocked e)
    | .ok file =>
      let buf := file.bytes.takeWhile (· ≠ 0)
      match strstr checksumMark buf with
      | none => pure (wal.failLocked .einval)
      | some bodyLen =>
        let body := buf.take bodyLen
        let tail := buf.drop bodyLen
        let (expected, rest) := strtoull 16 (tail.drop checksumMark.length)
        if body.getLast? ≠ some 10 then pure (wal.failLocked .einval)
        else if tail.length < checksumMark.length + 16 then pure (wal.failLocked .einval)
        else if rest ≠ tail.drop (checksumMark.length + 16) then pure (wal.failLocked .einval)
        else if (csum body).toNat ≠ expected then pure (wal.failLocked .einval)
        else
          let ld : Loading := ⟨{ wal with segments := [] }, 0, false, false, false, false, false⟩
          match ← loadLines (fields [10] body).dropLast ld with
          | (some e, ld) => pure (ld.wal.failLocked e)
          | (none, ld) => loadEnd ld

end Cachetag.Wal
