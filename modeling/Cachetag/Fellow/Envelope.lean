import Cachetag.Lib.Buffer
import Cachetag.Purgemap.Life

/-! The envelope that Fellow keeps with an object: its bytes, and the visit that probes them, from
    `src/vmod_cachetag.c`.

An envelope has a record for each namespace that had tags for the object: the namespace's digest, the
sequence its tags were registered at, and their folds. A lone record with a lone fold has a layout of its own.
A visit reads the buffer field by field. `none` is a read outside the buffer, or a loop that does not end. -/

namespace Cachetag.Fellow
open Buffer LittleEndian Purgemap

/-- `CACHETAG_FELLOW_ENVELOPE_MAGIC` -/
def envelopeMagic : Nat := 0x47415443

/-- `CACHETAG_FELLOW_ENVELOPE_VERSION_V1` -/
def envelopeVersionV1 : Nat := 1

/-- `CACHETAG_FELLOW_ENVELOPE_VERSION_SINGLETON` -/
def envelopeVersionSingleton : Nat := 2

/-- `CACHETAG_FELLOW_ENVELOPE_HEADER_LEN` -/
def envelopeHeaderLen : Nat := 16

/-- `CACHETAG_FELLOW_RECORD_HEADER_LEN` -/
def recordHeaderLen : Nat := 32

/-- `CACHETAG_FELLOW_SINGLETON_LEN` -/
def singletonLen : Nat := 40

/-- `UINT16_MAX` -/
def u16Max : Nat := 2 ^ 16 - 1

/-- `UINT32_MAX` -/
def u32Max : Nat := 2 ^ 32 - 1

/-! ### The two layouts -/

/-- What one namespace has to say of an object. -/
structure Record where
  digest : Digest
  regSeq : UInt64
  folds : List UInt64
deriving DecidableEq, Repr

/-- `record_len` -/
def Record.len (r : Record) : Nat := recordHeaderLen + r.folds.length * 8

/-- A record of the general layout. -/
def Record.bytes (r : Record) : List UInt8 :=
  enc 4 r.len ++ (word r.digest.hi ++ (word r.digest.lo ++ (word r.regSeq ++
    (enc 2 r.folds.length ++ (enc 2 0 ++ words r.folds)))))

/-- The header of the general layout. -/
def header (total count : Nat) : List UInt8 :=
  enc 4 envelopeMagic ++ (enc 2 envelopeVersionV1 ++ (enc 2 0 ++ (enc 4 total ++ (enc 2 count ++ enc 2 0))))

/-- The length of a general envelope. -/
def generalLen (recs : List Record) : Nat := envelopeHeaderLen + (recs.map Record.len).sum

def general (recs : List Record) : List UInt8 :=
  header (generalLen recs) recs.length ++ recs.flatMap Record.bytes

/-- The layout of a lone record with a lone fold. -/
def compact (d : Digest) (regSeq fold : UInt64) : List UInt8 :=
  enc 4 envelopeMagic ++ (enc 2 envelopeVersionSingleton ++ (enc 2 0 ++
    (word d.hi ++ (word d.lo ++ (word regSeq ++ word fold)))))

/-- The records that an envelope can hold. -/
structure Layout (recs : List Record) : Prop where
  distinct : (recs.map (·.digest)).Nodup
  tagged : ∀ r ∈ recs, r.folds ≠ []
  few : ∀ r ∈ recs, r.folds.length ≤ u16Max
  count : recs.length ≤ u16Max
  fits : generalLen recs ≤ u32Max

/-- The bytes are an envelope of these records. -/
def Envelope (p : List UInt8) (recs : List Record) : Prop :=
  Layout recs ∧ (p = general recs ∨ ∃ d regSeq fold, recs = [⟨d, regSeq, [fold]⟩] ∧ p = compact d regSeq fold)

/-! ### The visit -/

/-- `struct cachetag_fellow_probe_ctx`, less the index -/
structure ProbeCtx where
  digest : Digest
  invalid : Bool
  found : Bool
  probe : ProbeResult
deriving DecidableEq, Repr

/-- The context that a probe for a namespace begins with. -/
def ProbeCtx.init (d : Digest) : ProbeCtx := ⟨d, false, false, .none⟩

/-- `pc->invalid = 1` -/
def ProbeCtx.reject (pc : ProbeCtx) : ProbeCtx := { pc with invalid := true }

/-- The two halves of a namespace digest. -/
def getDigest (b : List UInt8) (off : Nat) : Option Digest := do
  let hi ← getWord b off
  let lo ← getWord b (off + 8)
  some ⟨hi, lo⟩

/-- The loop of `cachetag_purgemap_probe_serialized`, with `nfolds` folds to go. -/
def probeSerializedLoop (tbl : Option Table) (regSeq : Nat) (b : List UInt8) : Nat → Nat → Bool → Option ProbeResult
  | _, 0, soft => some (if soft then .soft else .none)
  | off, nfolds + 1, soft => do
    let fold ← getWord b off
    match ← probeOne tbl regSeq fold.toNat with
    | .hard => some .hard
    | .soft => probeSerializedLoop tbl regSeq b (off + 8) nfolds true
    | .none => probeSerializedLoop tbl regSeq b (off + 8) nfolds soft

/-- `cachetag_purgemap_probe_serialized`, when nothing changes the map meanwhile. There is no map before
    the first purge. -/
def probeSerialized (pm : Option Map) (regSeq : UInt64) (b : List UInt8) (off nfolds : Nat) : Option ProbeResult :=
  match pm with
  | none => some .none
  | some pm =>
    if pm.nentry = 0 ∧ pm.hardFloor = 0 ∧ pm.softFloor = 0 then some .none
    else (probeSerializedLoop pm.table regSeq.toNat b off nfolds false).map fun tags =>
      withFloors tags pm.hardFloor pm.softFloor regSeq.toNat

/-- The scan for an earlier record of the same namespace. Each record before `off` is longer than nothing,
    so that as many turns as the buffer has bytes are enough. -/
def seenBefore (b : List UInt8) (d : Digest) (off : Nat) : Nat → Nat → Option Bool
  | 0, _ => none
  | fuel + 1, prev =>
    if prev < off then do
      let prevLen ← getLE b prev 4
      let digest ← getDigest b (prev + 4)
      if digest = d then some true else seenBefore b d off fuel (prev + prevLen)
    else some false

/-- The loop of `cachetag_fellow_envelope_visit_v1`, with `left` records to go. -/
def visitRecords (pm : Option Map) (b : List UInt8) : Nat → Nat → ProbeCtx → Option ProbeCtx
  | 0, off, pc => some (if off ≠ b.length then pc.reject else pc)
  | left + 1, off, pc =>
    if b.length < off ∨ b.length - off < recordHeaderLen then some pc.reject
    else do
      let recordLen ← getLE b off 4
      let nfolds ← getLE b (off + 28) 2
      let flags ← getLE b (off + 30) 2
      if recordLen < recordHeaderLen ∨ recordLen &&& 7 ≠ 0 ∨ nfolds = 0 ∨ flags ≠ 0 ∨
          recordLen ≠ recordHeaderLen + nfolds * 8 ∨ b.length - off < recordLen then some pc.reject
      else
        let digest ← getDigest b (off + 4)
        let seen ← seenBefore b digest off (b.length + 1) envelopeHeaderLen
        if seen then some pc.reject
        else if digest = pc.digest then
          let regSeq ← getWord b (off + 20)
          let probe ← probeSerialized pm regSeq b (off + recordHeaderLen) nfolds
          visitRecords pm b left (off + recordLen) { pc with found := true, probe }
        else visitRecords pm b left (off + recordLen) pc

/-- `cachetag_fellow_envelope_visit_v1` -/
def visitV1 (pm : Option Map) (b : List UInt8) (pc : ProbeCtx) : Option ProbeCtx :=
  if b.length < envelopeHeaderLen ∨ u32Max < b.length then some pc.reject
  else do
    let magic ← getLE b 0 4
    let version ← getLE b 4 2
    let flags ← getLE b 6 2
    let total ← getLE b 8 4
    let reserved ← getLE b 14 2
    if magic ≠ envelopeMagic ∨ version ≠ envelopeVersionV1 ∨ flags ≠ 0 ∨ total ≠ b.length ∨ reserved ≠ 0 then
      some pc.reject
    else
      let count ← getLE b 12 2
      visitRecords pm b count envelopeHeaderLen pc

/-- `cachetag_fellow_envelope_visit_singleton` -/
def visitSingleton (pm : Option Map) (b : List UInt8) (pc : ProbeCtx) : Option ProbeCtx :=
  if b.length ≠ singletonLen then some pc.reject
  else do
    let magic ← getLE b 0 4
    let version ← getLE b 4 2
    let flags ← getLE b 6 2
    if magic ≠ envelopeMagic ∨ version ≠ envelopeVersionSingleton ∨ flags ≠ 0 then some pc.reject
    else
      let digest ← getDigest b 8
      if digest = pc.digest then
        let regSeq ← getWord b 24
        let probe ← probeSerialized pm regSeq b 32 1
        some { pc with found := true, probe }
      else some pc

/-- `cachetag_fellow_envelope_visit` -/
def visit (pm : Option Map) (b : List UInt8) (pc : ProbeCtx) : Option ProbeCtx :=
  if b.length < 8 then some pc.reject
  else do
    let magic ← getLE b 0 4
    if magic ≠ envelopeMagic then some pc.reject
    else
      let version ← getLE b 4 2
      if version = envelopeVersionV1 then visitV1 pm b pc
      else if version = envelopeVersionSingleton then visitSingleton pm b pc
      else some pc.reject

/-- What Fellow's visit of an object's attribute comes to. -/
inductive AttrVisit where
  /-- no API, or the visit fails: -3, or any other error -/
  | failed
  /-- -2: not an object of Fellow's -/
  | otherStorage
  /-- -1: the object has no attribute -/
  | absent
  | bytes (b : List UInt8)
deriving DecidableEq, Repr

/-- `cachetag_fellow_attr_probe`: the mode, if the object is purged. -/
def attrProbe (pm : Option Map) (d : Digest) : AttrVisit → Option (Except Fault (Option PurgeMode))
  | .failed => some (.error .eio)
  | .otherStorage => some (.ok none)
  | .absent => some (.error .eio)
  | .bytes b =>
    (visit pm b (.init d)).map fun pc =>
      if pc.invalid then .error .einval
      else if pc.found = false ∨ pc.probe = .none then .ok none
      else .ok (some (if pc.probe = .hard then .hard else .soft))

/-- What `cachetag_stale` makes of that probe, for an object with neither a record nor a pending
    registration. -/
def directProbe (r : Except Fault (Option PurgeMode)) : ProbeResult :=
  match r with
  | .error _ => .hard
  | .ok (some .hard) => .hard
  | .ok (some .soft) => .soft
  | .ok none => .none

end Cachetag.Fellow
