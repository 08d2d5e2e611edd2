import Cachetag.Lib.Scan
import Cachetag.Purgemap.Refine

/-! The two tokenisers of `src/vmod_cachetag.c` that read tags from a header: `cachetag_parse_add` registers
them for the object being fetched, `cachetag_purge_header_tokens` purges them.

A C string is the list of its bytes, `none` is `NULL`. The digest of a key is a parameter: it hashes the
namespace with the key. -/

namespace Cachetag.Header
open Scan

/-- What a C string holds. -/
abbrev Bytes := List UInt8

/-- The part of `struct cachetag_limits` that the tokenisers read. -/
structure Limits where
  maxKeysPerObject : UInt32
  maxKeyLength : UInt32
  maxHeaderBytes : UInt32
deriving DecidableEq, Repr

/-- `TAG_INLINE_KEYS` -/
def inlineKeys : Nat := 4

/-! ### Tokens -/

/-- `isspace` of the C locale. -/
def isspace (b : UInt8) : Bool := b = 32 || 9 ≤ b && b ≤ 13

/-- `cachetag_trim` -/
def trim (s : Bytes) : Bytes := (s.dropWhile isspace).rdropWhile isspace

/-- `cachetag_has_embedded_ws_len` -/
def hasEmbeddedWs (s : Bytes) : Bool := s.any isspace

/-- The separator that both tokenisers go by. -/
def separator : Option Bytes → Bytes
  | none | some [] => [44]
  | some sep => sep

/-- What `cachetag_digest_snapshot_len` reports of a key that it does not hash. -/
inductive KeyFault where
  | einval
  | e2big
deriving DecidableEq, Repr

/-- `cachetag_digest_snapshot_len`, with the key in place. -/
def digestSnapshotLen (limits : Limits) (digest : Bytes → Digest) (key : Bytes) : Except KeyFault Digest :=
  if key.length = 0 then .error .einval
  else if limits.maxKeyLength.toNat < key.length then .error .e2big
  else .ok (digest key)

/-! ### Registration -/

/-- `struct cachetag_registration_snapshot` -/
structure Snapshot where
  digest : Digest
  regSeq : Nat
deriving DecidableEq, Repr

/-- `struct cachetag_pending`, as far as tags are added to it. No tag is in it twice. -/
structure Pending where
  keys : List Snapshot
  capkeys : Nat
  publicationHeld : Bool
  publicationSeq : Nat
  nodup : (keys.map (·.digest)).Nodup

/-- The tags of a registration. -/
def Pending.digests (tp : Pending) : List Digest := tp.keys.map (·.digest)

/-- `cachetag_pending_init_keys` -/
def Pending.init : Pending := ⟨[], inlineKeys, false, 0, List.nodup_nil⟩

/-- Why `add_header` fails the fetch. -/
inductive AddFault where
  | headerTooLarge
  | embeddedWs
  | warmup
  | backend
  | noPending
  | publication
  | invalidKey
  | keyTooLong
  | tooManyKeys
  | noMemory
deriving DecidableEq, Repr

/-- The fetch that registers tags: whether its object is private, its namespace warm, its persistence backend
    available, what `cachetag_get_pending` finds for it, and the sequence that `cachetag_publication_enter`
    would read. -/
structure Fetch where
  isPrivate : Bool
  warm : Bool
  prepared : Bool
  pending : Option Pending
  publication : Option Nat

/-- `cachetag_add_begin` -/
def addBegin (fetch : Fetch) : Except AddFault (Option Pending) :=
  if fetch.isPrivate then .ok none
  else if !fetch.warm then .error .warmup
  else if !fetch.prepared then .error .backend
  else
    match fetch.pending with
    | none => .error .noPending
    | some tp =>
      if tp.publicationHeld then .ok (some tp)
      else
        match fetch.publication with
        | none => .error .publication
        | some seq => .ok (some { tp with publicationHeld := true, publicationSeq := seq })

/-- The key that `cachetag_pending_add_unique` appends. -/
def Pending.copy (tp : Pending) (snap : Snapshot) : Snapshot :=
  match tp.keys with
  | [] => snap
  | key :: _ => { snap with regSeq := key.regSeq }

theorem Pending.copy_digest (tp : Pending) (snap : Snapshot) : (tp.copy snap).digest = snap.digest := by
  unfold copy
  split <;> rfl

/-- `cachetag_pending_add_unique`. `alloc` is whether an array of so many keys is allocated. -/
def pendingAddUnique (alloc : Nat → Bool) (tp : Pending) (snap : Snapshot) (maxKeys : Nat) : Except AddFault Pending :=
  if hmem : snap.digest ∈ tp.digests then .ok tp
  else if maxKeys ≤ tp.keys.length then .error .tooManyKeys
  else if tp.keys.length = tp.capkeys ∧ !alloc (tp.capkeys * 2) then .error .noMemory
  else .ok
    { tp with
      keys := tp.keys ++ [tp.copy snap]
      capkeys := if tp.keys.length = tp.capkeys then tp.capkeys * 2 else tp.capkeys
      nodup := by
        rw [List.map_append, List.map_singleton, Pending.copy_digest, List.nodup_append']
        exact ⟨tp.nodup, List.nodup_singleton _, List.disjoint_singleton.mpr hmem⟩ }

section Add
variable (limits : Limits) (digest : Bytes → Digest) (alloc : Nat → Bool)

/-- `cachetag_add_snapshot` -/
def addSnapshot (tp : Pending) (key : Bytes) : Except AddFault Pending :=
  match digestSnapshotLen limits digest key with
  | .error .einval => .error .invalidKey
  | .error .e2big => .error .keyTooLong
  | .ok d => pendingAddUnique alloc tp ⟨d, tp.publicationSeq⟩ limits.maxKeysPerObject.toNat

/-- The locals of `cachetag_parse_add` that live through its loop. -/
structure AddState where
  tp : Option Pending
  skip : Bool

/-- The end of a turn of that loop, once `cachetag_add_begin` has been called. -/
def addToken (st : AddState) (tok : Bytes) : AddState × Option AddFault :=
  match st.skip, st.tp with
  | false, some tp =>
    match addSnapshot limits digest alloc tp tok with
    | .error f => (st, some f)
    | .ok tp => ({ st with tp := some tp }, none)
  | _, _ => (st, none)

/-- A turn of the loop of `cachetag_parse_add`, at the field in front of the next separator. -/
def addField (fetch : Fetch) (st : AddState) (field : Bytes) : AddState × Option AddFault :=
  let tok := trim field
  if tok.length = 0 then (st, none)
  else if hasEmbeddedWs tok then (st, some .embeddedWs)
  else
    match st.tp, st.skip with
    | none, false =>
      match addBegin fetch with
      | .error f => (st, some f)
      | .ok none => addToken limits digest alloc { st with skip := true } tok
      | .ok (some tp) => addToken limits digest alloc { st with tp := some tp } tok
    | _, _ => addToken limits digest alloc st tok

/-- `cachetag_parse_add`: the registration that it leaves, if it has come to one, and why it fails, if it does.
    `none` when its loop takes more turns than it may. -/
def parseAdd (fuel : Nat) (fetch : Fetch) (header sep : Option Bytes) : Option (Option Pending × Option AddFault) :=
  match header with
  | none | some [] => some (none, none)
  | some header =>
    if limits.maxHeaderBytes.toNat < header.length then some (none, some .headerTooLarge)
    else (scan (addField limits digest alloc fetch) (separator sep) fuel header ⟨none, false⟩).map fun r => (r.1.tp, r.2)

end Add

/-! ### Purge -/

/-- Why `purge_header` rejects a header before it purges. -/
inductive PurgeFault where
  | headerTooLarge
  | embeddedWs
  | invalidKey
  | keyTooLong
  | noMemory
deriving DecidableEq, Repr

/-- What `cachetag_purge_header_tokens` does at last: nothing, as there is no tag, reject the header, or hand its
    tags to `cachetag_purge_batch`. -/
inductive HeaderPurge where
  | nothing
  | rejected (f : PurgeFault)
  | batch (keys : List Digest)
deriving DecidableEq, Repr

/-- `cachetag_purge_key_compare` -/
def purgeKeyCompare (ka kb : Digest) : Int :=
  if ka.hi ≠ kb.hi then if ka.hi < kb.hi then -1 else 1
  else if ka.lo ≠ kb.lo then if ka.lo < kb.lo then -1 else 1
  else 0

/-- `qsort` with that comparison. As only equal keys compare equal, it does not matter how it sorts. -/
def qsortKeys (keys : List Digest) : List Digest := keys.insertionSort fun ka kb => purgeKeyCompare ka kb ≤ 0

/-- The loop that keeps one of equal keys in a row. `last` is `keys[unique - 1]`. -/
def uniqueKeys (last : Option Digest) : List Digest → List Digest
  | [] => []
  | key :: keys => if last = some key then uniqueKeys last keys else key :: uniqueKeys (some key) keys

section Purge
variable (limits : Limits) (digest : Bytes → Digest) (alloc : Nat → Bool)

/-- The locals of the first loop of `cachetag_purge_header_tokens`. -/
structure TokenVector where
  tokens : List Bytes
  cap : Nat

/-- A turn of that loop, at the field in front of the next separator. -/
def purgeField (v : TokenVector) (field : Bytes) : TokenVector × Option PurgeFault :=
  let tok := trim field
  if tok.length = 0 then (v, none)
  else if hasEmbeddedWs tok then (v, some .embeddedWs)
  else if limits.maxKeyLength.toNat < tok.length then (v, some .keyTooLong)
  else if v.tokens.length = v.cap then
    if Purgemap.sizeMax / 2 / 16 < v.cap ∨ !alloc (2 * v.cap) then (v, some .noMemory)
    else (⟨v.tokens ++ [tok], v.cap * 2⟩, none)
  else (⟨v.tokens ++ [tok], v.cap⟩, none)

/-- Its second loop, which hashes the tokens. -/
def hashTokens : List Bytes → Except KeyFault (List Digest)
  | [] => .ok []
  | tok :: tokens =>
    match digestSnapshotLen limits digest tok with
    | .error f => .error f
    | .ok d => (hashTokens tokens).map fun ds => d :: ds

/-- The rest of `cachetag_purge_header_tokens`, behind its first loop. -/
def purgeTokens (tokens : List Bytes) : HeaderPurge :=
  if tokens.length = 0 then .nothing
  else if !alloc tokens.length then .rejected .noMemory
  else
    match hashTokens limits digest tokens with
    | .error .einval => .rejected .invalidKey
    | .error .e2big => .rejected .keyTooLong
    | .ok keys => .batch (uniqueKeys none (qsortKeys keys))

/-- `cachetag_purge_header_tokens`, up to its call of `cachetag_purge_batch`. `none` when its first loop takes
    more turns than it may. -/
def purgeHeaderTokens (fuel : Nat) (header sep : Option Bytes) : Option HeaderPurge :=
  match header with
  | none | some [] => some .nothing
  | some header =>
    if limits.maxHeaderBytes.toNat < header.length then some (.rejected .headerTooLarge)
    else if !alloc 64 then some (.rejected .noMemory)
    else
      (scan (purgeField limits alloc) (separator sep) fuel header ⟨[], 64⟩).map fun r =>
        match r with
        | (_, some f) => .rejected f
        | (v, none) => purgeTokens limits digest alloc v.tokens

end Purge
end Cachetag.Header
