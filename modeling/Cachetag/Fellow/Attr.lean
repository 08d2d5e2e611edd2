import Cachetag.Fellow.Canonical

/-! The provider of the attribute: the callbacks of `src/vmod_cachetag.c` that say how long it is and write it.

Both walk the list of namespaces. The first leaves in each pending registration the length of its record, which
the second finds there. An assertion that fails is `none`. -/

namespace Cachetag.Fellow
open Buffer LittleEndian Purgemap

/-- `struct cachetag_registration_snapshot` -/
structure Key where
  digest : Digest
  regSeq : UInt64
deriving DecidableEq, Repr

/-- The fold of a key. -/
def Key.fold (k : Key) : UInt64 := UInt64.ofNat (foldDigest k.digest).val

/-- `struct cachetag_pending`, as far as the attribute goes. -/
structure Pending where
  oc : Nat
  consumed : Bool
  keys : List Key
  /-- `fellow_attr_record_len` -/
  recordLen : Nat
  /-- `fellow_attr_included` -/
  included : Bool
deriving DecidableEq, Repr

/-- `tp->keys[0].reg_seq` -/
def Pending.regSeq (tp : Pending) : UInt64 := (tp.keys.head?.map Key.regSeq).getD 0

/-- `struct vmod_cachetag_namespace`, as far as the attribute goes. -/
structure Namespace where
  digest : Digest
  fellowDirectActive : Bool
  /-- `cachetag_persist_enabled` -/
  persist : Bool
  pending : List Pending
deriving DecidableEq, Repr

/-- What `cachetag_find_pending_locked` stops at. -/
def Pending.isFor (oc : Nat) (includeConsumed : Bool) (tp : Pending) : Bool :=
  tp.oc == oc && (includeConsumed || !tp.consumed)

/-- `cachetag_find_pending_locked` -/
def findPending (pending : List Pending) (oc : Nat) (includeConsumed : Bool) : Option Pending :=
  pending.find? (Pending.isFor oc includeConsumed)

/-- A write to what `cachetag_find_pending_locked` has found. -/
def writePending (oc : Nat) (includeConsumed : Bool) (f : Pending → Pending) : List Pending → List Pending
  | [] => []
  | tp :: tps =>
    if tp.isFor oc includeConsumed then f tp :: tps else tp :: writePending oc includeConsumed f tps

/-- The registration of a namespace that goes into the attribute of an object. -/
def Namespace.registered (oc : Nat) (ns : Namespace) : Option Pending :=
  if ns.fellowDirectActive ∧ ns.persist then (findPending ns.pending oc true).filter fun tp => tp.keys ≠ [] else none

def Namespace.write (oc : Nat) (f : Pending → Pending) (ns : Namespace) : Namespace :=
  { ns with pending := writePending oc true f ns.pending }

/-! ### The size -/

/-- The variables of `cachetag_fellow_attr_size_cb`; `count` is the length of `seen`. -/
structure Sizing where
  seen : List Digest
  total : Nat
  compactSingleton : Bool
deriving DecidableEq, Repr

/-- `record_len` of a registration. -/
def Pending.len (tp : Pending) : Nat := recordHeaderLen + tp.keys.length * 8

/-- The loop of `cachetag_fellow_attr_size_cb`. `alloc` says which turns get their `realloc`. -/
def sizeNamespaces (oc : Nat) (alloc : Nat → Bool) : List Namespace → Sizing → Except Fault Sizing × List Namespace
  | [], z => (.ok z, [])
  | ns :: nss, z =>
    match ns.registered oc with
    | none =>
      let (r, rest) := sizeNamespaces oc alloc nss z
      (r, ns :: rest)
    | some tp =>
      if ns.digest ∈ z.seen then (.error .einval, ns :: nss)
      else if tp.keys.any fun k => k.regSeq ≠ tp.regSeq then (.error .einval, ns :: nss)
      else if tp.keys.length > u16Max ∨ tp.keys.length > (Purgemap.sizeMax - recordHeaderLen) / 8 then
        (.error .eoverflow, ns :: nss)
      else if tp.len > u32Max ∨ z.total > u32Max - tp.len ∨ z.seen.length = u16Max then (.error .eoverflow, ns :: nss)
      else if !alloc z.seen.length then (.error .enomem, ns :: nss)
      else
        let (r, rest) := sizeNamespaces oc alloc nss
          ⟨z.seen ++ [ns.digest], z.total + tp.len, if z.seen = [] then tp.keys.length = 1 else false⟩
        (r, ns.write oc (fun tp => { tp with recordLen := tp.len, included := false }) :: rest)

/-- `cachetag_fellow_attr_size_cb`: the length, and the namespaces it leaves. -/
def attrSize (oc : Nat) (alloc : Nat → Bool) (nss : List Namespace) : Except Fault Nat × List Namespace :=
  let (r, rest) := sizeNamespaces oc alloc nss ⟨[], envelopeHeaderLen, false⟩
  (r.map fun z => if z.seen = [] then 0 else if z.compactSingleton then singletonLen else z.total, rest)

/-! ### The bytes -/

/-- The writing of the folds, with the assertion on their sequences. -/
def fillKeys (regSeq : UInt64) : List Key → Nat → List UInt8 → Option (List UInt8)
  | [], _, b => some b
  | k :: ks, off, b =>
    if k.regSeq = regSeq then do
      let b ← putWord b off k.fold
      fillKeys regSeq ks (off + 8) b
    else none

/-- The writes of one record. -/
def fillRecord (d : Digest) (tp : Pending) (written : Nat) (b : List UInt8) : Option (List UInt8) := do
  let b ← putLE b written 4 tp.len
  let b ← putWord b (written + 4) d.hi
  let b ← putWord b (written + 12) d.lo
  let b ← putWord b (written + 20) tp.regSeq
  let b ← putLE b (written + 28) 2 tp.keys.length
  fillKeys tp.regSeq tp.keys (written + 32) b

/-- The first loop of `cachetag_fellow_attr_fill_cb`: the buffer, `written`, `count` and the namespaces. -/
def fillNamespaces (oc len : Nat) :
    List Namespace → List UInt8 → Nat → Nat → Option (List UInt8 × Nat × Nat × List Namespace)
  | [], b, written, count => some (b, written, count, [])
  | ns :: nss, b, written, count =>
    match ns.registered oc with
    | none => do
      let (b, written, count, rest) ← fillNamespaces oc len nss b written count
      some (b, written, count, ns :: rest)
    | some tp =>
      if tp.recordLen = tp.len ∧ written ≤ len ∧ tp.len ≤ len - written then do
        let b ← fillRecord ns.digest tp written b
        let (b, written, count, rest) ← fillNamespaces oc len nss b (written + tp.len) (count + 1)
        some (b, written, count, ns.write oc (fun tp => { tp with included := true }) :: rest)
      else none

/-- The loop of `cachetag_fellow_attr_fill_singleton`. -/
def fillLone (oc : Nat) : List Namespace → List UInt8 → Nat → Option (List UInt8 × Nat × List Namespace)
  | [], b, count => some (b, count, [])
  | ns :: nss, b, count =>
    match ns.registered oc with
    | none => do
      let (b, count, rest) ← fillLone oc nss b count
      some (b, count, ns :: rest)
    | some tp =>
      match tp.keys with
      | [k] =>
        if count = 0 ∧ tp.recordLen = recordHeaderLen + 8 then do
          let b ← putWord b 8 ns.digest.hi
          let b ← putWord b 16 ns.digest.lo
          let b ← putWord b 24 k.regSeq
          let b ← putWord b 32 k.fold
          let (b, count, rest) ← fillLone oc nss b (count + 1)
          some (b, count, ns.write oc (fun tp => { tp with included := true }) :: rest)
        else none
      | _ => none

/-- `cachetag_fellow_attr_fill_singleton` -/
def attrFillSingleton (oc : Nat) (nss : List Namespace) : Option (List UInt8 × List Namespace) := do
  let b ← putLE (zeros singletonLen) 0 4 envelopeMagic
  let b ← putLE b 4 2 envelopeVersionSingleton
  let (b, count, rest) ← fillLone oc nss b 0
  if count = 1 then some (b, rest) else none

/-- `cachetag_fellow_attr_fill_cb` -/
def attrFill (oc len : Nat) (nss : List Namespace) : Option (List UInt8 × List Namespace) :=
  if len = singletonLen then attrFillSingleton oc nss
  else if envelopeHeaderLen ≤ len ∧ len ≤ u32Max then do
    let b ← putLE (zeros len) 0 4 envelopeMagic
    let b ← putLE b 4 2 envelopeVersionV1
    let b ← putLE b 8 4 len
    let (b, written, count, rest) ← fillNamespaces oc len nss b envelopeHeaderLen 0
    -- The second loop of the source counts the namespaces again, for the metrics.
    let attributed := rest.countP fun ns => (ns.registered oc).isSome
    if written = len ∧ 0 < count ∧ count ≤ u16Max ∧ attributed = count then do
      let b ← putLE b 12 2 count
      some (b, rest)
    else none
  else none

/-! ### The probe of a pending registration -/

/-- `TAG_INLINE_KEYS` -/
def inlineKeys : Nat := 4

/-- `cachetag_purgemap_probe_snapshots`. `alloc`: more folds than are inline get their array. -/
def probeSnapshots (alloc : Bool) (pm : Option Map) (keys : List Key) : Option (Except Fault (Option PurgeMode)) :=
  match keys, pm with
  | [], _ => some (.ok none)
  | _, none => some (.ok none)
  | k :: ks, some pm =>
    if ks.any fun k' => k'.regSeq ≠ k.regSeq then some (.error .einval)
    else if inlineKeys < (k :: ks).length ∧ alloc = false then some (.error .enomem)
    else
      (Purgemap.probe pm k.regSeq.toNat ((k :: ks).map fun k => (foldDigest k.digest).val)).map fun
        | .hard => .ok (some .hard)
        | .soft => .ok (some .soft)
        | .none => .ok none

end Cachetag.Fellow
