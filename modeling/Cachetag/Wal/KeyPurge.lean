import Cachetag.Purgemap.Cap
import Cachetag.Wal.Frame

/-! # The payloads of logged purges

`src/vmod_cachetag_index.c` logs a purge of one key in a record of 32 bytes, and one of several keys in a record with
their count. The decoders are what a replay takes the payloads through. -/

namespace Cachetag.KeyPurge
open Wal Purgemap

/-- `cachetag_le16enc` -/
def le16enc (v : Nat) : Bytes := LittleEndian.enc 2 v

/-- `cachetag_le16dec` -/
def le16dec (p : Bytes) : Nat := LittleEndian.dec (p.take 2)

/-- `UINT_MAX` -/
def uintMax : Nat := 2 ^ 32 - 1

/-- `TAG_REPLAY_KEY_PURGE` -/
def replayKeyPurge : UInt8 := 3

/-- `TAG_REPLAY_KEY_PURGE_BATCH` -/
def replayKeyPurgeBatch : UInt8 := 4

/-- A record as a replay is given it: its type and its payload. -/
structure Payload where
  type : UInt8
  bytes : Bytes
deriving DecidableEq, Repr

/-- The byte of a purge mode. -/
def modeByte : PurgeMode → UInt8
  | .hard => 1
  | .soft => 2

/-- The mode of a byte. -/
def byteMode (b : UInt8) : Option PurgeMode :=
  if b = 1 then some .hard else if b = 2 then some .soft else none

/-- The two halves of a digest. -/
def digestBytes (d : Digest) : Bytes := le64enc d.hi.toNat ++ le64enc d.lo.toNat

/-- The digest at the front of some bytes. -/
def digestAt (p : Bytes) : Digest := ⟨UInt64.ofNat (le64dec p), UInt64.ofNat (le64dec (p.drop 8))⟩

/-- The record of `cachetag_persist_key_purge_digest`. -/
def persistDigest (d : Digest) (mode : PurgeMode) (seq : Nat) : Payload :=
  ⟨replayKeyPurge, le16enc 2 ++ [modeByte mode, 0, 0, 0, 0, 0] ++ (digestBytes d ++ le64enc seq)⟩

/-- The record of `cachetag_persist_key_purge_batch`. -/
def persistBatch (ds : List Digest) (mode : PurgeMode) (seq : Nat) : Payload :=
  match ds with
  | [d] => persistDigest d mode seq
  | ds => ⟨replayKeyPurgeBatch, le16enc 1 ++ [modeByte mode, 0, 0, 0, 0, 0] ++
      (le64enc ds.length ++ (le64enc seq ++ ds.flatMap digestBytes))⟩

/-- `cachetag_decode_key_purge_record` -/
def decodeOne (p : Bytes) : Except Fault (Digest × PurgeMode × Nat) :=
  if p.length ≠ 32 ∨ le16dec p ≠ 2 then .error .einval
  else
    let seq := le64dec (p.drop 24)
    if seq = 0 ∨ seq = u64Max then .error .einval
    else
      match byteMode (p.getD 2 0) with
      | none => .error .einval
      | some mode => .ok (digestAt (p.drop 8), mode, seq)

/-- `cachetag_purge_key_compare` -/
def keyCompare (a b : Digest) : Int :=
  if a.hi ≠ b.hi then if a.hi < b.hi then -1 else 1
  else if a.lo ≠ b.lo then if a.lo < b.lo then -1 else 1
  else 0

/-- Two neighbours compare equal. -/
def repeats : List Digest → Bool
  | a :: b :: l => keyCompare a b == 0 || repeats (b :: l)
  | _ => false

/-- The keys of a batch record. -/
def readKeys : Nat → Bytes → List Digest
  | 0, _ => []
  | n + 1, p => digestAt p :: readKeys n (p.drop 16)

/-- `cachetag_decode_key_purge_batch_record`. `alloc`: the keys are allocated. -/
def decodeBatch (alloc : Bool) (p : Bytes) : Except Fault (List Digest × PurgeMode × Nat) :=
  if p.length < 24 ∨ le16dec p ≠ 1 then .error .einval
  else
    let nkeys := le64dec (p.drop 8)
    if nkeys < 2 ∨ nkeys > uintMax ∨ nkeys > (u64Max - 24) / 16 ∨ p.length ≠ 24 + nkeys * 16 then .error .einval
    else
      let seq := le64dec (p.drop 16)
      if seq = 0 ∨ seq = u64Max then .error .einval
      else
        match byteMode (p.getD 2 0) with
        | none => .error .einval
        | some mode =>
          if alloc then
            let keys := (readKeys nkeys (p.drop 24)).mergeSort fun a b => keyCompare a b ≤ 0
            if repeats keys then .error .einval else .ok (keys, mode, seq)
          else .error .enomem

/-- The decoder that a replay takes for a record. -/
def decode (alloc : Bool) (r : Payload) : Except Fault (List Digest × PurgeMode × Nat) :=
  if r.type = replayKeyPurgeBatch then decodeBatch alloc r.bytes
  else (decodeOne r.bytes).map fun (d, mode, seq) => ([d], mode, seq)

/-- `cachetag_purgemap_replay` -/
def replay (cfg : Purgemap.Config) (env : Env) (pm : Map) (r : Payload) : Except Fault Map :=
  if r.type = replayKeyPurgeBatch then
    match decodeBatch env.foldsAlloc r.bytes with
    | .error f => .error f
    | .ok (keys, mode, seq) => replayBatch cfg env pm keys mode seq
  else
    match decodeOne r.bytes with
    | .error f => .error f
    | .ok (d, mode, seq) => replayOne cfg env pm d mode seq

/-! ### Fields -/

section Fields
variable {p pre rest : Bytes} {d : Digest} {ds : List Digest} {mode : PurgeMode} {k n v seq : Nat} {alloc : Bool}

variable (rest) in
/-- A field behind `k` bytes. -/
theorem le64dec_field (hv : v ≤ u64Max) (hk : pre.length = k) : le64dec ((pre ++ (le64enc v ++ rest)).drop k) = v := by
  rw [List.drop_left' hk]
  exact le64dec_enc hv rest

/-- Eight bytes are the encoding of what they decode to. -/
theorem le64enc_dec (h : k + 8 ≤ p.length) : p.drop k = le64enc (le64dec (p.drop k)) ++ p.drop (k + 8) := by
  have hlen : ((p.drop k).take 8).length = 8 := by
    rw [List.length_take, List.length_drop]
    omega
  have henc := LittleEndian.enc_dec (l := (p.drop k).take 8)
  rw [hlen] at henc
  rw [le64enc, le64dec, henc, ← List.drop_drop, List.take_append_drop]

@[simp] theorem length_digestBytes : (digestBytes d).length = 16 := by
  rw [digestBytes, List.length_append, length_le64enc, length_le64enc]

theorem length_flatMap_digestBytes : (ds.flatMap digestBytes).length = ds.length * 16 := by
  simp [List.length_flatMap]

theorem toNat_le_u64Max (x : UInt64) : x.toNat ≤ u64Max := by
  have := x.toNat_lt
  unfold u64Max
  omega

theorem digestAt_bytes : digestAt (digestBytes d ++ rest) = d := by
  have hhi := le64dec_enc (toNat_le_u64Max d.hi) (le64enc d.lo.toNat ++ rest)
  have hlo := le64dec_field rest (toNat_le_u64Max d.lo) (length_le64enc d.hi.toNat)
  rw [digestAt, digestBytes, List.append_assoc, hhi, hlo, UInt64.ofNat_toNat, UInt64.ofNat_toNat]

theorem toNat_le64dec : (UInt64.ofNat (le64dec p)).toNat = le64dec p := by
  have := le64dec_le p
  rw [UInt64.toNat_ofNat']
  exact Nat.mod_eq_of_lt (by unfold u64Max at this; omega)

/-- Sixteen bytes are those of the digest at their place. -/
theorem digestBytes_at (h : k + 16 ≤ p.length) : p.drop k = digestBytes (digestAt (p.drop k)) ++ p.drop (k + 16) := by
  rw [digestBytes, digestAt, toNat_le64dec, toNat_le64dec, List.append_assoc, List.drop_drop,
    ← le64enc_dec (k := k + 8) (by omega), ← le64enc_dec (k := k) (by omega)]

theorem readKeys_bytes : readKeys ds.length (ds.flatMap digestBytes ++ rest) = ds := by
  induction ds with
  | nil => rfl
  | cons d ds ih =>
    rw [List.flatMap_cons, List.append_assoc, List.length_cons, readKeys, digestAt_bytes,
      List.drop_left' length_digestBytes, ih]

@[simp] theorem length_readKeys : (readKeys n p).length = n := by
  induction n generalizing p with
  | zero => rfl
  | succ n ih => rw [readKeys, List.length_cons, ih]

theorem readKeys_at (h : p.length = k + n * 16) : p.drop k = (readKeys n (p.drop k)).flatMap digestBytes := by
  induction n generalizing k with
  | zero => simp [readKeys, h]
  | succ n ih =>
    rw [readKeys, List.flatMap_cons, List.drop_drop, ← ih (by omega), ← digestBytes_at (by omega)]

/-- The version and the mode at the front of a payload. -/
theorem take_three (h : 3 ≤ p.length) : p.take 3 = le16enc (le16dec p) ++ [p.getD 2 0] := by
  have hlen : (p.take 2).length = 2 := by
    rw [List.length_take]
    omega
  have henc := LittleEndian.enc_dec (l := p.take 2)
  rw [hlen] at henc
  rw [le16enc, le16dec, henc, List.take_add_one, List.getD_eq_getElem?_getD, List.getElem?_eq_getElem (by omega)]
  rfl

theorem byteMode_modeByte : byteMode (modeByte mode) = some mode := by
  cases mode <;> rfl

theorem modeByte_byteMode {b : UInt8} (h : byteMode b = some mode) : b = modeByte mode := by
  unfold byteMode at h
  split_ifs at h with h1 h2
  · cases h
    exact h1
  · cases h
    exact h2

end Fields

/-! ### Distinct keys -/

section Keys
variable {a b : Digest} {l : List Digest}

/-- A digest as one number. -/
def rank (d : Digest) : Nat := d.hi.toNat * 2 ^ 64 + d.lo.toNat

theorem keyCompare_le : keyCompare a b ≤ 0 ↔ rank a ≤ rank b := by
  have ha := a.lo.toNat_lt
  have hb := b.lo.toNat_lt
  unfold keyCompare rank
  simp only [ne_eq, ← UInt64.toNat_inj, UInt64.lt_iff_toNat_lt]
  split_ifs <;> omega

theorem keyCompare_eq : keyCompare a b = 0 ↔ a = b := by
  unfold keyCompare
  rcases a with ⟨ah, al⟩
  rcases b with ⟨bh, bl⟩
  simp only [Digest.mk.injEq]
  split_ifs <;> simp_all

theorem rank_inj (h : rank a = rank b) : a = b := by
  have ha := a.lo.toNat_lt
  have hb := b.lo.toNat_lt
  rcases a with ⟨ah, al⟩
  rcases b with ⟨bh, bl⟩
  unfold rank at h
  rw [Digest.mk.injEq, ← UInt64.toNat_inj, ← UInt64.toNat_inj]
  dsimp only at *
  omega

/-- Behind the sort, keys are distinct just where no two neighbours are equal. -/
theorem repeats_sorted : repeats (l.mergeSort fun a b => keyCompare a b ≤ 0) = false ↔ l.Nodup := by
  have hsort : (l.mergeSort fun a b => keyCompare a b ≤ 0).Pairwise fun a b => rank a ≤ rank b := by
    have hpair : (l.mergeSort fun a b => keyCompare a b ≤ 0).Pairwise fun a b => decide (keyCompare a b ≤ 0) = true :=
      List.pairwise_mergeSort
        (fun a b c hab hbc => by simp only [decide_eq_true_eq, keyCompare_le] at *; omega)
        (fun a b => by simp only [Bool.or_eq_true, decide_eq_true_eq, keyCompare_le]; omega) l
    exact hpair.imp fun h => keyCompare_le.mp (of_decide_eq_true h)
  have hsorted : ∀ m : List Digest, m.Pairwise (fun a b => rank a ≤ rank b) → (repeats m = false ↔ m.Nodup) := by
    intro m
    induction m with
    | nil => simp [repeats]
    | cons a m ih =>
      intro hm
      obtain ⟨hle, hm⟩ := List.pairwise_cons.mp hm
      cases m with
      | nil => simp [repeats]
      | cons b m =>
        rw [repeats, Bool.or_eq_false_iff, ih hm, List.nodup_cons (a := a), beq_eq_false_iff_ne, ne_eq, keyCompare_eq]
        refine and_congr_left fun _ => ⟨fun hne hmem => ?_, fun hnot heq => hnot (heq ▸ List.mem_cons_self)⟩
        rcases List.mem_cons.mp hmem with heq | hmem
        · exact hne heq
        · have hab := hle b List.mem_cons_self
          have hba := (List.pairwise_cons.mp hm).1 a hmem
          exact hne (rank_inj (by omega))
  rw [hsorted _ hsort, (List.mergeSort_perm _ _).nodup_iff]

end Keys

/-! ### Encoders and decoders -/

/-- Two payloads that differ in the reserved bytes at most. -/
structure SameFields (p q : Bytes) : Prop where
  length : p.length = q.length
  kind : p.take 3 = q.take 3
  fields : p.drop 8 = q.drop 8

section Codec
variable {p : Bytes} {d : Digest} {ds keys : List Digest} {mode : PurgeMode} {seq : Nat} {alloc : Bool}

variable (d mode) in
/-- A single record is read back, but for the last sequence. -/
theorem decodeOne_persist (hpos : 0 < seq) (hmax : seq ≤ u64Max) :
    decodeOne (persistDigest d mode seq).bytes = if seq = u64Max then .error .einval else .ok (d, mode, seq) := by
  have hlen : (persistDigest d mode seq).bytes.length = 32 := by
    simp [persistDigest, le16enc, length_le64enc]
  have hkind : le16dec (persistDigest d mode seq).bytes = 2 := rfl
  have hdigest : digestAt ((persistDigest d mode seq).bytes.drop 8) = d := by
    rw [persistDigest, List.drop_left' (by rfl)]
    exact digestAt_bytes
  have hseq : le64dec ((persistDigest d mode seq).bytes.drop 24) = seq := by
    have hpre : (le16enc 2 ++ [modeByte mode, 0, 0, 0, 0, 0] ++ digestBytes d).length = 24 := by
      simp [le16enc]
    have hfield := le64dec_field [] hmax hpre
    rwa [List.append_nil, List.append_assoc] at hfield
  have hmode : (persistDigest d mode seq).bytes.getD 2 0 = modeByte mode := rfl
  rw [decodeOne, if_neg (by rw [hlen, hkind]; decide), hseq, hmode, byteMode_modeByte, hdigest]
  by_cases hlast : seq = u64Max
  · rw [if_pos hlast, if_pos (Or.inr hlast)]
  · rw [if_neg hlast, if_neg (not_or.mpr ⟨hpos.ne', hlast⟩)]

theorem persistBatch_of_two (htwo : 2 ≤ ds.length) : persistBatch ds mode seq =
    ⟨replayKeyPurgeBatch, le16enc 1 ++ [modeByte mode, 0, 0, 0, 0, 0] ++
      (le64enc ds.length ++ (le64enc seq ++ ds.flatMap digestBytes))⟩ := by
  rcases ds with _ | ⟨d, _ | ⟨e, ds⟩⟩
  · simp at htwo
  · simp at htwo
  · rfl

variable (mode) in
/-- And so is a batch record, up to the order of its keys. -/
theorem decodeBatch_persist (hpos : 0 < seq) (hmax : seq ≤ u64Max) (htwo : 2 ≤ ds.length) (hmany : ds.length ≤ uintMax)
    (hnd : ds.Nodup) : (persistBatch ds mode seq).type = replayKeyPurgeBatch ∧
    decodeBatch true (persistBatch ds mode seq).bytes = if seq = u64Max then .error .einval
      else .ok (ds.mergeSort fun a b => keyCompare a b ≤ 0, mode, seq) := by
  rw [persistBatch_of_two htwo]
  refine ⟨rfl, ?_⟩
  dsimp only
  generalize hp : le16enc 1 ++ [modeByte mode, 0, 0, 0, 0, 0] ++
      (le64enc ds.length ++ (le64enc seq ++ ds.flatMap digestBytes)) = p
  -- The fields of the payload, each at its offset.
  have hlen : p.length = 24 + ds.length * 16 := by
    rw [← hp]
    simp only [List.length_append, length_le64enc, length_flatMap_digestBytes, le16enc, LittleEndian.length_enc,
      List.length_cons, List.length_nil]
    omega
  have hkind : le16dec p = 1 := by
    rw [← hp]
    rfl
  have hmode : p.getD 2 0 = modeByte mode := by
    rw [← hp]
    rfl
  have hcount : le64dec (p.drop 8) = ds.length := by
    rw [← hp]
    exact le64dec_field _ (by unfold uintMax at hmany; unfold u64Max; omega) (by rfl)
  have hseq : le64dec (p.drop 16) = seq := by
    rw [← hp, ← List.append_assoc]
    exact le64dec_field _ hmax (by rfl)
  have hkeys : readKeys ds.length (p.drop 24) = ds := by
    have hdrop : p.drop 24 = ds.flatMap digestBytes ++ [] := by
      rw [← hp, ← List.append_assoc, ← List.append_assoc, List.drop_left' (by rfl), List.append_nil]
    rw [hdrop]
    exact readKeys_bytes
  have hbounds : ¬(ds.length < 2 ∨ ds.length > uintMax ∨ ds.length > (u64Max - 24) / 16 ∨
      p.length ≠ 24 + ds.length * 16) := by
    unfold uintMax at *
    unfold u64Max
    omega
  rw [decodeBatch, if_neg (by rw [hkind]; omega), hcount, hseq, hmode, byteMode_modeByte]
  dsimp only
  rw [hkeys, if_neg hbounds]
  -- The decoder has no use for the last sequence of all, which a purge may be given.
  by_cases hlast : seq = u64Max
  · rw [if_pos hlast, if_pos (Or.inr hlast)]
  · rw [if_neg hlast, if_neg (not_or.mpr ⟨hpos.ne', hlast⟩), if_pos rfl, repeats_sorted.mpr hnd]
    rfl

/-- What the decoder of single records takes is a record of the encoder, but for the reserved bytes. -/
theorem decodeOne_fields (h : decodeOne p = .ok (d, mode, seq)) :
    0 < seq ∧ seq < u64Max ∧ SameFields p (persistDigest d mode seq).bytes := by
  unfold decodeOne at h
  split at h
  · cases h
  rename_i hshape
  rw [not_or, not_not, not_not] at hshape
  obtain ⟨hlen, hkind⟩ := hshape
  dsimp only at h
  split at h
  · cases h
  rename_i hseq
  rw [not_or] at hseq
  have hmax := le64dec_le (p.drop 24)
  split at h
  · cases h
  rename_i mode' hmode
  cases h
  refine ⟨by omega, by omega, ?_, ?_, ?_⟩
  · simp [hlen, persistDigest, le16enc, length_le64enc]
  · rw [take_three (by omega), hkind, modeByte_byteMode hmode]
    rfl
  · have hdigest := digestBytes_at (p := p) (k := 8) (by omega)
    have hlast := le64enc_dec (p := p) (k := 24) (by omega)
    rw [List.drop_of_length_le (i := 32) (by omega), List.append_nil] at hlast
    rw [persistDigest, List.drop_left' (by rfl), ← hlast, ← hdigest]

/-- And the same holds of batch records. -/
theorem decodeBatch_fields (h : decodeBatch alloc p = .ok (keys, mode, seq)) :
    0 < seq ∧ seq < u64Max ∧ ∃ ds, ds.Perm keys ∧ ds.Nodup ∧ 2 ≤ ds.length ∧ ds.length ≤ uintMax ∧
      SameFields p (persistBatch ds mode seq).bytes := by
  unfold decodeBatch at h
  split at h
  · cases h
  rename_i hshape
  rw [not_or, not_not, Nat.not_lt] at hshape
  obtain ⟨hlen, hkind⟩ := hshape
  dsimp only at h
  split at h
  · cases h
  rename_i hcount
  simp only [not_or, not_not, Nat.not_lt] at hcount
  obtain ⟨htwo, hmany, -, hsize⟩ := hcount
  split at h
  · cases h
  rename_i hseq
  rw [not_or] at hseq
  have hmax := le64dec_le (p.drop 16)
  split at h
  · cases h
  rename_i mode' hmode
  split at h
  · split at h
    · cases h
    rename_i hrep
    cases h
    -- The keys as they stand in the payload are a batch that is written like it.
    have hlen' : (readKeys (le64dec (p.drop 8)) (p.drop 24)).length = le64dec (p.drop 8) := length_readKeys
    refine ⟨by omega, by omega, readKeys (le64dec (p.drop 8)) (p.drop 24), (List.mergeSort_perm _ _).symm,
      repeats_sorted.mp (Bool.not_eq_true _ ▸ hrep), by omega, by omega, ?_⟩
    rw [persistBatch_of_two (by omega)]
    refine ⟨?_, ?_, ?_⟩
    · simp only [List.length_append, length_le64enc, length_flatMap_digestBytes, le16enc, LittleEndian.length_enc,
        List.length_cons, List.length_nil, hlen']
      omega
    · rw [take_three (by omega), hkind, modeByte_byteMode hmode]
      rfl
    · have hcount := le64enc_dec (p := p) (k := 8) (by omega)
      have hlast := le64enc_dec (p := p) (k := 16) (by omega)
      have hkeys := readKeys_at (p := p) (k := 24) (n := le64dec (p.drop 8)) (by omega)
      rw [List.drop_left' (by rfl), hlen', ← hkeys, ← hlast, ← hcount]
  · cases h

end Codec

end Cachetag.KeyPurge
