import Cachetag.Wal.Path

/-! `cachetag_wal_replay_segment` of `src/vmod_cachetag_wal.c`.

A closed segment is read whole. The active one, whose `last_seq` is 0, may end in what a crash left of a record:
each check of the loop tells the two apart for itself. `Oversized` is the one that does not. -/

namespace Cachetag.Wal
open Frames

/-- The values of `errno` that the log tells apart. -/
inductive Errno where
  | einval
  | eio
  | efbig
  | enomem
  | enoent
  | enotdir
  | ebusy
  | enodata
  | other (n : Nat)
deriving DecidableEq, Repr

/-- `struct cachetag_wal_segment` -/
structure Segment where
  relpath : Relpath
  firstSeq : Nat
  lastSeq : Nat
  bytes : Nat
  records : Nat
deriving DecidableEq

/-- `cachetag_wal_replay_f`, which changes `priv` and returns 0 or an error. -/
abbrev ReplayFn (σ : Type) := σ → Record → σ × Option Errno

/-- What a replay of a segment gets from the system. Reads are counted by the records before them. -/
structure ReplayEnv where
  /-- `cachetag_wal_relpath_to_path` gets its memory. -/
  path : Bool
  opened : Except Errno File
  readHeader : Nat → Option Errno
  readPayload : Nat → Option Errno
  malloc : Nat → Bool
  close : Option Errno

/-- A system in which every call succeeds on a file. -/
def ReplayEnv.quiet (file : File) : ReplayEnv := ⟨true, .ok file, fun _ => none, fun _ => none, fun _ => true, none⟩

/-- How far a replay has come: `*max_seqp`, `valid_records`, `valid_bytes` and what the callback made of `priv`. -/
structure Progress (σ : Type) where
  maxSeq : Nat
  records : Nat
  bytes : Nat
  priv : σ

/-- A read that comes short or fails with `EIO` is the end of an active segment. -/
def tolerated (active : Bool) (e : Errno) : Option Errno := if active ∧ e = .eio then none else some e

section
variable {σ : Type} (csum : Bytes → UInt64)

/-- The loop of `cachetag_wal_replay_segment`, with `rest` in front of it. -/
def replayLoop (env : ReplayEnv) (func : Option (ReplayFn σ)) (active : Bool) (rest : Bytes) (st : Progress σ) :
    Option Errno × Progress σ :=
  let hdr := rest.take headerLen
  match env.readHeader st.records with
  | some e => (tolerated active e, st)
  | none =>
    if hdr.length = 0 then (none, st)
    else if hdr.length ≠ headerLen then (tolerated active .eio, st)
    else if hdr.take 4 ≠ magic ∨ hdr[4]? ≠ some 1 then (if active then none else some .einval, st)
    else
      let payloadLen := le64dec (hdr.drop 16)
      if sizeMax - headerCsum < payloadLen then (some .efbig, st)
      else if 0 < payloadLen ∧ !env.malloc st.records then (some .enomem, st)
      else
        let payload := (rest.drop headerLen).take payloadLen
        match (if 0 < payloadLen then env.readPayload st.records else none) with
        | some e => (tolerated active e, st)
        | none =>
          if payload.length ≠ payloadLen then (tolerated active .eio, st)
          else if (recordChecksum csum hdr payload).toNat ≠ le64dec (hdr.drop headerCsum) then
            (if active then none else some .einval, st)
          else
            let rec' : Record := ⟨(hdr[5]?).getD 0, le64dec (hdr.drop 8), payload⟩
            if st.maxSeq = u64Max ∨ rec'.sequence ≠ st.maxSeq + 1 then (some .einval, st)
            else
              match (func.map fun f => f st.priv rec').getD (st.priv, none) with
              | (priv, some e) => (some e, { st with priv })
              | (priv, none) =>
                replayLoop env func active (rest.drop (headerLen + payloadLen))
                  ⟨max st.maxSeq rec'.sequence, st.records + 1, st.bytes + (headerLen + payloadLen), priv⟩
termination_by rest.length
decreasing_by
  rename_i _ hlen _ _ _ _ _ _
  have hlen := Classical.not_not.mp hlen
  rw [List.length_take] at hlen
  rw [List.length_drop]
  unfold headerLen at hlen ⊢
  omega

/-- `cachetag_wal_replay_segment`: the result, the segment, `*max_seqp` and `priv`. -/
def replaySegment (env : ReplayEnv) (func : Option (ReplayFn σ)) (seg : Segment) (maxSeq : Nat) (priv : σ) :
    Option Errno × Segment × Nat × σ :=
  if maxSeq = u64Max ∨ seg.firstSeq ≠ maxSeq + 1 then (some .einval, seg, maxSeq, priv)
  else if !env.path then (some .einval, seg, maxSeq, priv)
  else
    match env.opened with
    | .error e => (some e, seg, maxSeq, priv)
    | .ok file =>
      let (r, st) := replayLoop csum env func (seg.lastSeq = 0) file.bytes ⟨maxSeq, 0, 0, priv⟩
      let r := if r = none then env.close else r
      if seg.lastSeq = 0 then (r, { seg with records := st.records, bytes := st.bytes }, st.maxSeq, st.priv)
      else if r = none ∧ (seg.lastSeq ≠ st.maxSeq ∨ seg.bytes ≠ st.bytes) then (some .einval, seg, st.maxSeq, st.priv)
      else (r, seg, st.maxSeq, st.priv)

end

/-- A whole header that announces more than memory can hold. -/
def Oversized (rest : Bytes) : Prop :=
  let hdr := rest.take headerLen
  hdr.length = headerLen ∧ hdr.take 4 = magic ∧ hdr[4]? = some 1 ∧ sizeMax - headerCsum < le64dec (hdr.drop 16)

instance (rest : Bytes) : Decidable (Oversized rest) := by
  unfold Oversized
  infer_instance

/-- A frame that carries another number than `n`. -/
def Misnumbered (csum : Bytes → UInt64) (n : Nat) (rest : Bytes) : Prop :=
  ∃ b r, (frames csum).Frame b r ∧ b <+: rest ∧ r.sequence ≠ n

/-- A callback that takes every record. -/
def Accepting {σ : Type} (f : ReplayFn σ) : Prop := ∀ s r, (f s r).2 = none

section
variable {σ : Type} {csum : Bytes → UInt64} {file : File} {f : ReplayFn σ} {active : Bool} {hdr rest : Bytes} {r : Record}
  {st : Progress σ}

theorem take_header (h : IsHeader csum hdr r) (x : Bytes) : (hdr ++ x).take headerLen = hdr :=
  List.take_left' h.length

/-- At a frame the loop comes to the check of the number. -/
theorem replayLoop_header (h : IsHeader csum hdr r) (hfit : (hdr ++ (r.payload ++ rest)).length < 2 ^ 63)
    (hacc : Accepting f) :
    replayLoop csum (.quiet file) (some f) active (hdr ++ (r.payload ++ rest)) st =
      if st.maxSeq = u64Max ∨ r.sequence ≠ st.maxSeq + 1 then (some .einval, st)
      else
        replayLoop csum (.quiet file) (some f) active rest
          ⟨max st.maxSeq r.sequence, st.records + 1, st.bytes + (headerLen + r.payload.length), (f st.priv r).1⟩ := by
  have hsmall : ¬ sizeMax - headerCsum < r.payload.length := by
    rw [List.length_append, List.length_append] at hfit
    unfold sizeMax headerCsum
    omega
  have hpayload : ((hdr ++ (r.payload ++ rest)).drop headerLen).take r.payload.length = r.payload := by
    rw [List.drop_left' h.length, List.take_left' rfl]
  have hrest : (hdr ++ (r.payload ++ rest)).drop (headerLen + r.payload.length) = rest := by
    rw [← List.append_assoc, List.drop_left' (by rw [List.length_append, h.length])]
  have hrec : (⟨(hdr[5]?).getD 0, le64dec (hdr.drop 8), r.payload⟩ : Record) = r := by
    rw [h.type, h.sequence, Option.getD_some]
  rw [replayLoop, show (ReplayEnv.quiet file).readHeader st.records = none from rfl,
    show (ReplayEnv.quiet file).readPayload st.records = none from rfl]
  dsimp only
  rw [take_header h, h.payloadLen, hpayload, hrest, h.length, if_neg (by decide), if_neg (by decide),
    if_neg (by simp [h.magic, h.version]), if_neg hsmall, if_neg (by simp [ReplayEnv.quiet]), ite_self]
  dsimp only
  rw [if_neg (by simp), if_neg (by simp [h.checksum])]
  refine ite_congr (by rw [h.sequence]) (fun _ => rfl) fun _ => ?_
  have hf := hacc st.priv r
  rw [Option.map_some, Option.getD_some, hrec, h.sequence]
  cases hcall : f st.priv r with
  | mk priv e =>
    rw [hcall] at hf
    cases hf
    rfl

/-- It takes a frame with the next number and goes on behind it. -/
theorem replayLoop_frame (h : IsHeader csum hdr r) (hfit : (hdr ++ (r.payload ++ rest)).length < 2 ^ 63)
    (hacc : Accepting f) (hseq : r.sequence = st.maxSeq + 1) :
    replayLoop csum (.quiet file) (some f) active (hdr ++ (r.payload ++ rest)) st =
      replayLoop csum (.quiet file) (some f) active rest
        ⟨st.maxSeq + 1, st.records + 1, st.bytes + (hdr ++ r.payload).length, (f st.priv r).1⟩ := by
  have hle := h.sequence_le
  rw [replayLoop_header h hfit hacc, if_neg (by omega), List.length_append, h.length, hseq,
    Nat.max_eq_right (Nat.le_succ _)]

/-- It stops at a frame with another number. -/
theorem replayLoop_misnumbered (h : IsHeader csum hdr r) (hfit : (hdr ++ (r.payload ++ rest)).length < 2 ^ 63)
    (hacc : Accepting f) (hseq : r.sequence ≠ st.maxSeq + 1) :
    replayLoop csum (.quiet file) (some f) active (hdr ++ (r.payload ++ rest)) st = (some .einval, st) := by
  rw [replayLoop_header h hfit hacc, if_pos (.inr hseq)]

/-- It stops where no frame follows. -/
theorem replayLoop_stop (hfit : rest.length < 2 ^ 63) (hno : ∀ b r, (frames csum).Frame b r → ¬ b <+: rest) :
    ∃ e, replayLoop csum (.quiet file) (some f) active rest st = (e, st) ∧
      (e = none ↔ rest = [] ∨ active = true ∧ ¬ Oversized rest) := by
  rw [replayLoop, show (ReplayEnv.quiet file).readHeader st.records = none from rfl,
    show (ReplayEnv.quiet file).readPayload st.records = none from rfl]
  dsimp only
  by_cases hzero : (rest.take headerLen).length = 0
  · rw [if_pos hzero]
    have : rest = [] := by simpa [headerLen] using hzero
    exact ⟨none, rfl, by simp [this]⟩
  have hne : rest ≠ [] := by
    rintro rfl
    exact hzero rfl
  rw [if_neg hzero]
  by_cases hlen : (rest.take headerLen).length ≠ headerLen
  · rw [if_pos hlen]
    refine ⟨_, rfl, ?_⟩
    have : ¬ Oversized rest := fun h => hlen h.1
    simp [tolerated, hne, this]
  rw [if_neg hlen]
  have hlen := Classical.not_not.mp hlen
  by_cases hmagic : (rest.take headerLen).take 4 ≠ magic ∨ (rest.take headerLen)[4]? ≠ some 1
  · rw [if_pos hmagic]
    refine ⟨_, rfl, ?_⟩
    have : ¬ Oversized rest := fun h => hmagic.elim (fun hm => hm h.2.1) fun hv => hv h.2.2.1
    simp [hne, this]
  rw [if_neg hmagic]
  obtain ⟨hm, hv⟩ : (rest.take headerLen).take 4 = magic ∧ (rest.take headerLen)[4]? = some 1 := by
    simpa [not_or] using hmagic
  by_cases hbig : sizeMax - headerCsum < le64dec ((rest.take headerLen).drop 16)
  · rw [if_pos hbig]
    refine ⟨_, rfl, ?_⟩
    have : Oversized rest := ⟨hlen, hm, hv, hbig⟩
    simp [hne, this]
  have hover : ¬ Oversized rest := fun h => hbig h.2.2.2
  rw [if_neg hbig, if_neg (by simp [ReplayEnv.quiet]), ite_self]
  dsimp only
  by_cases hpay : ((rest.drop headerLen).take (le64dec ((rest.take headerLen).drop 16))).length ≠
      le64dec ((rest.take headerLen).drop 16)
  · rw [if_pos hpay]
    exact ⟨_, rfl, by simp [tolerated, hne, hover]⟩
  rw [if_neg hpay]
  have hpay := Classical.not_not.mp hpay
  by_cases hsum : (recordChecksum csum (rest.take headerLen)
      ((rest.drop headerLen).take (le64dec ((rest.take headerLen).drop 16)))).toNat ≠
      le64dec ((rest.take headerLen).drop headerCsum)
  · rw [if_pos hsum]
    exact ⟨_, rfl, by simp [hne, hover]⟩
  -- Every check passed, so there is a frame.
  have hfive : (rest.take headerLen)[5]? = some ((rest.take headerLen)[5]?.getD 0) := by
    rw [List.getElem?_eq_getElem (by rw [hlen]; decide), Option.getD_some]
  refine absurd ?_ (hno _ ⟨(rest.take headerLen)[5]?.getD 0, le64dec ((rest.take headerLen).drop 8),
    (rest.drop headerLen).take (le64dec ((rest.take headerLen).drop 16))⟩
    ⟨rest.take headerLen, ⟨hlen, hm, hv, hfive, rfl, hpay.symm, (Classical.not_not.mp hsum).symm⟩, rfl⟩)
  exact ⟨(rest.drop headerLen).drop (le64dec ((rest.take headerLen).drop 16)), by
    rw [List.append_assoc, List.take_append_drop, List.take_append_drop]⟩

/-- The records of a chain are delivered in order, and counted with their bytes. -/
theorem replayLoop_chain {rs : List Record} {p : Bytes} (hc : Chain (frames csum) (st.maxSeq + 1) rs p)
    (hfit : (p ++ rest).length < 2 ^ 63) (hacc : Accepting f) :
    replayLoop csum (.quiet file) (some f) active (p ++ rest) st =
      replayLoop csum (.quiet file) (some f) active rest
        ⟨st.maxSeq + rs.length, st.records + rs.length, st.bytes + p.length,
          rs.foldl (fun s r => (f s r).1) st.priv⟩ := by
  generalize hn : st.maxSeq + 1 = n at hc
  induction hc generalizing st with
  | nil => rfl
  | @cons n b r rs p hb hr _ ih =>
    obtain ⟨hdr, h, rfl⟩ := hb
    rw [List.append_assoc, List.append_assoc] at hfit ⊢
    have hfit' : (p ++ rest).length < 2 ^ 63 := by
      simp only [List.length_append] at hfit ⊢
      omega
    rw [replayLoop_frame h hfit hacc (hr.trans hn.symm), ih hfit' (by dsimp only; omega)]
    dsimp only
    simp only [List.length_cons, List.length_append, List.foldl_cons, Nat.add_assoc, Nat.add_comm 1]

/-- What the loop does on a whole file. -/
theorem replayLoop_longest {rs : List Record} {p : Bytes} (hfit : (p ++ rest).length < 2 ^ 63) (hacc : Accepting f)
    (hlong : Longest (frames csum) (st.maxSeq + 1) (p ++ rest) rs p) :
    ∃ e, replayLoop csum (.quiet file) (some f) active (p ++ rest) st =
        (e, ⟨st.maxSeq + rs.length, st.records + rs.length, st.bytes + p.length,
          rs.foldl (fun s r => (f s r).1) st.priv⟩) ∧
      (e = none ↔ rest = [] ∨
        active = true ∧ ¬ Oversized rest ∧ ¬ Misnumbered csum (st.maxSeq + 1 + rs.length) rest) := by
  obtain ⟨hc, x, hx, hno⟩ := longest_iff.mp hlong
  cases List.append_cancel_left hx
  have hfit' : rest.length < 2 ^ 63 := by
    rw [List.length_append] at hfit
    omega
  rw [replayLoop_chain hc hfit hacc]
  by_cases hframe : ∃ b r, (frames csum).Frame b r ∧ b <+: rest
  · obtain ⟨b, r, hb, hpre⟩ := hframe
    have hmis : Misnumbered csum (st.maxSeq + 1 + rs.length) rest := ⟨b, r, hb, hpre, fun hr => hno b r hb hr hpre⟩
    have hseq : r.sequence ≠ st.maxSeq + rs.length + 1 := fun hr => hno b r hb (hr.trans (by omega)) hpre
    have hne : rest ≠ [] := by
      rintro rfl
      exact (frames csum).nonempty hb (List.prefix_nil.mp hpre)
    obtain ⟨hdr, h, rfl⟩ := hb
    obtain ⟨y, rfl⟩ := hpre
    rw [List.append_assoc] at hfit' ⊢
    rw [replayLoop_misnumbered h hfit' hacc hseq]
    rw [List.append_assoc] at hmis hne
    exact ⟨_, rfl, by simp only [hne, hmis]; simp⟩
  · push Not at hframe
    obtain ⟨e, he, hiff⟩ := @replayLoop_stop _ _ file f active _
      ⟨st.maxSeq + rs.length, st.records + rs.length, st.bytes + p.length, rs.foldl (fun s r => (f s r).1) st.priv⟩
      hfit' hframe
    have hmis : ¬ Misnumbered csum (st.maxSeq + 1 + rs.length) rest := by
      rintro ⟨b, r, hb, hpre, -⟩
      exact hframe b r hb hpre
    exact ⟨e, he, by rw [hiff]; simp only [hmis]; simp⟩

theorem not_oversized_nil : ¬ Oversized [] := by decide

theorem not_misnumbered_nil (n : Nat) : ¬ Misnumbered csum n [] := by
  rintro ⟨b, r, hb, hpre, -⟩
  exact (frames csum).nonempty hb (List.prefix_nil.mp hpre)

variable {seg : Segment} {rs : List Record} {p : Bytes} {maxSeq : Nat} {priv : σ}

/-- A closed segment is taken if and only if it is a chain to its end, and the one that the manifest describes. -/
theorem replaySegment_closed (hmax : maxSeq < u64Max) (hfirst : seg.firstSeq = maxSeq + 1) (hacc : Accepting f)
    (hlong : Longest (frames csum) seg.firstSeq file.bytes rs p) (hclosed : seg.lastSeq ≠ 0) :
    ∃ e, replaySegment csum (.quiet file) (some f) seg maxSeq priv =
        (e, seg, maxSeq + rs.length, rs.foldl (fun s r => (f s r).1) priv) ∧
      (e = none ↔ p = file.bytes ∧ seg.lastSeq = maxSeq + rs.length ∧ seg.bytes = p.length) := by
  obtain ⟨x, hx⟩ := hlong.2.1
  rw [hfirst, ← hx] at hlong
  obtain ⟨e, he, hiff⟩ := @replayLoop_longest _ _ file _ false _
    (⟨maxSeq, 0, 0, priv⟩ : Progress σ) _ _ (hx ▸ file.fits) hacc hlong
  have hend : p = file.bytes ↔ x = [] := by rw [← hx, List.self_eq_append_right]
  have hnone : e = none ↔ x = [] := hiff.trans (by simp)
  rw [hx] at he
  rw [replaySegment, if_neg (by omega), if_neg (by simp [ReplayEnv.quiet]), show (ReplayEnv.quiet file).opened = .ok file from rfl]
  dsimp only
  rw [decide_eq_false hclosed, he, if_neg hclosed, hend]
  dsimp only
  rw [show (ReplayEnv.quiet file).close = none from rfl, Nat.zero_add p.length]
  by_cases hxe : x = []
  · rw [if_pos (hnone.mpr hxe)]
    by_cases hbad : seg.lastSeq ≠ maxSeq + rs.length ∨ seg.bytes ≠ p.length
    · rw [if_pos ⟨rfl, hbad⟩]
      refine ⟨_, rfl, ?_⟩
      simp only [reduceCtorEq, false_iff]
      tauto
    · rw [if_neg fun h => hbad h.2]
      exact ⟨_, rfl, by simp only [true_iff]; tauto⟩
  · have hne : e ≠ none := fun h => hxe (hnone.mp h)
    rw [if_neg hne, if_neg fun h => hne h.1]
    exact ⟨_, rfl, by simp only [hne, hxe, false_and]⟩

/-- The active segment is counted anew, and refused for two kinds of tails. -/
theorem replaySegment_active (hmax : maxSeq < u64Max) (hfirst : seg.firstSeq = maxSeq + 1) (hacc : Accepting f)
    (hlong : Longest (frames csum) seg.firstSeq file.bytes rs p) (hactive : seg.lastSeq = 0) :
    ∃ e, replaySegment csum (.quiet file) (some f) seg maxSeq priv =
        (e, { seg with records := rs.length, bytes := p.length }, maxSeq + rs.length,
          rs.foldl (fun s r => (f s r).1) priv) ∧
      (e = none ↔ ¬ Oversized (file.bytes.drop p.length) ∧
        ¬ Misnumbered csum (seg.firstSeq + rs.length) (file.bytes.drop p.length)) := by
  obtain ⟨x, hx⟩ := hlong.2.1
  rw [hfirst, ← hx] at hlong
  obtain ⟨e, he, hiff⟩ := @replayLoop_longest _ _ file _ true _
    (⟨maxSeq, 0, 0, priv⟩ : Progress σ) _ _ (hx ▸ file.fits) hacc hlong
  have htail : file.bytes.drop p.length = x := by rw [← hx, List.drop_left]
  rw [hx] at he
  rw [replaySegment, if_neg (by omega), if_neg (by simp [ReplayEnv.quiet]), show (ReplayEnv.quiet file).opened = .ok file from rfl]
  dsimp only
  rw [decide_eq_true hactive, he, if_pos hactive, htail, hfirst]
  dsimp only
  rw [Nat.zero_add, Nat.zero_add, show (ReplayEnv.quiet file).close = none from rfl]
  refine ⟨_, rfl, ?_⟩
  have hsame : (if e = none then none else e) = e := by
    cases e <;> rfl
  rw [hsame, hiff]
  constructor
  · rintro (rfl | h)
    · exact ⟨not_oversized_nil, not_misnumbered_nil _⟩
    · exact h.2
  · exact fun h => .inr ⟨rfl, h⟩

end
end Cachetag.Wal
