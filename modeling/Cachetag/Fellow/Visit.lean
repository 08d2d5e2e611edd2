import Cachetag.Fellow.Envelope

/-! What a visit of an envelope makes of any bytes: it ends, without a read outside them, and it accepts
    the envelopes of some list of records and no other bytes. -/

namespace Cachetag
open Buffer LittleEndian

namespace Fellow
open Purgemap

/-! ### Fields -/

section Fields
variable {b rest : List UInt8} {off : Nat} {d : Digest} {r : Record} {recs : List Record} {l : List UInt64}
  {tbl : Option Table} {pm : Option Map} {regSeq : Nat} {soft : Bool}

theorem getDigest_of_drop (h : b.drop off = word d.hi ++ (word d.lo ++ rest)) :
    getDigest b off = some d ∧ b.drop (off + 16) = rest := by
  have hlo := drop_word h
  refine ⟨?_, drop_word hlo⟩
  rw [getDigest, getWord_of_drop h, getWord_of_drop hlo]
  rfl

theorem exists_getDigest (h : off + 16 ≤ b.length) :
    ∃ d, getDigest b off = some d ∧ b.drop off = word d.hi ++ (word d.lo ++ b.drop (off + 16)) := by
  obtain ⟨hi, hhi⟩ : ∃ v, getWord b off = some v := exists_getWord (by omega)
  obtain ⟨lo, hlo⟩ : ∃ v, getWord b (off + 8) = some v := exists_getWord (by omega)
  have hdrop : b.drop off = word hi ++ (word lo ++ b.drop (off + 16)) := by
    rw [drop_of_getWord hhi, drop_of_getWord hlo]
  exact ⟨⟨hi, lo⟩, (getDigest_of_drop (d := ⟨hi, lo⟩) hdrop).1, hdrop⟩

/-- What the fields of a record read. -/
structure Record.At (b : List UInt8) (off : Nat) (r : Record) (rest : List UInt8) : Prop where
  len : getLE b off 4 = some r.len
  digest : getDigest b (off + 4) = some r.digest
  regSeq : getWord b (off + 20) = some r.regSeq
  nfolds : getLE b (off + 28) 2 = some r.folds.length
  flags : getLE b (off + 30) 2 = some 0
  folds : b.drop (off + 32) = words r.folds ++ rest

theorem Record.len_le (hfew : r.folds.length ≤ u16Max) : r.len < 256 ^ 4 := by
  unfold Record.len recordHeaderLen
  unfold u16Max at hfew
  omega

theorem Record.at_of_drop (h : b.drop off = r.bytes ++ rest) (hfew : r.folds.length ≤ u16Max) : r.At b off rest := by
  have hn : r.folds.length < 256 ^ 2 := by
    unfold u16Max at hfew
    omega
  simp only [Record.bytes, List.append_assoc] at h
  have h4 := drop_field h
  obtain ⟨hdigest, h20⟩ := getDigest_of_drop h4
  have h28 := drop_word h20
  have h30 := drop_field h28
  have h32 := drop_field h30
  exact {
    len := getLE_of_drop h (by decide) (Record.len_le hfew)
    digest := hdigest
    regSeq := getWord_of_drop h20
    nfolds := getLE_of_drop h28 (by decide) hn
    flags := getLE_of_drop h30 (by decide) (by decide)
    folds := h32 }

theorem Record.length_bytes : r.bytes.length = r.len := by
  simp only [Record.bytes, List.length_append, length_enc, length_word, length_words, Record.len, recordHeaderLen]
  omega

theorem length_records : (recs.flatMap Record.bytes).length = (recs.map Record.len).sum := by
  induction recs with
  | nil => rfl
  | cons r recs ih => rw [List.flatMap_cons, List.length_append, ih, Record.length_bytes, List.map_cons, List.sum_cons]

/-- Bytes that pass for a record are one. -/
theorem Record.of_fields {n : Nat} (hlen : getLE b off 4 = some (recordHeaderLen + n * 8)) (hn : getLE b (off + 28) 2 = some n)
    (hflags : getLE b (off + 30) 2 = some 0) (hfits : off + (recordHeaderLen + n * 8) ≤ b.length) :
    ∃ r : Record, r.folds.length = n ∧ b.drop off = r.bytes ++ b.drop (off + r.len) := by
  unfold recordHeaderLen at hlen hfits
  obtain ⟨d, -, hd⟩ : ∃ d, getDigest b (off + 4) = some d ∧ _ := exists_getDigest (by omega)
  obtain ⟨regSeq, hreg⟩ : ∃ v, getWord b (off + 20) = some v := exists_getWord (by omega)
  obtain ⟨folds, rfl, hfolds⟩ : ∃ l : List UInt64, l.length = n ∧ b.drop (off + 32) = _ := exists_words (by omega)
  refine ⟨⟨d, regSeq, folds⟩, rfl, ?_⟩
  rw [(drop_of_getLE hlen).2, hd, drop_of_getWord hreg, (drop_of_getLE hn).2, (drop_of_getLE hflags).2, hfolds]
  simp only [Record.bytes, Record.len, recordHeaderLen, List.append_assoc, Nat.add_assoc]

theorem probeSerializedLoop_eq (h : b.drop off = words l ++ rest) :
    probeSerializedLoop tbl regSeq b off l.length soft = probeFolds tbl regSeq (l.map UInt64.toNat) soft := by
  induction l generalizing off soft with
  | nil => rfl
  | cons v l ih =>
    rw [words_cons, List.append_assoc] at h
    rw [List.length_cons, probeSerializedLoop, getWord_of_drop h, Option.bind_eq_bind, Option.bind_some, List.map_cons,
      probeFolds]
    cases probeOne tbl regSeq v.toNat with
    | none => rfl
    | some one =>
      cases one with
      | none => exact ih (drop_word h)
      | hard => rfl
      | soft => exact ih (drop_word h)

end Fields

/-! ### One record -/

/-- The verdict on a record. -/
def Record.probe (pm : Option Map) (r : Record) : Option ProbeResult :=
  match pm with
  | none => some .none
  | some pm => Purgemap.probe pm r.regSeq.toNat (r.folds.map UInt64.toNat)

/-- What a visit does with a record that it accepts. -/
def ProbeCtx.take (pm : Option Map) (pc : ProbeCtx) (r : Record) : Option ProbeCtx :=
  if r.digest = pc.digest then (r.probe pm).map fun probe => { pc with found := true, probe } else some pc

/-- A record that an envelope can hold. -/
structure Record.Fine (r : Record) : Prop where
  tagged : r.folds ≠ []
  few : r.folds.length ≤ u16Max

/-- The records that a visit has behind it. -/
structure Parsed (b : List UInt8) (recs : List Record) (off : Nat) : Prop where
  ends : off = envelopeHeaderLen + (recs.map Record.len).sum
  bytes : b.drop envelopeHeaderLen = recs.flatMap Record.bytes ++ b.drop off
  fine : ∀ r ∈ recs, r.Fine
  distinct : (recs.map (·.digest)).Nodup

section Turn
variable {b rest : List UInt8} {off left fuel prev : Nat} {d : Digest} {r : Record} {recs more : List Record}
  {pm : Option Map} {pc : ProbeCtx}

theorem Record.probe_eq (h : b.drop off = words r.folds ++ rest) :
    probeSerialized pm r.regSeq b off r.folds.length = r.probe pm := by
  cases pm with
  | none => rfl
  | some pm => rw [probeSerialized, probeSerializedLoop_eq h, Record.probe, Purgemap.probe]

/-- The scan finds the namespaces of the records before it. -/
theorem seenBefore_eq (hfine : ∀ r ∈ recs, r.Fine) (hdrop : b.drop prev = recs.flatMap Record.bytes ++ rest)
    (hoff : off = prev + (recs.map Record.len).sum) (hfuel : recs.length < fuel) :
    seenBefore b d off fuel prev = some (decide (d ∈ recs.map (·.digest))) := by
  induction recs generalizing prev fuel with
  | nil =>
    obtain ⟨fuel, rfl⟩ := Nat.exists_eq_succ_of_ne_zero (Nat.ne_zero_of_lt hfuel)
    simp only [List.map_nil, List.sum_nil, Nat.add_zero] at hoff
    rw [seenBefore, if_neg (by omega)]
    rfl
  | cons r recs ih =>
    obtain ⟨fuel, rfl⟩ := Nat.exists_eq_succ_of_ne_zero (Nat.ne_zero_of_lt hfuel)
    rw [List.flatMap_cons, List.append_assoc] at hdrop
    have hat := Record.at_of_drop hdrop (hfine r List.mem_cons_self).few
    have hnext : b.drop (prev + r.len) = recs.flatMap Record.bytes ++ rest := by
      rw [← List.drop_drop, hdrop, List.drop_left' Record.length_bytes]
    have hpos : 0 < r.len := Nat.lt_of_lt_of_le (by decide) (Nat.le_add_right recordHeaderLen _)
    rw [List.map_cons, List.sum_cons] at hoff
    rw [seenBefore, if_pos (by omega), hat.len, hat.digest]
    simp only [Option.bind_eq_bind, Option.bind_some]
    by_cases hd : r.digest = d
    · rw [if_pos hd]
      simp [hd]
    · rw [if_neg hd, ih (fun r hr => hfine r (List.mem_cons_of_mem _ hr)) hnext (by omega) (Nat.lt_of_succ_lt_succ hfuel)]
      simp [Ne.symm hd]

theorem length_le_records : recs.length ≤ (recs.map Record.len).sum := by
  induction recs with
  | nil => exact Nat.le_refl _
  | cons r recs ih =>
    rw [List.length_cons, List.map_cons, List.sum_cons]
    have hpos : 32 ≤ r.len := Nat.le_add_right recordHeaderLen _
    omega

theorem Parsed.length_le (h : Parsed b recs off) : recs.length ≤ b.length := by
  have hlen := congrArg List.length h.bytes
  rw [List.length_drop, List.length_append, length_records] at hlen
  have hle : recs.length ≤ (recs.map Record.len).sum := length_le_records
  omega

theorem Parsed.next (h : Parsed b recs off) (hfine : r.Fine) (hdrop : b.drop off = r.bytes ++ b.drop (off + r.len))
    (hnew : r.digest ∉ recs.map (·.digest)) : Parsed b (recs ++ [r]) (off + r.len) where
  ends := by
    rw [h.ends, List.map_append, List.sum_append, List.map_singleton, List.sum_singleton, Nat.add_assoc]
  bytes := by
    rw [h.bytes, hdrop, List.flatMap_append, List.flatMap_singleton, List.append_assoc]
  fine := by
    intro x hx
    rcases List.mem_append.mp hx with hx | hx
    · exact h.fine x hx
    · rw [List.mem_singleton.mp hx]
      exact hfine
  distinct := by
    rw [List.map_append, List.map_singleton, List.nodup_append]
    refine ⟨h.distinct, List.nodup_singleton _, fun x hx y hy => ?_⟩
    rw [List.mem_singleton.mp hy]
    exact fun heq => hnew (heq ▸ hx)

/-- A record at the offset is taken, unless its namespace had one before. -/
theorem visitRecords_record (h : Parsed b recs off) (hfine : r.Fine) (hdrop : b.drop off = r.bytes ++ b.drop (off + r.len))
    (hfits : off + r.len ≤ b.length) :
    visitRecords pm b (left + 1) off pc =
      if r.digest ∈ recs.map (·.digest) then some pc.reject
      else (pc.take pm r).bind (visitRecords pm b left (off + r.len)) := by
  have hat := Record.at_of_drop hdrop hfine.few
  have hseen : seenBefore b r.digest off (b.length + 1) envelopeHeaderLen = some _ :=
    seenBefore_eq h.fine h.bytes h.ends (Nat.lt_succ_of_le h.length_le)
  have hlen : r.len = 32 + r.folds.length * 8 := rfl
  have hne : r.folds.length ≠ 0 := fun h0 => hfine.tagged (List.eq_nil_of_length_eq_zero h0)
  have haligned : r.len &&& 7 = 0 := by
    rw [show (7 : Nat) = 2 ^ 3 - 1 from rfl, Nat.and_two_pow_sub_one_eq_mod]
    omega
  rw [visitRecords, if_neg (by unfold recordHeaderLen; omega), hat.len, hat.nfolds, hat.flags]
  simp only [Option.bind_eq_bind, Option.bind_some]
  rw [if_neg (by unfold recordHeaderLen; omega), hat.digest, Option.bind_some, hseen, Option.bind_some]
  by_cases hmem : r.digest ∈ recs.map (·.digest)
  · rw [decide_eq_true hmem, if_pos rfl, if_pos hmem]
  · rw [decide_eq_false hmem, if_neg (by decide), if_neg hmem]
    unfold ProbeCtx.take
    by_cases hd : r.digest = pc.digest
    · rw [if_pos hd, if_pos hd, hat.regSeq, Option.bind_some, show off + recordHeaderLen = off + 32 from rfl,
        Record.probe_eq hat.folds]
      cases r.probe pm <;> rfl
    · rw [if_neg hd, if_neg hd, Option.bind_some]

/-- A turn rejects the bytes, or takes a record. -/
theorem visitRecords_turn (h : Parsed b recs off) :
    visitRecords pm b (left + 1) off pc = some pc.reject ∨
    ∃ r : Record, r.Fine ∧ b.drop off = r.bytes ++ b.drop (off + r.len) ∧ off + r.len ≤ b.length ∧
      r.digest ∉ recs.map (·.digest) ∧
      visitRecords pm b (left + 1) off pc = (pc.take pm r).bind (visitRecords pm b left (off + r.len)) := by
  by_cases hroom : b.length < off ∨ b.length - off < recordHeaderLen
  · exact .inl (by rw [visitRecords, if_pos hroom])
  · have hroom' : off + 32 ≤ b.length := by
      unfold recordHeaderLen at hroom
      omega
    obtain ⟨len, hlen⟩ : ∃ v, getLE b off 4 = some v := exists_getLE (by omega)
    obtain ⟨n, hn⟩ : ∃ v, getLE b (off + 28) 2 = some v := exists_getLE (by omega)
    obtain ⟨flags, hflags⟩ : ∃ v, getLE b (off + 30) 2 = some v := exists_getLE (by omega)
    by_cases hbad : len < recordHeaderLen ∨ len &&& 7 ≠ 0 ∨ n = 0 ∨ flags ≠ 0 ∨ len ≠ recordHeaderLen + n * 8 ∨
        b.length - off < len
    · refine .inl ?_
      rw [visitRecords, if_neg hroom, hlen, hn, hflags]
      simp only [Option.bind_eq_bind, Option.bind_some]
      rw [if_pos hbad]
    · push Not at hbad
      obtain ⟨-, -, hn0, rfl, rfl, hfits⟩ := hbad
      obtain ⟨r, rfl, hdrop⟩ := Record.of_fields hlen hn hflags (by omega)
      have hfew : r.folds.length ≤ u16Max := Nat.le_of_lt_succ (drop_of_getLE hn).1
      have hfine : r.Fine := ⟨fun hnil => hn0 (by rw [hnil]; rfl), hfew⟩
      have hfits' : off + r.len ≤ b.length := by
        unfold Record.len
        omega
      by_cases hmem : r.digest ∈ recs.map (·.digest)
      · exact .inl (by rw [visitRecords_record h hfine hdrop hfits', if_pos hmem])
      · exact .inr ⟨r, hfine, hdrop, hfits', hmem, by rw [visitRecords_record h hfine hdrop hfits', if_neg hmem]⟩

end Turn

end Fellow
end Cachetag
