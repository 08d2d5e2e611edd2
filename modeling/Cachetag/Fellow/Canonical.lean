import Cachetag.Fellow.Visit

/-! The visit accepts a buffer if and only if it is the envelope of a list of records, which the buffer
    determines; and among the accepted ones is the envelope of no record at all. -/

namespace Cachetag.Fellow
open Buffer LittleEndian Purgemap

/-! ### The loop -/

/-- Probes that end, whatever folds they are given. -/
def ProbesEnd (pm : Option Map) : Prop := ∀ r : Record, ∃ v, r.probe pm = some v

section Loop
variable {b rest : List UInt8} {off left : Nat} {r : Record} {recs more : List Record} {pm : Option Map} {pc pc' : ProbeCtx}

theorem ProbesEnd.of_wf (h : ∀ m, pm = some m → m.WF) : ProbesEnd pm := by
  intro r
  cases pm with
  | none => exact ⟨_, rfl⟩
  | some m => exact (h m rfl).probe_ends

theorem ProbesEnd.take (h : ProbesEnd pm) : ∃ pc', pc.take pm r = some pc' := by
  unfold ProbeCtx.take
  split
  · obtain ⟨v, hv⟩ := h r
    exact ⟨_, by rw [hv, Option.map_some]⟩
  · exact ⟨_, rfl⟩

theorem ProbeCtx.take_same (h : pc.take pm r = some pc') : pc'.digest = pc.digest ∧ pc'.invalid = pc.invalid := by
  unfold ProbeCtx.take at h
  split at h
  · obtain ⟨v, -, rfl⟩ := Option.map_eq_some_iff.mp h
    exact ⟨rfl, rfl⟩
  · cases h
    exact ⟨rfl, rfl⟩

theorem takes_same (h : recs.foldlM (ProbeCtx.take pm) pc = some pc') :
    pc'.digest = pc.digest ∧ pc'.invalid = pc.invalid := by
  induction recs generalizing pc with
  | nil =>
    cases h
    exact ⟨rfl, rfl⟩
  | cons r recs ih =>
    rw [List.foldlM_cons] at h
    obtain ⟨mid, hmid, h⟩ := Option.bind_eq_some_iff.mp h
    obtain ⟨hd, hi⟩ := ProbeCtx.take_same hmid
    obtain ⟨hd', hi'⟩ := ih h
    exact ⟨hd'.trans hd, hi'.trans hi⟩

/-- The loop rejects the bytes, or they are records up to their end. -/
theorem visitRecords_sound (hpm : ProbesEnd pm) (h : Parsed b recs off) :
    ∃ pc', visitRecords pm b left off pc = some pc' ∧
      (pc'.invalid = true ∨ ∃ more : List Record, more.length = left ∧ Parsed b (recs ++ more) b.length) := by
  induction left generalizing recs off pc with
  | zero =>
    rw [visitRecords]
    by_cases hend : off = b.length
    · rw [if_neg (not_not_intro hend)]
      exact ⟨_, rfl, .inr ⟨[], rfl, by rw [List.append_nil]; exact hend ▸ h⟩⟩
    · rw [if_pos hend]
      exact ⟨_, rfl, .inl rfl⟩
  | succ left ih =>
    have hcases : visitRecords pm b (left + 1) off pc = _ ∨ _ := visitRecords_turn h
    rcases hcases with hrej | ⟨r, hfine, hdrop, -, hnew, hturn⟩
    · exact ⟨_, hrej, .inl rfl⟩
    · obtain ⟨mid, hmid⟩ : ∃ mid, pc.take pm r = some mid := hpm.take
      rw [hturn, hmid, Option.bind_some]
      obtain ⟨pc', hrun, hres⟩ : ∃ pc', visitRecords pm b left (off + r.len) mid = some pc' ∧ _ :=
        ih (h.next hfine hdrop hnew)
      refine ⟨pc', hrun, hres.imp_right ?_⟩
      rintro ⟨more, hmore, hparsed⟩
      exact ⟨r :: more, by rw [List.length_cons, hmore], by rwa [List.append_assoc] at hparsed⟩

/-- The loop takes the records that are there. -/
theorem visitRecords_complete (h : Parsed b recs off) (hoff : off ≤ b.length) (hfine : ∀ r ∈ more, r.Fine)
    (hdrop : b.drop off = more.flatMap Record.bytes) (hnd : ((recs ++ more).map (·.digest)).Nodup) :
    visitRecords pm b more.length off pc = more.foldlM (ProbeCtx.take pm) pc := by
  induction more generalizing recs off pc with
  | nil =>
    have hend : b.length ≤ off := List.drop_eq_nil_iff.mp hdrop
    rw [List.length_nil, visitRecords, if_neg (not_not_intro (Nat.le_antisymm hoff hend))]
    rfl
  | cons r more ih =>
    rw [List.flatMap_cons] at hdrop
    have hlen := congrArg List.length hdrop
    rw [List.length_drop, List.length_append, Record.length_bytes] at hlen
    have hnext : b.drop (off + r.len) = more.flatMap Record.bytes := by
      rw [← List.drop_drop, hdrop, List.drop_left' Record.length_bytes]
    have hat : b.drop off = r.bytes ++ b.drop (off + r.len) := by rw [hnext, hdrop]
    have hr := hfine r List.mem_cons_self
    have hnew : r.digest ∉ recs.map (·.digest) := by
      intro hmem
      rw [List.map_append, List.map_cons] at hnd
      exact (List.nodup_append.mp hnd).2.2 _ hmem _ List.mem_cons_self rfl
    rw [List.length_cons, visitRecords_record h hr hat (by omega), if_neg hnew, List.foldlM_cons]
    cases htake : pc.take pm r with
    | none => rfl
    | some mid =>
      exact ih (h.next hr hat hnew) (by omega) (fun x hx => hfine x (List.mem_cons_of_mem _ hx)) hnext
        (by rwa [List.append_assoc])

end Loop

/-! ### The headers -/

section Headers
variable {b rest : List UInt8} {total count : Nat} {d : Digest} {regSeq fold : UInt64} {recs : List Record}
  {pm : Option Map} {pc : ProbeCtx}

theorem Layout.fine (h : Layout recs) : ∀ r ∈ recs, r.Fine := fun r hr => ⟨h.tagged r hr, h.few r hr⟩

theorem length_header : (header total count).length = envelopeHeaderLen := by
  simp only [header, List.length_append, length_enc, envelopeHeaderLen]

theorem length_general : (general recs).length = generalLen recs := by
  rw [general, List.length_append, length_header, length_records, generalLen]

theorem length_compact : (compact d regSeq fold).length = singletonLen := by
  simp only [compact, List.length_append, length_enc, length_word, singletonLen]

/-- What the fields of a general header read. -/
structure HeaderAt (b : List UInt8) (total count : Nat) : Prop where
  magic : getLE b 0 4 = some envelopeMagic
  version : getLE b 4 2 = some envelopeVersionV1
  flags : getLE b 6 2 = some 0
  total : getLE b 8 4 = some total
  count : getLE b 12 2 = some count
  reserved : getLE b 14 2 = some 0

theorem headerAt (h : b = header total count ++ rest) (ht : total ≤ u32Max) (hc : count ≤ u16Max) :
    HeaderAt b total count := by
  have h0 : b.drop 0 = header total count ++ rest := h
  simp only [header, List.append_assoc] at h0
  have h4 := drop_field h0
  have h6 := drop_field h4
  have h8 := drop_field h6
  have h12 := drop_field h8
  have h14 := drop_field h12
  exact {
    magic := getLE_of_drop h0 (by decide) (by decide)
    version := getLE_of_drop h4 (by decide) (by decide)
    flags := getLE_of_drop h6 (by decide) (by decide)
    total := getLE_of_drop h8 (by decide) (Nat.lt_succ_of_le ht)
    count := getLE_of_drop h12 (by decide) (Nat.lt_succ_of_le hc)
    reserved := getLE_of_drop h14 (by decide) (by decide) }

theorem HeaderAt.eq (h : HeaderAt b total count) : b = header total count ++ b.drop envelopeHeaderLen := by
  have h0 : b = _ := (drop_of_getLE h.magic).2
  rw [(drop_of_getLE h.version).2, (drop_of_getLE h.flags).2, (drop_of_getLE h.total).2, (drop_of_getLE h.count).2,
    (drop_of_getLE h.reserved).2] at h0
  simp only [header, List.append_assoc]
  exact h0

theorem parsed_nil : Parsed b [] envelopeHeaderLen := ⟨rfl, rfl, by simp, by simp⟩

theorem visitV1_general (h : Layout recs) : visitV1 pm (general recs) pc = recs.foldlM (ProbeCtx.take pm) pc := by
  have hat : HeaderAt (general recs) (generalLen recs) recs.length := headerAt rfl h.fits h.count
  have hlen : envelopeHeaderLen ≤ (general recs).length := by
    rw [length_general]
    exact Nat.le_add_right _ _
  have hdrop : (general recs).drop envelopeHeaderLen = recs.flatMap Record.bytes := List.drop_left' length_header
  rw [visitV1, if_neg (by rw [not_or, not_lt, not_lt]; exact ⟨hlen, length_general ▸ h.fits⟩), hat.magic,
    hat.version, hat.flags, hat.total, hat.reserved]
  simp only [Option.bind_eq_bind, Option.bind_some]
  rw [if_neg (by rw [length_general]; simp), hat.count, Option.bind_some]
  exact visitRecords_complete parsed_nil hlen h.fine hdrop h.distinct

theorem visitV1_sound (hpm : ProbesEnd pm) :
    ∃ pc', visitV1 pm b pc = some pc' ∧ (pc'.invalid = true ∨ ∃ recs, Layout recs ∧ b = general recs) := by
  unfold visitV1
  by_cases hlen : b.length < envelopeHeaderLen ∨ u32Max < b.length
  · exact ⟨_, by rw [if_pos hlen], .inl rfl⟩
  · rw [if_neg hlen]
    push Not at hlen
    have h16 : 16 ≤ b.length := hlen.1
    obtain ⟨magic, hmagic⟩ : ∃ v, getLE b 0 4 = some v := exists_getLE (by omega)
    obtain ⟨version, hversion⟩ : ∃ v, getLE b 4 2 = some v := exists_getLE (by omega)
    obtain ⟨flags, hflags⟩ : ∃ v, getLE b 6 2 = some v := exists_getLE (by omega)
    obtain ⟨total, htotal⟩ : ∃ v, getLE b 8 4 = some v := exists_getLE (by omega)
    obtain ⟨reserved, hreserved⟩ : ∃ v, getLE b 14 2 = some v := exists_getLE (by omega)
    obtain ⟨count, hcount⟩ : ∃ v, getLE b 12 2 = some v := exists_getLE (by omega)
    rw [hmagic, hversion, hflags, htotal, hreserved]
    simp only [Option.bind_eq_bind, Option.bind_some]
    by_cases hbad : magic ≠ envelopeMagic ∨ version ≠ envelopeVersionV1 ∨ flags ≠ 0 ∨ total ≠ b.length ∨ reserved ≠ 0
    · exact ⟨_, by rw [if_pos hbad], .inl rfl⟩
    · rw [if_neg hbad, hcount, Option.bind_some]
      push Not at hbad
      obtain ⟨rfl, rfl, rfl, rfl, rfl⟩ := hbad
      obtain ⟨pc', hrun, hres⟩ : ∃ pc', visitRecords pm b count envelopeHeaderLen pc = some pc' ∧ _ :=
        visitRecords_sound hpm parsed_nil
      refine ⟨pc', hrun, hres.imp_right ?_⟩
      rintro ⟨recs, rfl, hparsed⟩
      have hgen : b.length = generalLen recs := hparsed.ends
      have hbytes := hparsed.bytes
      rw [List.drop_length, List.append_nil] at hbytes
      have heq := HeaderAt.eq ⟨hmagic, hversion, hflags, htotal, hcount, hreserved⟩
      refine ⟨recs, ⟨hparsed.distinct, fun r hr => (hparsed.fine r hr).tagged, fun r hr => (hparsed.fine r hr).few,
        Nat.le_of_lt_succ (drop_of_getLE hcount).1, hgen ▸ hlen.2⟩, ?_⟩
      rw [hbytes, hgen] at heq
      exact heq

end Headers

/-! ### The compact layout -/

section Compact
variable {b : List UInt8} {d : Digest} {regSeq fold : UInt64} {pm : Option Map} {pc : ProbeCtx}

/-- What the fields of a compact envelope read. -/
structure CompactAt (b : List UInt8) (d : Digest) (regSeq fold : UInt64) : Prop where
  magic : getLE b 0 4 = some envelopeMagic
  version : getLE b 4 2 = some envelopeVersionSingleton
  flags : getLE b 6 2 = some 0
  digest : getDigest b 8 = some d
  regSeq : getWord b 24 = some regSeq
  fold : b.drop 32 = word fold

theorem compactAt : CompactAt (compact d regSeq fold) d regSeq fold := by
  have h0 : (compact d regSeq fold).drop 0 = enc 4 envelopeMagic ++ (enc 2 envelopeVersionSingleton ++ (enc 2 0 ++
    (word d.hi ++ (word d.lo ++ (word regSeq ++ word fold))))) := rfl
  have h4 := drop_field h0
  have h6 := drop_field h4
  have h8 := drop_field h6
  obtain ⟨hdigest, h24⟩ := getDigest_of_drop h8
  exact {
    magic := getLE_of_drop h0 (by decide) (by decide)
    version := getLE_of_drop h4 (by decide) (by decide)
    flags := getLE_of_drop h6 (by decide) (by decide)
    digest := hdigest
    regSeq := getWord_of_drop h24
    fold := drop_word h24 }

theorem visitSingleton_compact : visitSingleton pm (compact d regSeq fold) pc = pc.take pm ⟨d, regSeq, [fold]⟩ := by
  have hat : CompactAt (compact d regSeq fold) d regSeq fold := compactAt
  have hfolds : (compact d regSeq fold).drop 32 = words [fold] ++ [] := by
    rw [hat.fold, words_cons]
    rfl
  have hprobe : probeSerialized pm regSeq (compact d regSeq fold) 32 1 = Record.probe pm ⟨d, regSeq, [fold]⟩ :=
    Record.probe_eq (r := ⟨d, regSeq, [fold]⟩) hfolds
  rw [visitSingleton, if_neg (not_not_intro length_compact), hat.magic, hat.version, hat.flags]
  simp only [Option.bind_eq_bind, Option.bind_some]
  rw [if_neg (by simp), hat.digest, Option.bind_some, ProbeCtx.take]
  by_cases hd : d = pc.digest
  · rw [if_pos hd, if_pos hd, hat.regSeq, Option.bind_some, hprobe]
    cases Record.probe pm ⟨d, regSeq, [fold]⟩ <;> rfl
  · rw [if_neg hd, if_neg hd]

theorem visitSingleton_sound (hpm : ProbesEnd pm) :
    ∃ pc', visitSingleton pm b pc = some pc' ∧
      (pc'.invalid = true ∨ ∃ d regSeq fold, b = compact d regSeq fold) := by
  by_cases hlen : b.length = singletonLen
  · have h40 : b.length = 40 := hlen
    obtain ⟨magic, hmagic⟩ : ∃ v, getLE b 0 4 = some v := exists_getLE (by omega)
    obtain ⟨version, hversion⟩ : ∃ v, getLE b 4 2 = some v := exists_getLE (by omega)
    obtain ⟨flags, hflags⟩ : ∃ v, getLE b 6 2 = some v := exists_getLE (by omega)
    by_cases hbad : magic ≠ envelopeMagic ∨ version ≠ envelopeVersionSingleton ∨ flags ≠ 0
    · refine ⟨pc.reject, ?_, .inl rfl⟩
      rw [visitSingleton, if_neg (not_not_intro hlen), hmagic, hversion, hflags]
      simp only [Option.bind_eq_bind, Option.bind_some]
      rw [if_pos hbad]
    · push Not at hbad
      obtain ⟨rfl, rfl, rfl⟩ := hbad
      obtain ⟨d, -, hdrop⟩ : ∃ d, getDigest b 8 = some d ∧ _ := exists_getDigest (by omega)
      obtain ⟨regSeq, hreg⟩ : ∃ v, getWord b 24 = some v := exists_getWord (by omega)
      obtain ⟨fold, hfold⟩ : ∃ v, getWord b 32 = some v := exists_getWord (by omega)
      have hend : b.drop 40 = [] := List.drop_eq_nil_of_le (by omega)
      have heq : b = _ := (drop_of_getLE hmagic).2
      rw [(drop_of_getLE hversion).2, (drop_of_getLE hflags).2, hdrop, drop_of_getWord hreg, drop_of_getWord hfold, hend,
        List.append_nil] at heq
      have hcompact : b = compact d regSeq fold := heq
      obtain ⟨pc', htake⟩ : ∃ pc', pc.take pm ⟨d, regSeq, [fold]⟩ = some pc' := hpm.take
      exact ⟨pc', by rw [hcompact, visitSingleton_compact, htake], .inr ⟨d, regSeq, fold, hcompact⟩⟩
  · exact ⟨pc.reject, by rw [visitSingleton, if_pos hlen], .inl rfl⟩

end Compact

/-! ### The visit -/

section Visit
variable {p : List UInt8} {recs recs' : List Record} {pm : Option Map} {pc : ProbeCtx}

/-- A visit of an envelope takes its records. -/
theorem visit_envelope (h : Envelope p recs) : visit pm p pc = recs.foldlM (ProbeCtx.take pm) pc := by
  obtain ⟨hl, rfl | ⟨d, regSeq, fold, rfl, rfl⟩⟩ := h
  · have hat : HeaderAt (general recs) (generalLen recs) recs.length := headerAt rfl hl.fits hl.count
    have hlen : ¬(general recs).length < 8 := by
      rw [length_general, generalLen, envelopeHeaderLen]
      omega
    rw [visit, if_neg hlen, hat.magic, Option.bind_eq_bind, Option.bind_some, if_neg (not_not_intro rfl), hat.version,
      Option.bind_some, if_pos rfl, visitV1_general hl]
  · have hat : CompactAt (compact d regSeq fold) d regSeq fold := compactAt
    have hlen : ¬(compact d regSeq fold).length < 8 := by
      rw [length_compact]
      decide
    rw [visit, if_neg hlen, hat.magic, Option.bind_eq_bind, Option.bind_some, if_neg (not_not_intro rfl), hat.version,
      Option.bind_some, if_neg (by decide), if_pos rfl, visitSingleton_compact, List.foldlM_cons]
    cases pc.take pm ⟨d, regSeq, [fold]⟩ <;> rfl

/-- A lone record with a lone fold. -/
theorem Layout.lone {d : Digest} {regSeq fold : UInt64} : Layout [⟨d, regSeq, [fold]⟩] where
  distinct := List.nodup_singleton _
  tagged := by simp
  few := by simp [u16Max]
  count := by simp [u16Max]
  fits := by simp [generalLen, Record.len, envelopeHeaderLen, recordHeaderLen, u32Max]

/-- A visit reads no byte that is not there and ends, and it rejects what is not an envelope. -/
theorem visit_sound (hpm : ProbesEnd pm) :
    ∃ pc', visit pm p pc = some pc' ∧ (pc'.invalid = true ∨ ∃ recs, Envelope p recs) := by
  unfold visit
  by_cases hlen : p.length < 8
  · exact ⟨_, by rw [if_pos hlen], .inl rfl⟩
  · obtain ⟨magic, hmagic⟩ : ∃ v, getLE p 0 4 = some v := exists_getLE (by omega)
    obtain ⟨version, hversion⟩ : ∃ v, getLE p 4 2 = some v := exists_getLE (by omega)
    rw [if_neg hlen, hmagic, hversion]
    simp only [Option.bind_eq_bind, Option.bind_some]
    by_cases hm : magic ≠ envelopeMagic
    · exact ⟨_, by rw [if_pos hm], .inl rfl⟩
    · rw [if_neg hm]
      by_cases h1 : version = envelopeVersionV1
      · obtain ⟨pc', hrun, hres⟩ : ∃ pc', visitV1 pm p pc = some pc' ∧ _ := visitV1_sound hpm
        refine ⟨pc', by rw [if_pos h1, hrun], hres.imp_right ?_⟩
        rintro ⟨recs, hl, heq⟩
        exact ⟨recs, hl, .inl heq⟩
      · by_cases h2 : version = envelopeVersionSingleton
        · obtain ⟨pc', hrun, hres⟩ : ∃ pc', visitSingleton pm p pc = some pc' ∧ _ := visitSingleton_sound hpm
          refine ⟨pc', by rw [if_neg h1, if_pos h2, hrun], hres.imp_right ?_⟩
          rintro ⟨d, regSeq, fold, heq⟩
          exact ⟨_, Layout.lone, .inr ⟨d, regSeq, fold, rfl, heq⟩⟩
        · exact ⟨_, by rw [if_neg h1, if_neg h2], .inl rfl⟩

/-! ### The records of an envelope -/

theorem Record.bytes_inj {r r' : Record} {rest rest' : List UInt8} (hr : r.Fine) (hr' : r'.Fine)
    (h : r.bytes ++ rest = r'.bytes ++ rest') : r = r' ∧ rest = rest' := by
  have hat : Record.At (r.bytes ++ rest) 0 r rest := Record.at_of_drop rfl hr.few
  have hat' : Record.At (r.bytes ++ rest) 0 r' rest' := Record.at_of_drop h hr'.few
  have hdigest : r.digest = r'.digest := Option.some.inj (hat.digest.symm.trans hat'.digest)
  have hreg : r.regSeq = r'.regSeq := Option.some.inj (hat.regSeq.symm.trans hat'.regSeq)
  have hn : r.folds.length = r'.folds.length := Option.some.inj (hat.nfolds.symm.trans hat'.nfolds)
  obtain ⟨hfolds, hrest⟩ := words_inj hn (hat.folds.symm.trans hat'.folds)
  obtain ⟨d, s, fs⟩ := r
  obtain ⟨d', s', fs'⟩ := r'
  simp only at hdigest hreg hfolds
  exact ⟨by rw [hdigest, hreg, hfolds], hrest⟩

theorem Record.bytes_ne_nil {r : Record} : r.bytes ≠ [] := by
  intro hnil
  have hlen := congrArg List.length hnil
  rw [Record.length_bytes, Record.len, recordHeaderLen, List.length_nil] at hlen
  omega

theorem records_inj (hr : ∀ r ∈ recs, r.Fine) (hr' : ∀ r ∈ recs', r.Fine)
    (h : recs.flatMap Record.bytes = recs'.flatMap Record.bytes) : recs = recs' := by
  induction recs generalizing recs' with
  | nil =>
    cases recs' with
    | nil => rfl
    | cons r' recs' =>
      rw [List.flatMap_nil, List.flatMap_cons] at h
      exact absurd (List.append_eq_nil_iff.mp h.symm).1 Record.bytes_ne_nil
  | cons r recs ih =>
    cases recs' with
    | nil =>
      rw [List.flatMap_nil, List.flatMap_cons] at h
      exact absurd (List.append_eq_nil_iff.mp h).1 Record.bytes_ne_nil
    | cons r' recs' =>
      rw [List.flatMap_cons, List.flatMap_cons] at h
      obtain ⟨rfl, hrest⟩ := Record.bytes_inj (hr r List.mem_cons_self) (hr' r' List.mem_cons_self) h
      rw [ih (fun x hx => hr x (List.mem_cons_of_mem _ hx)) (fun x hx => hr' x (List.mem_cons_of_mem _ hx)) hrest]

/-- No general envelope has the length of a compact one. -/
theorem generalLen_ne (h : Layout recs) : generalLen recs ≠ singletonLen := by
  cases recs with
  | nil => decide
  | cons r recs =>
    have hpos : 0 < r.folds.length := List.length_pos_of_ne_nil (h.tagged r List.mem_cons_self)
    rw [generalLen, List.map_cons, List.sum_cons, Record.len, envelopeHeaderLen, recordHeaderLen, singletonLen]
    omega

/-- The bytes determine the records. -/
theorem Envelope.inj (h : Envelope p recs) (h' : Envelope p recs') : recs = recs' := by
  obtain ⟨hl, hp⟩ := h
  obtain ⟨hl', hp'⟩ := h'
  rcases hp with rfl | ⟨d, regSeq, fold, rfl, rfl⟩
  · rcases hp' with heq | ⟨d, regSeq, fold, rfl, heq⟩
    · have hdrop := congrArg (List.drop envelopeHeaderLen) heq
      rw [general, general, List.drop_left' length_header, List.drop_left' length_header] at hdrop
      exact records_inj hl.fine hl'.fine hdrop
    · exact absurd (by rw [← length_general, heq, length_compact]) (generalLen_ne hl)
  · rcases hp' with heq | ⟨d', regSeq', fold', rfl, heq⟩
    · exact absurd (by rw [← length_general, ← heq, length_compact]) (generalLen_ne hl')
    · have hat : CompactAt (compact d regSeq fold) d regSeq fold := compactAt
      have hat' : CompactAt (compact d regSeq fold) d' regSeq' fold' := heq ▸ compactAt
      have hdigest : d = d' := Option.some.inj (hat.digest.symm.trans hat'.digest)
      have hreg : regSeq = regSeq' := Option.some.inj (hat.regSeq.symm.trans hat'.regSeq)
      have hwords := hat.fold.symm.trans hat'.fold
      obtain ⟨hfold, -⟩ := word_inj (congrArg (fun x => x ++ ([] : List UInt8)) hwords)
      rw [hdigest, hreg, hfold]

end Visit

/-! ### Canonical bytes -/

/-- The purge map of an index: none before the first purge, and from then on one that its calls can make. -/
def Held (cfg : Purgemap.Config) (pm : Option Map) : Prop :=
  ∀ m, pm = some m → ∃ s, Machine.Reach (Life.step cfg) Machine.always Life.init s ∧ s.map = m

/-- The bytes are an envelope of these records, of which there is one at least. -/
def Encodes (p : List UInt8) (recs : List Record) : Prop := recs ≠ [] ∧ Envelope p recs

/-- A fold that `cachetag_fold_digest` yields. -/
def IsFold (f : UInt64) : Prop := ∃ d : Digest, (foldDigest d).val = f.toNat

/-- A header of the general layout that counts no record, with nothing behind it. -/
def emptyEnvelope : List UInt8 := [0x43, 0x54, 0x41, 0x47, 1, 0, 0, 0, 16, 0, 0, 0, 0, 0, 0, 0]

section Canonical
variable {cfg : Purgemap.Config} {p : List UInt8} {recs : List Record} {pm : Option Map} {d : Digest} {f : UInt64} {pc : ProbeCtx}

theorem Held.probesEnd (h : Held cfg pm) : ProbesEnd pm := by
  refine ProbesEnd.of_wf fun m hm => ?_
  obtain ⟨s, hs, rfl⟩ := h m hm
  exact (Life.reach_inv hs).wf

theorem isFold_iff : IsFold f ↔ f ≠ 0 ∧ f.toNat ≠ u64Max := by
  constructor
  · rintro ⟨d, hd⟩
    have hne := (foldDigest d).ne_zero
    have hlt := (foldDigest d).lt_max
    rw [hd] at hne hlt
    exact ⟨fun h0 => hne (by rw [h0]; rfl), Nat.ne_of_lt hlt⟩
  · rintro ⟨h0, hmax⟩
    refine ⟨⟨f, 0⟩, ?_⟩
    have hxor : f ^^^ 0 = f := UInt64.xor_zero
    have hne : f.toNat ≠ 0 := fun h => h0 (UInt64.toNat_inj.mp h)
    simp only [foldDigest, hxor]
    rw [dif_neg (not_or.mpr ⟨hne, hmax⟩)]

theorem envelope_empty : Envelope emptyEnvelope [] := ⟨⟨by simp, by simp, by simp, by simp, by decide⟩, .inl (by decide)⟩

/-- A visit that does not reject the bytes met an envelope. -/
theorem valid_iff (hpm : ProbesEnd pm) (h : visit pm p (.init d) = some pc) :
    pc.invalid = false ↔ ∃ recs, Envelope p recs := by
  constructor
  · intro hv
    obtain ⟨pc', hrun, hres⟩ : ∃ pc', visit pm p (.init d) = some pc' ∧ _ := visit_sound hpm
    obtain rfl : pc' = pc := Option.some.inj (hrun.symm.trans h)
    rcases hres with hi | hrecs
    · rw [hv] at hi
      cases hi
    · exact hrecs
  · rintro ⟨recs, hrecs⟩
    rw [visit_envelope hrecs] at h
    exact (takes_same h).2

/-- The records of the accepted bytes are none, or the bytes are what the encoder makes of them. -/
theorem encodes_iff (h : Envelope p recs) : Encodes p recs ↔ p ≠ emptyEnvelope := by
  constructor
  · rintro ⟨hne, -⟩ rfl
    exact hne (h.inj envelope_empty)
  · refine fun hne => ⟨?_, h⟩
    rintro rfl
    obtain ⟨-, rfl | ⟨d, regSeq, fold, hnil, -⟩⟩ := h
    · exact hne (by decide)
    · cases hnil

/-- A visit of any bytes ends and reads none beyond them. If it rejects them, the probe fails and the object
    counts as purged hard. If it does not, they are the encoding of a list of records, except for the one
    header that counts no record; and the encoder writes these bytes unless a fold is one that no tag has. -/
theorem visit_canonical (cfg : Purgemap.Config) (pm : Option Map) (hpm : Held cfg pm) (d : Digest) (p : List UInt8) :
    ∃ pc, visit pm p (.init d) = some pc ∧
      (pc.invalid = true →
        attrProbe pm d (.bytes p) = some (.error .einval) ∧ directProbe (.error .einval) = .hard) ∧
      ((pc.invalid = true ∨ ∃ recs, Encodes p recs) ↔ p ≠ emptyEnvelope) ∧
      ((pc.invalid = true ∨ ∃ recs, Encodes p recs ∧ ∀ r ∈ recs, ∀ f ∈ r.folds, IsFold f) ↔
        p ≠ emptyEnvelope ∧ ∀ recs, Envelope p recs → ∀ r ∈ recs, ∀ f ∈ r.folds, f ≠ 0 ∧ f.toNat ≠ u64Max) := by
  have hend := hpm.probesEnd
  obtain ⟨pc, hrun, -⟩ : ∃ pc, visit pm p (.init d) = some pc ∧ _ := visit_sound hend
  have hvalid := valid_iff hend hrun
  have hempty : pc.invalid = true → p ≠ emptyEnvelope := by
    rintro hi rfl
    rw [hvalid.mpr ⟨[], envelope_empty⟩] at hi
    cases hi
  refine ⟨pc, hrun, fun hi => ⟨?_, rfl⟩, ⟨?_, fun hne => ?_⟩, ⟨?_, ?_⟩⟩
  · rw [attrProbe, hrun, Option.map_some, if_pos hi]
  · rintro (hi | ⟨recs, hrecs⟩)
    · exact hempty hi
    · exact (encodes_iff hrecs.2).mp hrecs
  · cases hi : pc.invalid with
    | true => exact .inl rfl
    | false =>
      obtain ⟨recs, hrecs⟩ := hvalid.mp hi
      exact .inr ⟨recs, (encodes_iff hrecs).mpr hne⟩
  · rintro (hi | ⟨recs, hrecs, hfolds⟩)
    · refine ⟨hempty hi, fun recs hrecs => ?_⟩
      rw [hvalid.mpr ⟨recs, hrecs⟩] at hi
      cases hi
    · refine ⟨(encodes_iff hrecs.2).mp hrecs, fun recs' hrecs' r hr f hf => ?_⟩
      rw [hrecs'.inj hrecs.2] at hr
      exact isFold_iff.mp (hfolds r hr f hf)
  · rintro ⟨hne, hfolds⟩
    cases hi : pc.invalid with
    | true => exact .inl rfl
    | false =>
      obtain ⟨recs, hrecs⟩ := hvalid.mp hi
      exact .inr ⟨recs, (encodes_iff hrecs).mpr hne, fun r hr f hf => isFold_iff.mpr (hfolds recs hrecs r hr f hf)⟩

theorem visit_canonical_compact :
    ∃ s, Machine.run (Life.step ⟨1, false⟩) Life.init [.purge ⟨0, 7⟩ .hard .ok] = some s ∧
      ∃ pc, visit (some s.map) (compact ⟨1, 2⟩ 0 7) (.init ⟨1, 2⟩) = some pc ∧
        (pc.invalid = true ∨ ∃ recs, Encodes (compact ⟨1, 2⟩ 0 7) recs) := by
  obtain ⟨s, hs⟩ : ∃ s, Machine.run (Life.step ⟨1, false⟩) Life.init [.purge ⟨0, 7⟩ .hard .ok] = some s := ⟨_, rfl⟩
  have hheld : Held ⟨1, false⟩ (some s.map) := by
    intro m hm
    exact ⟨s, .of_run hs, Option.some.inj hm⟩
  obtain ⟨pc, hrun, -, hiff, -⟩ := visit_canonical ⟨1, false⟩ (some s.map) hheld ⟨1, 2⟩ (compact ⟨1, 2⟩ 0 7)
  exact ⟨s, hs, pc, hrun, hiff.mpr (by decide)⟩

/-- The header alone is not rejected, and no list of records has it for its encoding: the tags of the object
    are ignored. -/
theorem empty_envelope_accepted :
    visit (some Map.init) emptyEnvelope (.init ⟨1, 2⟩) = some ⟨⟨1, 2⟩, false, false, .none⟩ ∧
    (¬∃ recs, Encodes emptyEnvelope recs) ∧
    (attrProbe (some Map.init) ⟨1, 2⟩ (.bytes emptyEnvelope)).map directProbe = some .none := by
  refine ⟨by decide, ?_, by decide⟩
  rintro ⟨recs, hne, hrecs⟩
  exact hne (hrecs.inj envelope_empty)

end Canonical

end Cachetag.Fellow
