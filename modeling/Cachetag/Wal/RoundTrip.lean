import Cachetag.Wal.Manifest

/-! What `cachetag_wal_manifest_load_locked` makes of a manifest that `cachetag_wal_manifest_publish_locked` wrote.

The name of the log stands in its manifest as it is. `Readable` is what a name needs for the manifest to be read. -/

namespace Cachetag.Wal
open Numeral Scan

/-- The names that a manifest can be read with. -/
def Readable (name : Bytes) : Prop := name.length ≤ 255 ∧ 10 ∉ name ∧ ¬ checksumMark <:+: name

instance (name : Bytes) : Decidable (Readable name) := by
  unfold Readable
  infer_instance

/-- A path that an entry of a manifest is read with. -/
structure Relpath.Plain (rel : Relpath) : Prop where
  comma : 44 ∉ rel.path
  newline : 10 ∉ rel.path
  colon : 58 ∉ rel.path
  nul : 0 ∉ rel.path
  length : rel.path.length ≤ 255

/-- A log whose manifest can be read, if its name can. The last of the segments is the active one. -/
structure Log.Publishable (wal : Log) : Prop where
  root : wal.rootIdHi ≤ u64Max ∧ wal.rootIdLo ≤ u64Max ∧ ¬(wal.rootIdHi = 0 ∧ wal.rootIdLo = 0)
  generation : wal.generation ≤ u64Max
  nextSeq : 0 < wal.nextSeq ∧ wal.nextSeq ≤ u64Max
  active : wal.activeSegment.isSome
  checkpoint : ∀ rel ∈ wal.checkpointRelpath, rel.Plain ∧ hasSuffix rel.path (ascii ".vtc") = true ∧
    (∀ v ∈ wal.checkpoint.vals, v ≤ u64Max) ∧ wal.checkpoint.walSequence < u64Max
  segments : ∀ seg ∈ wal.published, seg.relpath.Plain ∧ ascii "wal/" <+: seg.relpath.path ∧
    seg.firstSeq ≤ u64Max ∧ seg.lastSeq ≤ u64Max ∧ seg.bytes ≤ u64Max
  ranges : rangeOk (if wal.checkpointRelpath.isSome then wal.checkpoint.walSequence + 1 else 1) wal.published = true

/-! ### Characters -/

section
variable {b n w : Nat} {c : UInt8} {vals : List Nat} {rel : Relpath}

/-- No printed number holds a character that is no digit. -/
theorem not_mem_print (hb : 1 < b) (h16 : b ≤ 16) (hc : digitVal 16 c = none) : c ∉ print b n := by
  rw [← pad_zero]
  exact not_mem_pad hb h16 hc

theorem not_mem_vals (hc : digitVal 16 c = none) (hne : c ≠ 44) : c ∉ vals.flatMap fun v => 44 :: print 10 v := by
  simp only [List.mem_flatMap, List.mem_cons, not_exists, not_and, not_or]
  exact fun v _ => ⟨hne, not_mem_print (by norm_num) (by norm_num) hc⟩

/-- The characters that end a line, a text or a search do not stand in an entry. -/
theorem Relpath.Plain.not_mem_entry (h : rel.Plain) :
    10 ∉ entryText rel vals ∧ 58 ∉ entryText rel vals ∧ 0 ∉ entryText rel vals := by
  simp only [entryText, List.mem_append, not_or]
  exact ⟨⟨h.newline, not_mem_vals rfl (by decide)⟩, ⟨h.colon, not_mem_vals rfl (by decide)⟩,
    h.nul, not_mem_vals rfl (by decide)⟩

/-- A path with a number in it is plain if the rest of it is. -/
theorem Relpath.Plain.of_number {front back : Bytes} (hpath : rel.path = front ++ pad 20 10 n ++ back) (hn : n ≤ u64Max)
    (hrest : ∀ x ∈ [44, 10, 58, 0], x ∉ front ∧ x ∉ back) (hlen : front.length + back.length ≤ 235) : rel.Plain := by
  have hmem : ∀ x ∈ ([44, 10, 58, 0] : Bytes), x ∉ rel.path := by
    intro x hx
    have hdigit : digitVal 16 x = none := by
      simp only [List.mem_cons, List.not_mem_nil, or_false] at hx
      rcases hx with rfl | rfl | rfl | rfl <;> rfl
    rw [hpath, List.mem_append, List.mem_append, not_or, not_or]
    exact ⟨⟨(hrest x hx).1, not_mem_pad (by norm_num) (by norm_num) hdigit⟩, (hrest x hx).2⟩
  have hpad : (pad 20 10 n).length = 20 := length_pad (by norm_num) (by norm_num) (by unfold u64Max at hn; omega)
  refine ⟨hmem _ (by decide), hmem _ (by decide), hmem _ (by decide), hmem _ (by decide), ?_⟩
  rw [hpath, List.length_append, List.length_append, hpad]
  omega

theorem segmentRelpath_plain (h : n ≤ u64Max) : (segmentRelpath n).Plain :=
  .of_number rfl h (by simp [ascii]) (by simp [ascii])

theorem checkpointRelpath_plain (h : n ≤ u64Max) : (checkpointRelpath n).Plain :=
  .of_number rfl h (by simp [ascii]) (by simp [ascii])

theorem hasSuffix_checkpointRelpath : hasSuffix (checkpointRelpath n).path (ascii ".vtc") = true := by
  unfold hasSuffix
  rw [List.isSuffixOf_iff_suffix]
  exact List.suffix_append _ _

end

/-- A line that the search for the checksum goes over. -/
structure PlainLine (l : Bytes) : Prop where
  newline : 10 ∉ l
  nul : 0 ∉ l
  mark : ¬ checksumMark <:+: l

theorem PlainLine.of_colon {l : Bytes} (h : 10 ∉ l ∧ 58 ∉ l ∧ 0 ∉ l) : PlainLine l where
  newline := h.1
  nul := h.2.2
  mark hm := h.2.1 (hm.subset (by decide))

/-- The key in front of a name makes no mark with it. -/
theorem strstr_name (s : Bytes) : strstr checksumMark (ascii "namespace=" ++ s) = (strstr checksumMark s).map (· + 10) := by
  have hkey : ascii "namespace=" = [110, 97, 109, 101, 115, 112, 97, 99, 101, 61] := rfl
  have hmark : checksumMark = [99, 104, 101, 99, 107, 115, 117, 109, 61, 120, 120, 104, 51, 58] := rfl
  rw [hkey]
  simp [strstr, List.cons_prefix_cons, hmark, Option.map_map, Function.comp_def]

theorem Readable.plainLine {name : CString} (h : Readable name.bytes) : PlainLine (ascii "namespace=" ++ name.bytes) where
  newline := by
    rw [List.mem_append, not_or]
    exact ⟨by decide, h.2.1⟩
  nul := by
    rw [List.mem_append, not_or]
    exact ⟨by decide, name.noNul⟩
  mark hm := by
    have hkey : ascii "namespace=" = [110, 97, 109, 101, 115, 112, 97, 99, 101, 61] := rfl
    have hmark : checksumMark = [99, 104, 101, 99, 107, 115, 117, 109, 61, 120, 120, 104, 51, 58] := rfl
    refine h.2.2 ?_
    rw [hkey, hmark] at hm
    simpa [List.infix_cons_iff, List.cons_prefix_cons, hmark] using hm

section
variable {wal : Log} {now : Nat}

/-- None of the lines of a manifest but that of the name can mislead the reader. -/
theorem Log.Publishable.lines (h : wal.Publishable) :
    ∀ l ∈ manifestLines wal now, l = ascii "namespace=" ++ wal.name.bytes ∨ PlainLine l := by
  have hkey : ∀ k x : Bytes, (10 ∉ k ∧ 58 ∉ k ∧ 0 ∉ k) → (10 ∉ x ∧ 58 ∉ x ∧ 0 ∉ x) → PlainLine (k ++ x) := by
    intro k x hk hx
    apply PlainLine.of_colon
    simp only [List.mem_append, not_or]
    exact ⟨⟨hk.1, hx.1⟩, ⟨hk.2.1, hx.2.1⟩, hk.2.2, hx.2.2⟩
  have hnum : ∀ n, 10 ∉ print 10 n ∧ 58 ∉ print 10 n ∧ 0 ∉ print 10 n := fun n =>
    ⟨not_mem_print (by norm_num) (by norm_num) rfl, not_mem_print (by norm_num) (by norm_num) rfl,
      not_mem_print (by norm_num) (by norm_num) rfl⟩
  have hhex : ∀ n, 10 ∉ pad 16 16 n ∧ 58 ∉ pad 16 16 n ∧ 0 ∉ pad 16 16 n := fun n =>
    ⟨not_mem_pad (by norm_num) (by norm_num) rfl, not_mem_pad (by norm_num) (by norm_num) rfl,
      not_mem_pad (by norm_num) (by norm_num) rfl⟩
  intro l hl
  simp only [manifestLines, List.mem_append, List.mem_cons, List.not_mem_nil, or_false, Option.mem_toList,
    Option.map_eq_some_iff, List.mem_map] at hl
  rcases hl with ((rfl | rfl | rfl | rfl | rfl | rfl | rfl) | ⟨rel, hrel, rfl⟩) | ⟨seg, hseg, rfl⟩
  · exact .inr (.of_colon (by decide))
  · exact .inr (.of_colon (by decide))
  · exact .inl rfl
  · rw [List.append_assoc]
    refine .inr (hkey _ _ (by decide) ?_)
    simp only [List.mem_append, not_or]
    exact ⟨⟨(hhex _).1, (hhex _).1⟩, ⟨(hhex _).2.1, (hhex _).2.1⟩, (hhex _).2.2, (hhex _).2.2⟩
  · exact .inr (hkey _ _ (by decide) (hnum _))
  · exact .inr (hkey _ _ (by decide) (hnum _))
  · exact .inr (hkey _ _ (by decide) (hnum _))
  · exact .inr (hkey _ _ (by decide) (h.checkpoint rel hrel).1.not_mem_entry)
  · exact .inr (hkey _ _ (by decide) (h.segments seg hseg).1.not_mem_entry)

theorem Log.Publishable.plainLines (h : wal.Publishable) (hr : Readable wal.name.bytes) :
    ∀ l ∈ manifestLines wal now, PlainLine l := by
  intro l hl
  rcases h.lines l hl with rfl | hl
  · exact hr.plainLine
  · exact hl

end

/-! ### Lines -/

section
variable {ls : List Bytes} {r : Bytes}

theorem unlines_cons (l : Bytes) (ls : List Bytes) (r : Bytes) : unlines (l :: ls) ++ r = l ++ 10 :: (unlines ls ++ r) := by
  simp [unlines]

theorem fields_unlines (h : ∀ l ∈ ls, PlainLine l) : fields [10] (unlines ls) = ls ++ [[]] := by
  induction ls with
  | nil => exact fields_none (List.cons_ne_nil _ _) rfl
  | cons l ls ih =>
    obtain ⟨hl, hls⟩ := List.forall_mem_cons.mp h
    have := unlines_cons l ls []
    rw [List.append_nil, List.append_nil] at this
    rw [this, fields_line hl.newline, ih hls, List.cons_append]

/-- The mark of the checksum is found behind the lines. -/
theorem strstr_unlines (h : ∀ l ∈ ls, PlainLine l) :
    strstr checksumMark (unlines ls ++ (checksumMark ++ r)) = some (unlines ls).length := by
  induction ls with
  | nil => exact strstr_prefix
  | cons l ls ih =>
    obtain ⟨hl, hls⟩ := List.forall_mem_cons.mp h
    rw [unlines_cons, strstr_line (by decide) hl.mark, ih hls, Option.map_some]
    simp [unlines]
    omega

theorem not_mem_unlines (h : ∀ l ∈ ls, 0 ∉ l) : 0 ∉ unlines ls := by
  simp only [unlines, List.mem_flatMap, List.mem_append, List.mem_singleton, not_exists, not_and, not_or]
  exact fun l hl => ⟨h l hl, by decide⟩

theorem getLast?_unlines (hne : ls ≠ []) : (unlines ls).getLast? = some 10 := by
  obtain ⟨ls, l, rfl⟩ := List.eq_nil_or_concat ls |>.resolve_left hne
  simp [unlines]

end

/-! ### Entries -/

section
variable {vals : List Nat} {rel : Relpath} {s : Bytes}

theorem scanNumbers_vals (h : ∀ v ∈ vals, v ≤ u64Max) :
    scanNumbers vals.length (vals.flatMap fun v => 44 :: print 10 v) = some (vals, []) := by
  induction vals with
  | nil => rfl
  | cons v vals ih =>
    obtain ⟨hv, hvals⟩ := List.forall_mem_cons.mp h
    have hrest : (vals.flatMap fun v => 44 :: print 10 v).head?.bind (digitVal 36) = none := by
      cases vals <;> rfl
    rw [List.length_cons, List.flatMap_cons, List.cons_append, scanNumbers, ← pad_zero,
      strtoull?_pad (by norm_num) (by norm_num) hv hrest]
    simp only [Option.bind_eq_bind, Option.bind_some, ih hvals]
    rfl

/-- An entry is read as it was written. -/
theorem scanEntry_text (hrel : rel.Plain) (hne : vals ≠ []) (h : ∀ v ∈ vals, v ≤ u64Max) :
    scanEntry vals.length (entryText rel vals) = some (rel.path, vals) := by
  obtain ⟨v, vs, rfl⟩ := List.exists_cons_of_ne_nil hne
  have hpath : rel.path ≠ [] := by
    intro hnil
    have := rel.ok
    rw [hnil] at this
    exact absurd this (by decide)
  have htake : (entryText rel (v :: vs)).takeWhile (· ≠ 44) = rel.path := by
    rw [entryText, List.flatMap_cons, List.cons_append, List.takeWhile_append_of_pos]
    · rw [List.takeWhile_cons_of_neg (by simp), List.append_nil]
    · intro x hx
      have : x ≠ 44 := by
        rintro rfl
        exact hrel.comma hx
      simpa using this
  unfold scanEntry
  rw [htake, List.take_of_length_le hrel.length]
  dsimp only
  rw [if_neg hpath, entryText, List.drop_left' rfl, scanNumbers_vals h]

theorem loadLine_magic {ld : Loading} : loadLine (ascii "magic=VTM1") ld = pure (none, { ld with sawMagic := true }) :=
  if_pos rfl

theorem loadLine_version {ld : Loading} : loadLine (ascii "version=1") ld = pure (none, { ld with sawVersion := true }) := by
  rw [loadLine, if_neg (by decide), if_pos rfl]

theorem loadLine_name {name : CString} {ld : Loading} (hname : ld.wal.name = name) (hlen : name.bytes.length ≤ 255) :
    loadLine (ascii "namespace=" ++ name.bytes) ld = pure (none, { ld with sawNamespace := true }) := by
  have hvalue : ((ascii "namespace=" ++ name.bytes).drop 10).take 255 = ld.wal.name.bytes := by
    have hdrop : (ascii "namespace=" ++ name.bytes).drop 10 = name.bytes := List.drop_left' rfl
    rw [hdrop, List.take_of_length_le hlen, hname]
  rw [loadLine, if_neg (by simp [ascii]), if_neg (by simp [ascii]), if_neg (by simp [ascii]), if_pos (by simp [ascii]),
    hvalue, if_neg (by simp)]

theorem loadLine_root {ld : Loading} {hi lo : Nat} (hhi : hi ≤ u64Max) (hlo : lo ≤ u64Max) (hne : ¬(hi = 0 ∧ lo = 0)) :
    loadLine (ascii "root_id=" ++ pad 16 16 hi ++ pad 16 16 lo) ld =
      pure (none, { ld with wal := { ld.wal with rootIdHi := hi, rootIdLo := lo }, sawRoot := true }) := by
  have hlen : ∀ n ≤ u64Max, (pad 16 16 n).length = 16 := fun n hn =>
    length_pad (by norm_num) (by norm_num) (by unfold u64Max at hn; omega)
  have hread : ∀ n ≤ u64Max, strtoull 16 (pad 16 16 n) = (n, []) := fun n hn => by
    have : strtoull 16 (pad 16 16 n ++ []) = (n, []) := strtoull_pad (by norm_num) (by norm_num) hn rfl
    rwa [List.append_nil] at this
  have hvalue : (ascii "root_id=" ++ pad 16 16 hi ++ pad 16 16 lo).drop 8 = pad 16 16 hi ++ pad 16 16 lo := by
    rw [List.append_assoc]
    exact List.drop_left' rfl
  rw [loadLine, if_neg (by simp [ascii]), if_neg (by simp [ascii]), if_neg (by simp [ascii]), if_neg (by simp [ascii]),
    if_pos (by simp [ascii]), hvalue, loadRootId, if_neg (by rw [List.length_append, hlen _ hhi, hlen _ hlo]; simp),
    List.take_left' (hlen _ hhi), List.drop_left' (hlen _ hhi), hread _ hhi, hread _ hlo]
  dsimp only
  rw [if_neg (by simp), if_neg (by simpa using hne)]

theorem loadLine_generation {ld : Loading} {n : Nat} (hn : n ≤ u64Max) :
    loadLine (ascii "generation=" ++ print 10 n) ld = pure (none, { ld with wal := { ld.wal with generation := n } }) := by
  have hread : strtoull 10 (pad 0 10 n ++ []) = (n, []) := strtoull_pad (by norm_num) (by norm_num) hn rfl
  rw [List.append_nil, pad_zero] at hread
  have hvalue : (ascii "generation=" ++ print 10 n).drop 11 = print 10 n := List.drop_left' rfl
  rw [loadLine, if_neg (by simp [ascii]), if_neg (by simp [ascii]), if_pos (by simp [ascii]), hvalue, hread]

theorem loadLine_created {ld : Loading} {s : Bytes} :
    loadLine (ascii "created_unix_nsec=" ++ s) ld = pure (none, ld) := by
  rw [loadLine, if_neg (by simp [ascii]), if_neg (by simp [ascii]), if_neg (by simp [ascii]), if_neg (by simp [ascii]),
    if_neg (by simp [ascii]), if_pos (by simp [ascii])]

theorem loadLine_sequence {ld : Loading} {n : Nat} (hn : n ≤ u64Max) :
    loadLine (ascii "last_sequence=" ++ print 10 n) ld = pure (none, { ld with maxSeq := n }) := by
  have hread : strtoull 10 (pad 0 10 n ++ []) = (n, []) := strtoull_pad (by norm_num) (by norm_num) hn rfl
  rw [List.append_nil, pad_zero] at hread
  have hvalue : (ascii "last_sequence=" ++ print 10 n).drop 14 = print 10 n := List.drop_left' rfl
  rw [loadLine, if_neg (by simp [ascii]), if_neg (by simp [ascii]), if_neg (by simp [ascii]), if_neg (by simp [ascii]),
    if_neg (by simp [ascii]), if_neg (by simp [ascii]), if_pos (by simp [ascii]), hvalue, hread]

theorem loadLine_checkpoint {ld : Loading} {d : Disk} {ck : Checkpoint} (hrel : rel.Plain)
    (hsuffix : hasSuffix rel.path (ascii ".vtc") = true) (hvals : ∀ v ∈ ck.vals, v ≤ u64Max)
    (hsaw : ld.sawCheckpoint = false) :
    (loadLine (ascii "checkpoint=" ++ entryText rel ck.vals) ld).exec Disk.answer d =
      ((none, { ld with wal := { ld.wal with checkpointRelpath := some rel, checkpoint := ck }, sawCheckpoint := true }), d) := by
  have hscan : scanEntry 8 (entryText rel ck.vals) = some (rel.path, ck.vals) :=
    scanEntry_text hrel (List.cons_ne_nil _ _) hvals
  have hvalue : (ascii "checkpoint=" ++ entryText rel ck.vals).drop 11 = entryText rel ck.vals := List.drop_left' rfl
  rw [loadLine, if_neg (by simp [ascii]), if_neg (by simp [ascii]), if_neg (by simp [ascii]), if_neg (by simp [ascii]),
    if_neg (by simp [ascii]), if_neg (by simp [ascii]), if_neg (by simp [ascii]), if_pos (by simp [ascii]),
    hvalue, loadCheckpoint, if_neg (by simp [hsaw]), hscan]
  dsimp only [Checkpoint.vals]
  rw [dif_pos rel.ok, exec_calls_bind (by exact ⟨rfl, trivial⟩)]
  dsimp only
  rw [if_neg (by simp [hsuffix]), exec_calls_bind (by exact ⟨rfl, trivial⟩)]
  rfl

theorem loadLine_segment {ld : Loading} {d : Disk} {first last bytes : Nat} (hrel : rel.Plain) (hfirst : first ≤ u64Max)
    (hlast : last ≤ u64Max) (hbytes : bytes ≤ u64Max) :
    (loadLine (ascii "wal=" ++ entryText rel [first, last, bytes]) ld).exec Disk.answer d =
      ((none, { ld with wal := { ld.wal with segments := ld.wal.segments ++ [⟨rel, first, last, bytes, 0⟩] } }), d) := by
  have hscan : scanEntry 3 (entryText rel [first, last, bytes]) = some (rel.path, [first, last, bytes]) :=
    scanEntry_text hrel (List.cons_ne_nil _ _) (by simp [hfirst, hlast, hbytes])
  have hvalue : (ascii "wal=" ++ entryText rel [first, last, bytes]).drop 4 = entryText rel [first, last, bytes] :=
    List.drop_left' rfl
  rw [loadLine, if_neg (by simp [ascii]), if_neg (by simp [ascii]), if_neg (by simp [ascii]), if_neg (by simp [ascii]),
    if_neg (by simp [ascii]), if_neg (by simp [ascii]), if_neg (by simp [ascii]), if_neg (by simp [ascii]),
    if_pos (by simp [ascii]), hvalue, loadSegment, hscan]
  dsimp only
  rw [dif_pos rel.ok, exec_calls_bind (by exact ⟨rfl, trivial⟩)]
  dsimp only
  rw [exec_calls_bind (by exact ⟨rfl, rfl, trivial⟩)]
  rfl

end

/-! ### The lines of a manifest -/

/-- The segment as a manifest brings it back. -/
def Segment.reset (seg : Segment) : Segment := { seg with records := 0 }

/-- What loading makes of a new log when the manifest is that of `wal`. -/
def Log.reloaded (fresh wal : Log) : Log :=
  { fresh with
    rootIdHi := wal.rootIdHi
    rootIdLo := wal.rootIdLo
    generation := wal.generation
    checkpointRelpath := wal.checkpointRelpath
    checkpoint := if wal.checkpointRelpath.isSome then wal.checkpoint else fresh.checkpoint
    segments := wal.published.map Segment.reset
    nextSeq := wal.nextSeq }

section
variable {fresh wal : Log} {now : Nat} {d : Disk} {ld ld' : Loading} {line : Bytes} {lines : List Bytes}
  {segs : List Segment}

theorem exec_loadLines_cons (h : (loadLine line ld).exec Disk.answer d = ((none, ld'), d)) :
    (loadLines (line :: lines) ld).exec Disk.answer d = (loadLines lines ld').exec Disk.answer d := by
  rw [loadLines, Prog.exec_bind, h]

theorem exec_loadLines_pure (h : loadLine line ld = pure (none, ld')) :
    (loadLines (line :: lines) ld).exec Disk.answer d = (loadLines lines ld').exec Disk.answer d :=
  exec_loadLines_cons (by rw [h]; rfl)

theorem exec_loadLines_segments (h : ∀ seg ∈ segs, seg.relpath.Plain ∧ seg.firstSeq ≤ u64Max ∧ seg.lastSeq ≤ u64Max ∧
    seg.bytes ≤ u64Max) :
    (loadLines (segs.map fun seg => ascii "wal=" ++ entryText seg.relpath [seg.firstSeq, seg.lastSeq, seg.bytes]) ld).exec
      Disk.answer d =
      ((none, { ld with wal := { ld.wal with segments := ld.wal.segments ++ segs.map Segment.reset } }), d) := by
  induction segs generalizing ld with
  | nil => simp [loadLines]
  | cons seg segs ih =>
    obtain ⟨⟨hrel, hfirst, hlast, hbytes⟩, hsegs⟩ := List.forall_mem_cons.mp h
    rw [List.map_cons, exec_loadLines_cons (loadLine_segment hrel hfirst hlast hbytes), ih hsegs]
    simp [Segment.reset]

theorem Log.Publishable.exec_lines (h : wal.Publishable) (hr : Readable wal.name.bytes) (hname : fresh.name = wal.name)
    (hnone : fresh.checkpointRelpath = none) :
    (loadLines (manifestLines wal now) ⟨{ fresh with segments := [] }, 0, false, false, false, false, false⟩).exec
      Disk.answer d =
      ((none, ⟨{ fresh.reloaded wal with nextSeq := fresh.nextSeq }, wal.nextSeq - 1, true, true, true, true,
        wal.checkpointRelpath.isSome⟩), d) := by
  have hsegs : ∀ seg ∈ wal.published, seg.relpath.Plain ∧ seg.firstSeq ≤ u64Max ∧ seg.lastSeq ≤ u64Max ∧
      seg.bytes ≤ u64Max := fun seg hseg => by
    obtain ⟨hplain, -, hnum⟩ := h.segments seg hseg
    exact ⟨hplain, hnum⟩
  have hlast : (if wal.nextSeq = 0 then 0 else wal.nextSeq - 1) = wal.nextSeq - 1 := if_neg (by have := h.nextSeq; omega)
  unfold manifestLines
  rw [hlast]
  simp only [List.cons_append, List.nil_append]
  rw [exec_loadLines_pure loadLine_magic, exec_loadLines_pure loadLine_version, exec_loadLines_pure (loadLine_name hname hr.1),
    exec_loadLines_pure (loadLine_root h.root.1 h.root.2.1 h.root.2.2), exec_loadLines_pure (loadLine_generation h.generation),
    exec_loadLines_pure loadLine_created, exec_loadLines_pure (loadLine_sequence (by have := h.nextSeq; omega))]
  cases hck : wal.checkpointRelpath with
  | none =>
    rw [Option.map_none, Option.toList_none, List.nil_append, exec_loadLines_segments hsegs]
    simp [Log.reloaded, hck, hnone]
  | some rel =>
    obtain ⟨hplain, hsuffix, hvals, -⟩ := h.checkpoint rel hck
    rw [Option.map_some, Option.toList_some, List.cons_append, List.nil_append,
      exec_loadLines_cons (loadLine_checkpoint hplain hsuffix hvals rfl), exec_loadLines_segments hsegs]
    simp [Log.reloaded, hck]

/-! ### Orphans -/

theorem exec_unlink {p : Bytes} : ∃ r, (attempt (.unlink p)).exec Disk.answer d = (r, d.erase p) ∧
    (r = none ∨ r = some .enoent) := by
  unfold attempt
  rw [Prog.exec_bind, Prog.exec_sys]
  unfold Disk.answer
  dsimp only
  cases (d.get p).isSome
  · exact ⟨_, rfl, .inr rfl⟩
  · exact ⟨_, rfl, .inl rfl⟩

/-- The files of a directory that the loop does not keep are gone. -/
theorem exec_gcLoop {dir : Bytes} {keep : Bytes → Bool} {names : List Bytes} {removed : Bool} :
    ∃ r d', (gcLoop dir keep names removed).exec Disk.answer d = ((none, r), d') ∧
      ∀ q, (∀ name ∈ names, keep name = false → q ≠ dir ++ name) → d'.get q = d.get q := by
  induction names generalizing d removed with
  | nil => exact ⟨removed, d, rfl, fun _ _ => rfl⟩
  | cons name names ih =>
    unfold gcLoop
    split
    · obtain ⟨r, d', he, hget⟩ := @ih d removed
      exact ⟨r, d', he, fun q hq => hget q fun n hn => hq n (List.mem_cons_of_mem _ hn)⟩
    · rename_i hkeep
      obtain ⟨e, he, hcase⟩ := @exec_unlink d (dir ++ name)
      obtain ⟨r, d', hr, hget⟩ := @ih (d.erase (dir ++ name)) true
      refine ⟨r, d', ?_, fun q hq => ?_⟩
      · rw [exec_calls_bind (by exact ⟨rfl, trivial⟩)]
        dsimp only
        have hstay : d.after [.alloc] = d := rfl
        rw [hstay, Prog.exec_bind, he]
        rcases hcase with rfl | rfl <;> exact hr
      · rw [hget q fun n hn => hq n (List.mem_cons_of_mem _ hn), Disk.get_erase,
          if_neg (hq name List.mem_cons_self (by simpa using hkeep))]

end

/-- The files that a log has to find again. -/
def Log.Names (wal : Log) (q : Bytes) : Prop :=
  q = ascii "manifest" ∨ (∃ seg ∈ wal.segments, ascii "wal/" <+: seg.relpath.path ∧ q = seg.relpath.path) ∨
    ∃ rel ∈ wal.checkpointRelpath, hasSuffix rel.path (ascii ".vtc") = true ∧ q = rel.path

section
variable {wal : Log} {d : Disk} {dir name q : Bytes}

theorem Disk.mem_names (h : name ∈ d.names dir) : 47 ∉ name ∧ (d.get (dir ++ name)).isSome := by
  unfold Disk.names at h
  obtain ⟨x, hx, rfl⟩ := List.mem_map.mp h
  obtain ⟨hmem, hcond⟩ := List.mem_filter.mp hx
  simp only [Bool.and_eq_true, List.isPrefixOf_iff_prefix, Bool.not_eq_true', List.contains_eq_mem,
    decide_eq_false_iff_not] at hcond
  refine ⟨hcond.2, ?_⟩
  obtain ⟨t, ht⟩ := hcond.1
  have hpath : dir ++ x.1.drop dir.length = x.1 := by
    rw [← ht, List.drop_left' rfl]
  rw [hpath, Disk.get, Option.isSome_map, List.find?_isSome]
  exact ⟨x, hmem, by simp⟩

theorem basename_append (h : 47 ∉ name) : basename (ascii "wal/" ++ name) = name := by
  have hname : ∀ x ∈ name.reverse, decide (x ≠ 47) = true := by
    intro x hx
    have : x ≠ 47 := by
      rintro rfl
      exact h (List.mem_reverse.mp hx)
    simpa using this
  unfold basename List.rtakeWhile
  rw [List.reverse_append, List.takeWhile_append_of_pos hname]
  simp [ascii]

/-- No file has two endings. -/
theorem hasSuffix_unique {p : Bytes} (h : hasSuffix p (ascii ".vtc") = true) : hasSuffix p (ascii ".vtw") = false := by
  by_contra h'
  rw [Bool.not_eq_false] at h'
  unfold hasSuffix at h h'
  rw [List.isSuffixOf_iff_suffix] at h h'
  have hlen : (ascii ".vtc").length = (ascii ".vtw").length := by simp [ascii]
  have heq := (List.suffix_of_suffix_length_le h h' hlen.le).eq_of_length hlen
  exact absurd heq (by simp [ascii])

/-- The collection of orphans leaves what the log has to find. -/
theorem exec_manifestOrphanGcLocked :
    ∃ d', (manifestOrphanGcLocked wal).exec Disk.answer d = (none, d') ∧ ∀ q, wal.Names q → d'.get q = d.get q := by
  unfold manifestOrphanGcLocked
  have hdir : ∀ (d : Disk) dir, (readdir dir).exec Disk.answer d = (.ok (d.names dir), d) := fun _ _ => rfl
  rw [Prog.exec_bind, hdir]
  dsimp only [Except.toOption, Option.getD_some]
  obtain ⟨removed, d₁, he₁, hget₁⟩ := @exec_gcLoop d (ascii "wal/")
    (fun name => !hasSuffix name (ascii ".vtw") || segmentIsManifested wal name) (d.names (ascii "wal/")) false
  rw [Prog.exec_bind, he₁]
  dsimp only
  rw [Prog.exec_bind, hdir]
  dsimp only
  obtain ⟨removed, d₂, he₂, hget₂⟩ := @exec_gcLoop d₁ [] (keepsInRoot wal) (d₁.names []) removed
  rw [Prog.exec_bind, he₂]
  dsimp only
  -- The directories are synced if a file was removed, which changes no file.
  have hsync : ∀ b : Bool, (calls (if b then [.fsyncDir (ascii "wal"), .fsyncDir []] else [])).exec Disk.answer d₂ =
      (none, d₂) := by
    intro b
    cases b <;> rfl
  refine ⟨d₂, hsync removed, fun q hq => ?_⟩
  rw [hget₂ q fun name hname hkeep hqn => ?_, hget₁ q fun name hname hkeep hqn => ?_]
  · -- In the directory of the segments
    have hslash := (Disk.mem_names hname).1
    simp only [Bool.or_eq_false_iff, Bool.not_eq_false'] at hkeep
    rcases hq with rfl | ⟨seg, hseg, -, rfl⟩ | ⟨rel, -, hsuffix, rfl⟩
    · exact absurd (congrArg List.head? hqn) (by simp [ascii])
    · refine absurd hkeep.2 ?_
      rw [Bool.not_eq_false, segmentIsManifested, List.any_eq_true]
      exact ⟨seg, hseg, by rw [hqn, basename_append hslash, decide_eq_true_eq]⟩
    · have hvtw : hasSuffix rel.path (ascii ".vtw") = true := by
        unfold hasSuffix at hkeep ⊢
        rw [List.isSuffixOf_iff_suffix] at hkeep ⊢
        rw [hqn]
        exact hkeep.1.trans (List.suffix_append _ _)
      exact absurd hvtw (by simp [hasSuffix_unique hsuffix])
  · -- In the root
    have hslash := (Disk.mem_names hname).1
    rw [List.nil_append] at hqn
    subst hqn
    rcases hq with rfl | ⟨seg, -, hpre, rfl⟩ | ⟨rel, hrel, -, rfl⟩
    · exact absurd hkeep (by simp [keepsInRoot, ascii])
    · exact hslash (hpre.subset (by decide))
    · refine absurd hkeep ?_
      simp only [keepsInRoot, Option.mem_def.mp hrel, Option.any_some, decide_true, Bool.or_true, Bool.true_eq_false,
        not_false_eq_true]

end

/-! ### The whole text -/

section
variable {csum : Bytes → UInt64} {fresh wal : Log} {now : Nat} {d : Disk} {file : File} {segs : List Segment} {n : Nat}

theorem rangeOk_reset : rangeOk n (segs.map Segment.reset) = rangeOk n segs := by
  induction segs generalizing n with
  | nil => rfl
  | cons seg segs ih =>
    rw [List.map_cons, rangeOk, rangeOk, ih]
    simp only [ne_eq, List.map_eq_nil_iff]
    rfl

/-- The active segment is the last of those that a manifest names. -/
theorem Log.published_concat {seg : Segment} (h : wal.activeSegment = some seg) :
    (∃ l, wal.published = l ++ [seg]) ∧ seg.lastSeq = 0 := by
  obtain ⟨hlast, hzero⟩ := Option.filter_eq_some_iff.mp h
  obtain ⟨l, hl⟩ := List.getLast?_eq_some_iff.mp hlast
  refine ⟨⟨l.filter fun seg => wal.activeSegment = some seg || !(seg.bytes = 0 && seg.records = 0), ?_⟩, by simpa using hzero⟩
  rw [Log.published, hl, List.filter_append, List.filter_singleton]
  simp [h]

theorem Log.Publishable.buffer (h : wal.Publishable) (htext : file.bytes = manifestText csum wal now) :
    file.bytes.takeWhile (· ≠ 0) = manifestText csum wal now := by
  have hnul : 0 ∉ manifestText csum wal now := by
    simp only [manifestText, List.mem_append, not_or]
    refine ⟨not_mem_unlines fun l hl => ?_, ⟨by decide, not_mem_pad (by norm_num) (by norm_num) rfl⟩, by decide⟩
    rcases h.lines l hl with rfl | hl
    · rw [List.mem_append, not_or]
      exact ⟨by decide, wal.name.noNul⟩
    · exact hl.nul
  rw [htext, List.takeWhile_eq_self_iff]
  intro x hx
  have : x ≠ 0 := by
    rintro rfl
    exact hnul hx
  simpa using this

theorem exec_readFile {p : Bytes} (hfile : d.get p = some file) : (readFile p).exec Disk.answer d = (.ok file, d) := by
  change d.answer (.readFile _) = _
  unfold Disk.answer
  dsimp only
  rw [hfile]
  rfl

theorem Log.Publishable.exec_loadEnd (h : wal.Publishable) :
    ∃ d', (loadEnd ⟨{ fresh.reloaded wal with nextSeq := fresh.nextSeq }, wal.nextSeq - 1, true, true, true, true,
        wal.checkpointRelpath.isSome⟩).exec Disk.answer d = ((none, fresh.reloaded wal), d') ∧
      ∀ q, (fresh.reloaded wal).Names q → d'.get q = d.get q := by
  obtain ⟨seg, hseg⟩ := Option.isSome_iff_exists.mp h.active
  obtain ⟨⟨l, hl⟩, hzero⟩ := Log.published_concat hseg
  have hactive : ({ fresh.reloaded wal with nextSeq := fresh.nextSeq } : Log).activeSegment ≠ none := by
    have hlast : (fresh.reloaded wal).segments = l.map Segment.reset ++ [seg.reset] := by
      simp [Log.reloaded, hl]
    simp [Log.activeSegment, hlast, Segment.reset, hzero]
  have hnext : wal.nextSeq - 1 + 1 = wal.nextSeq := by
    have := h.nextSeq
    omega
  -- The first segment has to begin behind the checkpoint.
  have hstart : (if wal.checkpointRelpath.isSome then ((fresh.reloaded wal).checkpoint.walSequence + 1) % 2 ^ 64 else 1) =
      if wal.checkpointRelpath.isSome then wal.checkpoint.walSequence + 1 else 1 := by
    cases hck : wal.checkpointRelpath with
    | none => rfl
    | some rel =>
      have hlt := (h.checkpoint rel hck).2.2.2
      simp only [Log.reloaded, hck, Option.isSome_some, if_true]
      unfold u64Max at hlt
      omega
  unfold loadEnd
  dsimp only
  rw [hstart, if_neg (by simp), if_neg, if_neg]
  · rw [if_neg hactive, if_neg hactive, if_neg hactive, hnext, Nat.mod_eq_of_lt (by have := h.nextSeq; unfold u64Max at this; omega),
      exec_calls_bind (by exact trivial)]
    dsimp only
    -- There is an active segment, so that none is added.
    have hsame : (fresh.reloaded wal).segments ++ [] = (fresh.reloaded wal).segments := List.append_nil _
    obtain ⟨d', he, hget⟩ := @exec_manifestOrphanGcLocked (fresh.reloaded wal) (d.after [])
    refine ⟨d', ?_, hget⟩
    have hwal : ({ fresh.reloaded wal with segments := (fresh.reloaded wal).segments ++ [], nextSeq := wal.nextSeq } : Log) =
        fresh.reloaded wal := by
      rw [hsame]
      rfl
    rw [hwal, Prog.exec_bind, he]
    rfl
  · have hranges := h.ranges
    rw [← rangeOk_reset] at hranges
    simpa [Log.reloaded] using hranges
  · rintro ⟨hsome, hzero⟩
    rw [if_pos hsome] at hzero
    omega

/-- What a log of a readable name publishes is read back by any new log of that name. -/
theorem Log.Publishable.exec_load (h : wal.Publishable) (hr : Readable wal.name.bytes) (hname : fresh.name = wal.name)
    (hnone : fresh.checkpointRelpath = none) (hfile : d.get (ascii "manifest") = some file)
    (htext : file.bytes = manifestText csum wal now) :
    ∃ d', (manifestLoadLocked csum fresh).exec Disk.answer d = ((none, fresh.reloaded wal), d') ∧
      ∀ q, (fresh.reloaded wal).Names q → d'.get q = d.get q := by
  have hmark : strstr checksumMark (manifestText csum wal now) = some (manifestBody wal now).length := by
    rw [manifestText, List.append_assoc checksumMark]
    exact strstr_unlines (h.plainLines hr)
  have hbody : (manifestText csum wal now).take (manifestBody wal now).length = manifestBody wal now := List.take_left' rfl
  have htail : (manifestText csum wal now).drop (manifestBody wal now).length =
      checksumMark ++ pad 16 16 (csum (manifestBody wal now)).toNat ++ [10] := List.drop_left' rfl
  have hsum : (csum (manifestBody wal now)).toNat ≤ u64Max := by
    have := (csum (manifestBody wal now)).toNat_lt
    unfold u64Max
    omega
  have hlen : (pad 16 16 (csum (manifestBody wal now)).toNat).length = 16 :=
    length_pad (by norm_num) (by norm_num) (by unfold u64Max at hsum; omega)
  have hnumber : strtoull 16 (pad 16 16 (csum (manifestBody wal now)).toNat ++ [10]) =
      ((csum (manifestBody wal now)).toNat, [10]) := strtoull_pad (by norm_num) (by norm_num) hsum rfl
  have hafter : (checksumMark ++ pad 16 16 (csum (manifestBody wal now)).toNat ++ [10]).drop checksumMark.length =
      pad 16 16 (csum (manifestBody wal now)).toNat ++ [10] := by
    rw [List.append_assoc, List.drop_left' rfl]
  have hlines : (fields [10] (manifestBody wal now)).dropLast = manifestLines wal now := by
    rw [manifestBody, fields_unlines (h.plainLines hr), List.dropLast_concat]
  unfold manifestLoadLocked
  have hstay : d.after [.alloc] = d := rfl
  rw [exec_calls_bind (by exact ⟨rfl, trivial⟩)]
  dsimp only
  rw [hstay, Prog.exec_bind, exec_readFile hfile]
  dsimp only
  rw [h.buffer htext, hmark]
  dsimp only
  rw [hbody, htail, hafter, hnumber, hlines]
  dsimp only
  rw [if_neg (by rw [manifestBody, getLast?_unlines (by simp [manifestLines])]; simp),
    if_neg (by simp [hlen]), if_neg, if_neg (by simp), Prog.exec_bind, h.exec_lines hr hname hnone]
  · exact h.exec_loadEnd
  · rw [Classical.not_not, List.drop_left' (by rw [List.length_append, hlen])]

/-- The line of the name, in what stands in front of the first mark. -/
theorem name_of_front {name r y : Bytes} {j : Nat} (hj : strstr checksumMark (name ++ 10 :: r) = some j)
    (hy : ∃ z, (name ++ 10 :: r).take j = y ++ 10 :: z) (hnl : 10 ∉ y) (hcut : y.take 255 = name) : Readable name := by
  obtain ⟨z, hz⟩ := hy
  have hpre : y <+: name := by
    refine prefix_of_not_mem (l := r) hnl ?_
    exact ((List.prefix_append y (10 :: z)).trans (hz ▸ List.take_prefix _ _))
  have hlen : y.length = name.length := by
    have := hpre.length_le
    have := congrArg List.length hcut
    rw [List.length_take] at this
    omega
  have hyn : y = name := hpre.eq_of_length hlen
  subst hyn
  refine ⟨?_, hnl, fun hm => ?_⟩
  · have := congrArg List.length hcut
    rw [List.length_take] at this
    omega
  · obtain ⟨n, hn, hle⟩ := strstr_infix (l := 10 :: r) hm
    cases hj.symm.trans hn
    have := congrArg List.length hz
    have hmark : checksumMark.length = 14 := rfl
    rw [List.length_take, List.length_append, List.length_append, List.length_cons] at this
    omega

theorem loadLine_other {ld : Loading} {y : Bytes} (h : y.take 255 ≠ ld.wal.name.bytes) :
    loadLine (ascii "namespace=" ++ y) ld = pure (some .einval, ld) := by
  have hdrop : (ascii "namespace=" ++ y).drop 10 = y := List.drop_left' rfl
  rw [loadLine, if_neg (by simp [ascii]), if_neg (by simp [ascii]), if_neg (by simp [ascii]), if_pos (by simp [ascii]),
    hdrop, if_pos h]

/-- A manifest up to the name in it. -/
def manifestFront : Bytes := ascii "magic=VTM1" ++ 10 :: (ascii "version=1" ++ 10 :: ascii "namespace=")

theorem manifestFront_append (s : Bytes) : manifestFront ++ s =
    ascii "magic=VTM1" ++ 10 :: (ascii "version=1" ++ 10 :: (ascii "namespace=" ++ s)) := by
  simp only [manifestFront, List.append_assoc, List.cons_append]

theorem manifestText_front : ∃ r, manifestText csum wal now = manifestFront ++ (wal.name.bytes ++ 10 :: r) := by
  have hlines : manifestLines wal now = ascii "magic=VTM1" :: ascii "version=1" ::
      (ascii "namespace=" ++ wal.name.bytes) :: (manifestLines wal now).drop 3 := rfl
  rw [manifestText]
  generalize checksumMark ++ pad 16 16 (csum (manifestBody wal now)).toNat ++ [10] = t
  refine ⟨unlines ((manifestLines wal now).drop 3) ++ t, ?_⟩
  rw [manifestFront_append]
  conv_lhs => rw [manifestBody, hlines, unlines_cons, unlines_cons, unlines_cons, List.append_assoc (ascii "namespace=")]

/-- The search for the checksum goes over the front. -/
theorem strstr_front (s : Bytes) :
    strstr checksumMark (manifestFront ++ s) = (strstr checksumMark s).map (manifestFront.length + ·) := by
  rw [manifestFront_append, strstr_line (by decide) (by decide), strstr_line (by decide) (by decide), strstr_name,
    Option.map_map, Option.map_map]
  congr 1
  funext n
  simp only [Function.comp_apply, manifestFront, List.length_append, List.length_cons]
  have hkey : (ascii "namespace=").length = 10 := rfl
  omega

theorem fields_front {y : Bytes} (h : 10 ∉ y) (z : Bytes) : fields [10] (manifestFront ++ (y ++ 10 :: z)) =
    ascii "magic=VTM1" :: ascii "version=1" :: (ascii "namespace=" ++ y) :: fields [10] z := by
  have hkey : 10 ∉ ascii "namespace=" ++ y := by
    rw [List.mem_append, not_or]
    exact ⟨by decide, h⟩
  rw [manifestFront_append, fields_line (by decide), fields_line (by decide), ← List.append_assoc, fields_line hkey]

/-- The front does not end a line. -/
theorem mem_of_front {y : Bytes} (h : (manifestFront ++ y).getLast? = some 10) : 10 ∈ y := by
  cases y with
  | nil => exact absurd h (by decide)
  | cons b y =>
    rw [List.getLast?_append_of_ne_nil _ (List.cons_ne_nil b y)] at h
    exact List.mem_of_getLast? h

/-- What a log of any other name publishes is refused. -/
theorem Log.Publishable.exec_load_fails (h : wal.Publishable) (hr : ¬ Readable wal.name.bytes) (hname : fresh.name = wal.name)
    (hfile : d.get (ascii "manifest") = some file) (htext : file.bytes = manifestText csum wal now) :
    ((manifestLoadLocked csum fresh).exec Disk.answer d).1.1 ≠ none := by
  obtain ⟨r, hsplit⟩ := @manifestText_front csum wal now
  have hstay : d.after [.alloc] = d := rfl
  unfold manifestLoadLocked
  rw [exec_calls_bind (by exact ⟨rfl, trivial⟩)]
  dsimp only
  rw [hstay, Prog.exec_bind, exec_readFile hfile]
  dsimp only
  rw [h.buffer htext, hsplit, strstr_front]
  cases hj : strstr checksumMark (wal.name.bytes ++ 10 :: r) with
  | none => simp [Log.failLocked]
  | some j =>
    simp only [Option.map_some]
    rw [List.take_length_add_append]
    split
    · simp [Log.failLocked]
    split
    · simp [Log.failLocked]
    split
    · simp [Log.failLocked]
    split
    · simp [Log.failLocked]
    rename_i hlast _ _ _
    rw [Classical.not_not] at hlast
    -- The first line of the name is not all of it, wherever the mark was found
    obtain ⟨y, z, hy, hny⟩ := List.eq_append_cons_of_mem (mem_of_front hlast)
    have hcut : y.take 255 ≠ fresh.name.bytes := by
      rw [hname]
      exact fun hcut => hr (name_of_front hj ⟨z, hy⟩ hny hcut)
    rw [hy, fields_front hny, List.dropLast_cons_of_ne_nil (by simp), List.dropLast_cons_of_ne_nil (by simp),
      List.dropLast_cons_of_ne_nil (fields_ne_nil (by simp) _), Prog.exec_bind, exec_loadLines_pure loadLine_magic,
      exec_loadLines_pure loadLine_version, loadLines, loadLine_other hcut]
    simp [Log.failLocked]

/-- A manifest brings back the log that it was written for, if the name of the log can be read. Otherwise it is
    refused. -/
theorem manifest_round_trip (h : wal.Publishable) (hname : fresh.name = wal.name) (hnone : fresh.checkpointRelpath = none)
    (hfile : d.get (ascii "manifest") = some file) (htext : file.bytes = manifestText csum wal now) :
    (Readable wal.name.bytes → ∃ d', (manifestLoadLocked csum fresh).exec Disk.answer d = ((none, fresh.reloaded wal), d') ∧
      ∀ q, (fresh.reloaded wal).Names q → d'.get q = d.get q) ∧
    (¬ Readable wal.name.bytes → ((manifestLoadLocked csum fresh).exec Disk.answer d).1.1 ≠ none) :=
  ⟨fun hr => h.exec_load hr hname hnone hfile htext, fun hr => h.exec_load_fails hr hname hfile htext⟩

end

section
variable {name : CString}

/-- A log behind its fifth checkpoint. -/
def Log.fifth (name : CString) : Log :=
  { Log.new name 0 [] with
    generation := 5
    nextSeq := 8
    checkpointRelpath := some (Wal.checkpointRelpath 5)
    checkpoint := ⟨5, 7, 7, 0, 0, 2, 144, 99⟩
    segments := [.new 8] }

theorem published_fifth : (Log.fifth name).published = [.new 8] := by
  simp [Log.published, Log.activeSegment, Log.fifth, Segment.new]

theorem publishable_fifth : (Log.fifth name).Publishable where
  root := by
    have hhi : (Log.fifth name).rootIdHi = 0 := rfl
    have hlo : (Log.fifth name).rootIdLo = 1 := rfl
    rw [hhi, hlo]
    decide
  generation := by simp [Log.fifth, u64Max]
  nextSeq := by simp [Log.fifth, u64Max]
  active := by simp [Log.activeSegment, Log.fifth, Segment.new]
  checkpoint rel h := by
    cases h
    exact ⟨checkpointRelpath_plain (by decide), hasSuffix_checkpointRelpath, by simp [Log.fifth, Checkpoint.vals, u64Max],
      by simp [Log.fifth, u64Max]⟩
  segments seg h := by
    rw [published_fifth, List.mem_singleton] at h
    subst h
    have hdir : ascii "wal/" <+: (Segment.new 8).relpath.path := ⟨pad 20 10 8 ++ ascii ".vtw", (List.append_assoc _ _ _).symm⟩
    exact ⟨segmentRelpath_plain (by decide), hdir, by decide, by decide, by decide⟩
  ranges := by
    rw [published_fifth]
    simp [rangeOk, Log.fifth, Segment.new]

/-- The manifest of a log by the name `ns` brings it back. The one of a log by the name `a\nb` is refused. -/
theorem manifest_round_trip_fifth :
    (∃ file : File, file.bytes = manifestText (fun _ => 0) (.fifth ⟨[110, 115], by decide⟩) 0 ∧
      ∃ d', (manifestLoadLocked (fun _ => 0) (.new ⟨[110, 115], by decide⟩ 0 [])).exec Disk.answer
          [(ascii "manifest", file)] =
        ((none, (Log.new ⟨[110, 115], by decide⟩ 0 []).reloaded (.fifth ⟨[110, 115], by decide⟩)), d')) ∧
    ∃ file : File, file.bytes = manifestText (fun _ => 0) (.fifth ⟨[97, 10, 98], by decide⟩) 0 ∧
      ((manifestLoadLocked (fun _ => 0) (.new ⟨[97, 10, 98], by decide⟩ 0 [])).exec Disk.answer
        [(ascii "manifest", file)]).1.1 ≠ none := by
  have hfile : ∀ file, Disk.get [(ascii "manifest", file)] (ascii "manifest") = some file := fun file => by simp [Disk.get]
  constructor
  · have hlen : (manifestText (fun _ => 0) (.fifth ⟨[110, 115], by decide⟩) 0).length < 2 ^ 63 := by decide +kernel
    have hname : (Log.new ⟨[110, 115], by decide⟩ 0 []).name = (Log.fifth ⟨[110, 115], by decide⟩).name := rfl
    have hnone : (Log.new ⟨[110, 115], by decide⟩ 0 []).checkpointRelpath = none := rfl
    have htext : (⟨_, hlen⟩ : File).bytes = manifestText (fun _ => 0) (.fifth ⟨[110, 115], by decide⟩) 0 := rfl
    obtain ⟨d', hd', -⟩ := (manifest_round_trip publishable_fifth hname hnone (hfile _) htext).1 (by constructor <;> decide)
    exact ⟨_, htext, d', hd'⟩
  · have hlen : (manifestText (fun _ => 0) (.fifth ⟨[97, 10, 98], by decide⟩) 0).length < 2 ^ 63 := by decide +kernel
    have hname : (Log.new ⟨[97, 10, 98], by decide⟩ 0 []).name = (Log.fifth ⟨[97, 10, 98], by decide⟩).name := rfl
    have hnone : (Log.new ⟨[97, 10, 98], by decide⟩ 0 []).checkpointRelpath = none := rfl
    have htext : (⟨_, hlen⟩ : File).bytes = manifestText (fun _ => 0) (.fifth ⟨[97, 10, 98], by decide⟩) 0 := rfl
    have hr : ¬ Readable (Log.fifth ⟨[97, 10, 98], by decide⟩).name.bytes := fun hr => hr.2.1 (by decide)
    exact ⟨_, htext, (manifest_round_trip publishable_fifth hname hnone (hfile _) htext).2 hr⟩

end

/-! ### From the publication -/

section
variable {csum : Bytes → UInt64} {fresh wal : Log} {d : Disk}

/-- Two writes to an empty file put the one text behind the other. -/
theorem written_twice {p a b : Bytes} (hf : d.get p = some .empty)
    (h : d.accepts [.write p a, .write p b, .fsync p]) :
    ∃ f, (d.after [.write p a, .write p b, .fsync p]).get p = some f ∧ f.bytes = a ++ b := by
  obtain ⟨hfirst, hsecond, -⟩ := h
  obtain ⟨f, heq, hbytes⟩ := Disk.answer_write hf hfirst
  rw [heq] at hsecond
  obtain ⟨g, heq', hbytes'⟩ := Disk.answer_write (by rw [Disk.get_set, if_pos rfl]) hsecond
  have hafter : d.after [.write p a, .write p b, .fsync p] = (d.set p f).set p g := by
    rw [Disk.after, List.foldl_cons, List.foldl_cons, heq, heq']
    rfl
  refine ⟨g, ?_, ?_⟩
  · rw [hafter, Disk.get_set, if_pos rfl]
  · rw [hbytes', hbytes]
    rfl

/-- A file is found by the name it is renamed to. -/
theorem renamed {src dst : Bytes} {f : File} (hf : d.get src = some f) (hne : dst ≠ src) :
    (d.after [.close src, .rename src dst, .fsyncDir []]).get dst = some f := by
  have hafter : d.after [.close src, .rename src dst, .fsyncDir []] = (d.set dst f).erase src := by
    simp only [Disk.after, List.foldl_cons, List.foldl_nil, Disk.answer, hf]
  rw [hafter, Disk.get_erase, if_neg hne, Disk.get_set, if_pos rfl]

/-- However the system answers, a publication that succeeds leaves the text of its log in the manifest. -/
theorem post_published :
    Prog.Post Disk.Step (manifestPublishLocked csum wal) d fun r d' =>
      r.1 = none → r.2 = { wal with generation := (wal.generation + 1) % 2 ^ 64 } ∧
        ∃ now file, d'.get (ascii "manifest") = some file ∧ file.bytes = manifestText csum r.2 now := by
  unfold manifestPublishLocked
  split
  · simp
  refine post_calls_bind (by decide) (by simp [Log.failLocked]) fun _ => ?_
  dsimp only
  rw [Prog.post_bind]
  refine post_time.mono fun x t ht => ?_
  subst ht
  cases x with
  | error e => simp [Log.failLocked]
  | ok now =>
    refine post_calls_bind (by decide) (by simp [Log.failLocked]) fun _ => ?_
    refine post_calls_bind (by decide) (by simp [Log.failLocked]) fun _ => ?_
    refine post_calls_bind (by simp [Call.plain]) (fun e t => ?_) fun hwrites => ?_
    · dsimp only
      rw [Prog.post_bind]
      exact fun _ _ _ => by simp [Log.failLocked]
    refine post_calls_bind (by decide) (by simp [Log.failLocked]) fun _ => ?_
    rw [Prog.post_pure]
    refine fun _ => ⟨rfl, now, ?_⟩
    -- the scratch file has the text, and its rename is the last change
    obtain ⟨file, hfile, hbytes⟩ := written_twice (by rw [Disk.after]; exact Disk.get_set.trans (if_pos rfl)) hwrites
    have hne : ascii "manifest" ≠ ascii "manifest.tmp" := by simp [ascii]
    exact ⟨file, renamed hfile hne, hbytes⟩

/-- A log that has published its manifest is read back by any new log of its name, if the name can be read. Otherwise
    it is refused. -/
theorem publish_round_trip (h : wal.Publishable) (hname : fresh.name = wal.name) (hnone : fresh.checkpointRelpath = none) :
    Prog.Post Disk.Step (manifestPublishLocked csum wal) d fun r d' => r.1 = none →
      (Readable wal.name.bytes → ∃ d'', (manifestLoadLocked csum fresh).exec Disk.answer d' =
          ((none, fresh.reloaded r.2), d'') ∧ ∀ q, (fresh.reloaded r.2).Names q → d''.get q = d'.get q) ∧
      (¬ Readable wal.name.bytes → ((manifestLoadLocked csum fresh).exec Disk.answer d').1.1 ≠ none) := by
  refine post_published.mono fun r d' hr hn => ?_
  obtain ⟨hwal, now, file, hfile, htext⟩ := hr hn
  have hpub : r.2.Publishable := by
    rw [hwal]
    exact { h with generation := by unfold u64Max; dsimp only; omega }
  have hsame : r.2.name = wal.name := by rw [hwal]
  rw [← hsame]
  exact ⟨fun hreadable => hpub.exec_load hreadable (hname.trans hsame.symm) hnone hfile htext,
    fun hreadable => hpub.exec_load_fails hreadable (hname.trans hsame.symm) hfile htext⟩

end

end Cachetag.Wal
