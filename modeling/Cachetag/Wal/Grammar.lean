import Cachetag.Wal.Append

/-! The grammar of a segment file.

`FollowsGrammar` is what a replay of a segment is meant to do: to deliver the longest chain of frames that the file
starts with, to ask of a closed segment that this is the whole file, to let an active one end in anything but a frame
with a wrong number, and to be followed by the next append. The loop misses it for one kind of tail, a header that
announces more than memory can hold, and when the numbers are used up. -/

namespace Cachetag.Wal
open Frames

section
variable {σ : Type} {csum : Bytes → UInt64} {d : Disk} {segs : List Segment} {rs : List Record} {p : Bytes}
  {maxSeq : Nat} {seg : Segment} {file : File}

/-- The segment is taken, by a callback that takes every record. -/
def Taken (csum : Bytes → UInt64) (seg : Segment) (file : File) (maxSeq : Nat) : Prop :=
  (replaySegment csum (.quiet file) (some fun (s : Unit) _ => (s, none)) seg maxSeq ()).1 = none

/-- What a replay of a segment is meant to do, with `rs` and `p` the longest chain that the file starts with. -/
structure FollowsGrammar (csum : Bytes → UInt64) (seg : Segment) (file : File) (maxSeq : Nat) (rs : List Record)
    (p : Bytes) : Prop where
  /-- It delivers and counts the chain. -/
  replay : ∀ (σ : Type) (f : ReplayFn σ), Accepting f → ∀ priv, ∃ e seg',
    replaySegment csum (.quiet file) (some f) seg maxSeq priv =
      (e, seg', maxSeq + rs.length, rs.foldl (fun s r => (f s r).1) priv) ∧
    (seg.lastSeq ≠ 0 → (e = none ↔ p = file.bytes ∧ seg.lastSeq = maxSeq + rs.length ∧ seg.bytes = p.length)) ∧
    (seg.lastSeq = 0 → seg' = { seg with records := rs.length, bytes := p.length } ∧
      (e = none ↔ ¬ Misnumbered csum (seg.firstSeq + rs.length) (file.bytes.drop p.length)))
  /-- What is then appended is delivered behind it. -/
  append : seg.lastSeq = 0 → Taken csum seg file maxSeq →
    ∀ (wal : Log) (closed : List Segment) (d : Disk) (type : UInt8) (data : Bytes), data.length ≤ u64Max →
      Replayed wal closed { seg with records := rs.length, bytes := p.length } (maxSeq + rs.length) →
      d.get seg.relpath.path = some file →
      ((segmentRelpath wal.nextSeq).path ≠ seg.relpath.path → d.get (segmentRelpath wal.nextSeq).path = none) →
      Prog.Post Disk.Step (Wal.append csum wal type (some data) data.length) d fun r d' =>
        r.1.1 = none → ∃ segs seq, r.1.2.segments = closed ++ segs ∧ r.2 = some seq ∧
          Delivers csum d' segs maxSeq (rs ++ [⟨type, seq, data⟩])

/-- No frame stands at the front of what looks oversized. -/
theorem Oversized.no_frame {rest b : Bytes} {r : Record} (h : Oversized rest) (hfit : rest.length < 2 ^ 63)
    (hb : (frames csum).Frame b r) : ¬ b <+: rest := by
  rintro ⟨x, rfl⟩
  obtain ⟨hdr, hh, rfl⟩ := hb
  have hbig := h.2.2.2
  rw [List.append_assoc, take_header hh, hh.payloadLen] at hbig
  simp only [List.length_append] at hfit
  unfold sizeMax headerCsum at hbig
  omega

theorem Oversized.not_misnumbered {n : Nat} {rest : Bytes} (h : Oversized rest) (hfit : rest.length < 2 ^ 63) :
    ¬ Misnumbered csum n rest := fun ⟨_, _, hb, hpre, _⟩ => h.no_frame hfit hb hpre

theorem taken_iff (hfirst : seg.firstSeq = maxSeq + 1) (hmax : maxSeq < u64Max) (hlast : seg.lastSeq = 0)
    (hlong : Longest (frames csum) seg.firstSeq file.bytes rs p) :
    Taken csum seg file maxSeq ↔ ¬ Oversized (file.bytes.drop p.length) ∧
      ¬ Misnumbered csum (seg.firstSeq + rs.length) (file.bytes.drop p.length) := by
  obtain ⟨e, he, hiff⟩ := @replaySegment_active _ _ _ (fun (s : Unit) _ => (s, none)) _ _ _ _ () hmax hfirst
    (fun _ _ => rfl) hlong hlast
  rw [Taken, he]
  exact hiff

/-- A replay that succeeds has taken the segment. -/
theorem Delivers.taken (h : Delivers csum d [seg] maxSeq rs) (hfile : d.get seg.relpath.path = some file) :
    Taken csum seg file maxSeq := by
  obtain ⟨segs', m, hs⟩ := h Unit (fun s _ => (s, none)) (fun _ _ => rfl) ()
  unfold Taken
  rw [replaySegments, Prog.exec_bind, exec_replayEnv hfile] at hs
  dsimp only at hs
  cases hx : replaySegment csum (.quiet file) (some fun (s : Unit) _ => (s, none)) seg maxSeq () with
  | mk e x =>
    cases e with
    | none => rfl
    | some e =>
      rw [hx] at hs
      cases hs

/-- The loop stops at an oversized header where it should have stopped without an error. -/
theorem FollowsGrammar.not_oversized (h : FollowsGrammar csum seg file maxSeq rs p) (hfirst : seg.firstSeq = maxSeq + 1)
    (hmax : maxSeq < u64Max) (hlast : seg.lastSeq = 0) (hlong : Longest (frames csum) seg.firstSeq file.bytes rs p) :
    ¬ Oversized (file.bytes.drop p.length) := by
  intro hover
  have hfit : (file.bytes.drop p.length).length < 2 ^ 63 :=
    lt_of_le_of_lt (by rw [List.length_drop]; exact Nat.sub_le _ _) file.fits
  obtain ⟨e, seg', he, -, hact⟩ := h.replay Unit (fun s _ => (s, none)) (fun _ _ => rfl) ()
  have hnone := (hact hlast).2.mpr (hover.not_misnumbered hfit)
  have htaken : Taken csum seg file maxSeq := by
    rw [Taken, he]
    exact hnone
  exact ((taken_iff hfirst hmax hlast hlong).mp htaken).1 hover

/-- The numbers of a chain end before they run out. -/
theorem chain_le {n : Nat} (hc : Chain (frames csum) n rs p) (hn : n ≤ u64Max + 1) : n + rs.length ≤ u64Max + 1 := by
  induction hc with
  | nil => exact hn
  | @cons n b r rs p hb hr _ ih =>
    obtain ⟨hdr, hh, -⟩ := hb
    have hle := hh.sequence_le
    have hr : r.sequence = n := hr
    have := ih (by omega)
    rw [List.length_cons]
    omega

/-- A log whose only segment is `seg`, as a replay leaves it, and which no record fills. -/
def loneLog (seg : Segment) : Log :=
  { Wal.Log.new ⟨[], List.not_mem_nil⟩ (2 ^ 63) [] with segments := [seg], replayed := true, nextSeq := seg.firstSeq }

/-- When the numbers are used up, a record that is appended gets a number again, and is refused. -/
theorem not_delivers_of_used_up (hlast : seg.lastSeq = 0) (hfirst : seg.firstSeq = maxSeq + 1) (hmax : maxSeq < u64Max)
    (hup : maxSeq + rs.length = u64Max) (hrel : seg.relpath = segmentRelpath seg.firstSeq)
    (hlong : Longest (frames csum) seg.firstSeq file.bytes rs p) (hroom : p.length + headerLen < 2 ^ 63)
    (h : FollowsGrammar csum seg file maxSeq rs p) (htaken : Taken csum seg file maxSeq) : False := by
  have hwrap : (maxSeq + rs.length + 1) % 2 ^ 64 = 0 := by
    rw [hup]
    rfl
  let seg' : Segment := { seg with records := rs.length, bytes := p.length }
  let d : Disk := [(seg.relpath.path, file)]
  have hfile : d.get seg.relpath.path = some file := by simp [d, Disk.get]
  have hrep : Replayed (loneLog seg') [] seg' (maxSeq + rs.length) :=
    ⟨rfl, rfl, rfl, rfl, by rw [hwrap, if_neg (Nat.not_lt_zero _)]; rfl⟩
  have hpost := h.append hlast htaken (loneLog seg') [] d 0 [] (Nat.zero_le _) hrep hfile
    fun hne => absurd (congrArg Relpath.path hrel.symm) hne
  have hone : (loneLog seg').segments = [] ++ [seg'] := rfl
  have hok : ((Wal.append csum (loneLog seg') 0 (some []) 0).exec Disk.answer d).1.1.1 = none :=
    append_succeeds (activeSegment_concat hone hlast) rfl rfl rfl hlast hfile
      (show p.length + headerLen ≤ 2 ^ 63 by omega) hroom
  have hrun : Prog.Runs Disk.Step (Wal.append csum (loneLog seg') 0 (some []) 0) d _ _ := Prog.exec_runs Disk.Step.answer
  obtain ⟨segs, seq, hsegs, -, hdel⟩ := hpost _ _ hrun hok
  obtain ⟨-, ⟨-, hsegs', f, hf, hfb⟩ | ⟨hfull, -⟩⟩ :=
    post_append hone rfl rfl rfl hlast hrel hfile _ _ hrun hok
  · rw [hsegs, List.nil_append, List.nil_append] at hsegs'
    rw [hsegs'] at hdel
    have htrunc : (Disk.truncate file p.length).bytes = p := (List.prefix_iff_eq_take.mp hlong.2.1).symm
    have hpath : (loneLog seg').nextSeq = seg.firstSeq := rfl
    rw [htrunc, hpath] at hfb
    have hhdr : IsHeader csum (header csum 0 seg.firstSeq []) ⟨0, seg.firstSeq, []⟩ :=
      header_isHeader (by omega) (Nat.zero_le _)
    -- No frame can carry the next number, so the new one ends the chain.
    have hlong' : Longest (frames csum) seg.firstSeq f.bytes rs p := by
      refine longest_iff.mpr ⟨hlong.1, _, hfb, ?_⟩
      rintro b r ⟨hdr, hh, -⟩ hnum -
      have := hh.sequence_le
      have hnum : r.sequence = seg.firstSeq + rs.length := hnum
      omega
    have htaken := hdel.taken hf
    rw [taken_iff (by exact hfirst) hmax (by exact hlast) (by exact hlong'), hfb, List.drop_left] at htaken
    refine htaken.2 ⟨_, _, ⟨_, hhdr, rfl⟩, List.prefix_refl _, ?_⟩
    change seg.firstSeq ≠ seg.firstSeq + rs.length
    omega
  · have hbytes : seg'.bytes = p.length := rfl
    have hmaxb : (loneLog seg').segmentMaxBytes = 2 ^ 63 := rfl
    have := hfull.2
    rw [hbytes, hmaxb, List.length_nil] at this
    omega

/-- A replay follows the grammar unless an oversized header stands behind the chain of an active segment, or the
    chain has used up the numbers. The last only shows while the file has room for another header. -/
theorem replay_follows_grammar (hmax : maxSeq < u64Max) (hfirst : seg.firstSeq = maxSeq + 1)
    (hrel : seg.relpath = segmentRelpath seg.firstSeq) (hlong : Longest (frames csum) seg.firstSeq file.bytes rs p) :
    FollowsGrammar csum seg file maxSeq rs p ↔
      (seg.lastSeq = 0 → ¬ Oversized (file.bytes.drop p.length) ∧
        (¬ Misnumbered csum (seg.firstSeq + rs.length) (file.bytes.drop p.length) →
          maxSeq + rs.length = u64Max → 2 ^ 63 ≤ p.length + headerLen)) := by
  constructor
  · intro h hlast
    -- An oversized header makes the replay fail, a chain that is used up makes it lose the next record.
    have hgood := h.not_oversized hfirst hmax hlast hlong
    refine ⟨hgood, fun hmis hup => ?_⟩
    by_contra hroom
    exact not_delivers_of_used_up hlast hfirst hmax hup hrel hlong (by omega) h
      ((taken_iff hfirst hmax hlast hlong).mpr ⟨hgood, hmis⟩)
  · intro h
    constructor
    · intro σ f hacc priv
      by_cases hlast : seg.lastSeq = 0
      · obtain ⟨e, he, hiff⟩ := @replaySegment_active _ _ _ _ _ _ _ _ priv hmax hfirst hacc hlong hlast
        refine ⟨e, _, he, fun hne => absurd hlast hne, fun _ => ⟨rfl, ?_⟩⟩
        rw [hiff]
        simp [(h hlast).1]
      · obtain ⟨e, he, hiff⟩ := @replaySegment_closed _ _ _ _ _ _ _ _ priv hmax hfirst hacc hlong hlast
        exact ⟨e, _, he, fun _ => hiff, fun hl => absurd hl hlast⟩
    · intro hlast htaken wal closed d type data hdata hrep hfile hnext
      -- The segment was taken, so that no misnumbered frame stands behind its chain.
      have hmis := ((taken_iff hfirst hmax hlast hlong).mp htaken).2
      have hseq := chain_le hlong.1 (by omega)
      by_cases hroom : maxSeq + rs.length < u64Max
      · exact post_append_delivers (by exact hlast) (by exact hfirst) hroom (by exact hrel) (by rfl) (by rfl)
          (by exact hlong.1) hlong.2.1 hrep (by exact hfile) (by exact hnext) hdata
      · -- Nothing can be appended to a file of this size.
        have hlarge := (h hlast).2 hmis (by omega)
        have hwrap : (maxSeq + rs.length + 1) % 2 ^ 64 = 0 := by
          unfold u64Max at *
          omega
        have hnextSeq : wal.nextSeq = seg.firstSeq := by
          rw [hrep.nextSeq, hwrap, if_neg (Nat.not_lt_zero _)]
        have htrunc : (Disk.truncate file p.length).bytes = p := (List.prefix_iff_eq_take.mp hlong.2.1).symm
        have htoo : ∀ f : File, f.bytes ≠ p ++ (header csum type seg.firstSeq data ++ data) := by
          intro f hf
          have := f.fits
          rw [hf, List.length_append, List.length_append, length_header] at this
          omega
        refine (post_append hrep.segments hrep.degraded hrep.replayed hrep.fd (by exact hlast) (by exact hrel)
          (by exact hfile)).mono fun r d' hpost hr => ?_
        rw [hnextSeq] at hpost
        obtain ⟨-, ⟨-, -, f, -, hfb⟩ | ⟨-, -, -, f, -, hfb⟩⟩ := hpost hr
        · rw [htrunc] at hfb
          exact absurd hfb (htoo f)
        · rw [← hrel, Disk.get_set, if_pos rfl, Option.getD_some, htrunc] at hfb
          exact absurd hfb (htoo f)

/-- No frame is shorter than a header. -/
theorem no_frame_of_short {b rest : Bytes} {r : Record} (hshort : rest.length < headerLen)
    (hb : (frames csum).Frame b r) : ¬ b <+: rest := by
  rintro hpre
  obtain ⟨hdr, hh, rfl⟩ := hb
  have := hpre.length_le
  rw [List.length_append, hh.length] at this
  omega

end

/-- The file of a test: one record, and behind it a torn one. -/
def tornFile : File where
  bytes := header (fun _ => 0) 1 1 (ascii "first") ++ ascii "first" ++ ascii "not-a-valid-wal-record"
  fits := by
    rw [List.length_append, List.length_append, length_header]
    decide

theorem follows_grammar_torn :
    FollowsGrammar (fun _ => 0) (.new 1) tornFile 0 [⟨1, 1, ascii "first"⟩]
      (header (fun _ => 0) 1 1 (ascii "first") ++ ascii "first") := by
  have hlong : Longest (frames fun _ => 0) 1 tornFile.bytes [⟨1, 1, ascii "first"⟩]
      (header (fun _ => 0) 1 1 (ascii "first") ++ ascii "first") := by
    refine longest_iff.mpr ⟨.one ⟨_, header_isHeader (by decide) (by decide), rfl⟩ rfl, _, rfl, fun b r hb _ => ?_⟩
    exact no_frame_of_short (by decide) hb
  refine (replay_follows_grammar (by decide) rfl rfl hlong).mpr fun _ => ⟨?_, fun _ hup => absurd hup (by decide)⟩
  rw [tornFile, List.drop_left]
  decide

/-- An active segment whose first record was torn into a header of ones behind the version. -/
def oversizedFile : File where
  bytes := magic ++ [1, 1, 0, 0] ++ le64enc 1 ++ le64enc u64Max ++ le64enc 0
  fits := by decide

/-- No record stands in it, yet the replay fails. -/
theorem oversized_refused :
    Longest (frames fun _ => 0) 1 oversizedFile.bytes [] [] ∧
      ¬ FollowsGrammar (fun _ => 0) (.new 1) oversizedFile 0 [] [] := by
  have hlong : Longest (frames fun _ => 0) 1 oversizedFile.bytes [] [] := by
    refine longest_iff.mpr ⟨.nil, _, rfl, fun b r hb _ => ?_⟩
    exact Oversized.no_frame (by decide) oversizedFile.fits hb
  exact ⟨hlong, fun h => h.not_oversized rfl (by decide) rfl hlong (by decide)⟩

end Cachetag.Wal
