import Cachetag.Wal.Log

/-! What an append leaves in the active segment, and what a replay of it then delivers. -/

namespace Cachetag.Wal
open Frames Numeral

/-! ### Paths -/

theorem segmentRelpath_inj {n m : Nat} (hn : n ≤ u64Max) (hm : m ≤ u64Max)
    (h : (segmentRelpath n).path = (segmentRelpath m).path) : n = m := by
  have hrest : (ascii ".vtw").head?.bind (digitVal 36) = none := rfl
  unfold segmentRelpath at h
  dsimp only at h
  rw [List.append_assoc, List.append_assoc] at h
  have h := congrArg (strtoull? 10) (List.append_cancel_left h)
  rw [strtoull?_pad (by norm_num) (by norm_num) hn hrest, strtoull?_pad (by norm_num) (by norm_num) hm hrest] at h
  cases h
  rfl

/-! ### The programs -/

section
variable {csum : Bytes → UInt64} {wal : Log} {seg : Segment} {d : Disk}

/-- The files that a publication does not write. -/
def SameSegments (d d' : Disk) : Prop :=
  ∀ q, q ≠ ascii "manifest.tmp" → q ≠ ascii "manifest" → d'.get q = d.get q

/-- A publication changes nothing but the generation, and no segment. -/
theorem post_manifestPublishLocked :
    Prog.Post Disk.Step (manifestPublishLocked csum wal) d fun r d' =>
      r.1 = none → (∃ g, r.2 = { wal with generation := g }) ∧ SameSegments d d' := by
  unfold manifestPublishLocked
  split
  · simp
  refine post_calls_bind (by decide) (by simp [Log.failLocked]) fun _ => ?_
  dsimp only
  rw [Prog.post_bind]
  refine post_time.mono fun x t ht => ?_
  subst ht
  cases x with
  | error e => simp [Log.failLocked]
  | ok now =>
    refine post_calls_bind (by decide) (by simp [Log.failLocked]) fun _ => ?_
    refine post_calls_bind (by decide) (by simp [Log.failLocked]) fun _ => ?_
    refine post_calls_bind (by simp [Call.plain]) (fun e t => ?_) fun _ => ?_
    · dsimp only
      rw [Prog.post_bind]
      exact fun _ _ _ => by simp [Log.failLocked]
    refine post_calls_bind (by decide) (by simp [Log.failLocked]) fun hacc => ?_
    rw [Prog.post_pure]
    refine fun _ => ⟨⟨_, rfl⟩, fun q h1 h2 => ?_⟩
    rw [Disk.get_after (by simp [Disk.touches, h1, h2]), Disk.get_after (by simp [Disk.touches, h1]),
      Disk.get_after (by simp [Disk.touches, h1]), Disk.get_after (by simp [Disk.touches])]

/-- Preparing a log that has been replayed opens its active segment and cuts it behind the last record. -/
theorem post_prepareLocked {file : File} (hdeg : wal.degraded = false) (hrep : wal.replayed = true) (hfd : wal.fd = none)
    (hact : wal.activeSegment = some seg) (hlast : seg.lastSeq = 0) (hfile : d.get seg.relpath.path = some file) :
    Prog.Post Disk.Step (prepareLocked csum wal) d fun r d' =>
      r.1 = none → r.2 = { wal with fd := some seg.relpath } ∧
        ∀ q, d'.get q = if q = seg.relpath.path then some (Disk.truncate file seg.bytes) else d.get q := by
  unfold prepareLocked
  rw [if_neg (by simp [hdeg]), if_neg (by simp [hfd])]
  refine post_calls_bind (by decide) (by simp [Log.failLocked]) fun _ => ?_
  rw [hact]
  dsimp only
  refine post_calls_bind (by decide) (by simp [Log.failLocked]) fun _ => ?_
  dsimp only
  rw [Prog.post_bind]
  have hsome : (d.get seg.relpath.path).isSome := by rw [hfile]; rfl
  refine (post_stat hsome).mono fun r t hr => ?_
  obtain ⟨rfl, ht⟩ | ⟨e, rfl, he⟩ := hr
  · dsimp only
    unfold prepareLocked.opened
    refine post_calls_bind (by simp [Call.plain]) (by simp [Log.failLocked]) fun _ => ?_
    -- Opening a file that is there does not change it.
    have hopen : t.after [.openAppend seg.relpath.path] = d := by
      rw [ht]
      exact if_pos hsome
    rw [hopen, Prog.post_bind]
    unfold cutTail Log.fdPath
    dsimp only [Option.map_some, Option.getD_some]
    rw [if_pos ⟨hrep, hlast⟩, Prog.post_bind]
    refine post_fstat.mono fun x u hx => ?_
    obtain ⟨rfl, rfl⟩ := hx
    dsimp only
    rw [hfile, Option.getD_some]
    refine (post_calls (by split <;> simp [Call.plain])).mono fun r t hr => ?_
    cases r with
    | some e => simp [Log.failLocked]
    | none =>
      obtain ⟨rfl, -⟩ := hr rfl
      dsimp only
      rw [if_neg Bool.false_ne_true, Prog.post_pure]
      refine fun _ => ⟨rfl, fun q => ?_⟩
      split
      · simp [Disk.after, Disk.answer, hfile]
      · rename_i hle
        -- There was nothing to cut off.
        have hwhole : Disk.truncate file seg.bytes = file := by
          unfold Disk.truncate
          congr 1
          exact List.take_of_length_le (Nat.le_of_not_lt hle)
        rw [hwhole]
        split
        · rename_i hq
          rw [hq]
          exact hfile
        · rfl
  · cases e <;> first | exact absurd rfl he | simp [Log.failLocked]

/-- A rotation closes the active segment and opens a new one behind it. -/
theorem post_rotateLocked (hact : wal.activeSegment = some seg) (hrec : seg.records ≠ 0) :
    Prog.Post Disk.Step (rotateLocked csum wal) d fun r d' =>
      r.1 = none →
        (∃ g, r.2 = { wal.withActive [{ seg with lastSeq := (wal.nextSeq + u64Max) % 2 ^ 64 }, .new wal.nextSeq] with
          fd := some (segmentRelpath wal.nextSeq), generation := g }) ∧
        SameSegments (d.after [.openAppend (segmentRelpath wal.nextSeq).path]) d' := by
  unfold rotateLocked
  rw [hact]
  dsimp only
  rw [if_neg hrec]
  refine post_calls_bind (by decide) (by simp [Log.failLocked]) fun _ => ?_
  refine post_calls_bind (by simp [Call.plain]) (by simp [Log.failLocked]) fun _ => ?_
  refine post_calls_bind (by simp [Call.plain]) (by simp [Log.failLocked]) fun _ => ?_
  refine post_calls_bind (by simp [Call.plain]) (by simp [Log.failLocked]) fun _ => ?_
  refine post_calls_bind (by decide) (by simp [Log.failLocked]) fun _ => ?_
  refine post_manifestPublishLocked.mono fun r t h hr => ?_
  obtain ⟨⟨g, hg⟩, hsame⟩ := h hr
  exact ⟨⟨g, hg⟩, hsame⟩

/-- A frame that has been written stands behind what was in the file, and is counted. -/
theorem post_appendRecord {type : UInt8} {data : Bytes} {file : File} {rel : Relpath} (hfd : wal.fd = some rel)
    (hact : wal.activeSegment = some seg) (hfile : d.get rel.path = some file) :
    Prog.Post Disk.Step (appendRecord csum wal type data) d fun r d' =>
      r.1.1 = none →
        (r.1.2 = { wal.withActive [{ seg with
            records := seg.records + 1, bytes := seg.bytes + (headerLen + data.length) }] with
          nextSeq := (wal.nextSeq + 1) % 2 ^ 64 }) ∧ r.2 = some wal.nextSeq ∧
        (∃ f, d'.get rel.path = some f ∧ f.bytes = file.bytes ++ (header csum type wal.nextSeq data ++ data)) ∧
        ∀ q, q ≠ rel.path → d'.get q = d.get q := by
  unfold appendRecord
  have hpath : ({ wal with nextSeq := (wal.nextSeq + 1) % 2 ^ 64 } : Log).fdPath = rel.path := by
    simp [Log.fdPath, hfd]
  dsimp only
  rw [hpath]
  refine post_calls_bind (by split <;> simp [Call.plain]) (by simp [Log.failLocked]) fun hacc => ?_
  have hactive : ({ wal with nextSeq := (wal.nextSeq + 1) % 2 ^ 64 } : Log).activeSegment = some seg := hact
  dsimp only
  rw [hactive, Prog.post_pure]
  refine fun _ => ⟨rfl, rfl, ?_⟩
  obtain ⟨hheader, hacc⟩ := hacc
  obtain ⟨f, hf, hfb⟩ := Disk.answer_write hfile hheader
  have hget : (d.set rel.path f).get rel.path = some f := by simp
  rw [Disk.after, List.cons_append, List.foldl_cons]
  rw [hf] at hacc ⊢
  by_cases hdata : 0 < data.length
  · rw [if_pos hdata] at hacc ⊢
    obtain ⟨hpayload, -⟩ := hacc
    obtain ⟨g, hg, hgb⟩ := Disk.answer_write hget hpayload
    rw [List.cons_append, List.foldl_cons, hg]
    refine ⟨⟨g, by simp [Disk.answer], by rw [hgb, hfb, List.append_assoc]⟩, fun q hq => ?_⟩
    simp [Disk.answer, hq]
  · rw [if_neg hdata]
    have hnil : data = [] := List.eq_nil_of_length_eq_zero (Nat.eq_zero_of_not_pos hdata)
    subst hnil
    refine ⟨⟨f, by simp [Disk.answer], by rw [hfb, List.append_nil]⟩, fun q hq => ?_⟩
    simp [Disk.answer, hq]

end

/-! ### Replaying again -/

section
variable {σ : Type} {csum : Bytes → UInt64} {d : Disk} {segs : List Segment} {rs : List Record} {maxSeq : Nat}

/-- A replay of segments succeeds and delivers records. -/
def Delivers (csum : Bytes → UInt64) (d : Disk) (segs : List Segment) (maxSeq : Nat) (rs : List Record) : Prop :=
  ∀ (σ : Type) (f : ReplayFn σ), Accepting f → ∀ priv, ∃ segs' m,
    (replaySegments csum (some f) segs maxSeq priv).exec Disk.answer d =
      (((none, segs', m), rs.foldl (fun s r => (f s r).1) priv), d)

theorem exec_replayEnv {path : Bytes} {file : File} (hfile : d.get path = some file) :
    (replayEnv path).exec Disk.answer d = (.ok (.quiet file), d) := by
  change d.answer (.replayEnv path) = _
  unfold Disk.answer
  dsimp only
  rw [hfile]
  rfl

theorem exec_replaySegments_cons {f : ReplayFn σ} {seg seg' : Segment} {file : File} {priv : σ} {m : Nat} {priv' : σ}
    (hfile : d.get seg.relpath.path = some file)
    (h : replaySegment csum (.quiet file) (some f) seg maxSeq priv = (none, seg', m, priv')) :
    (replaySegments csum (some f) (seg :: segs) maxSeq priv).exec Disk.answer d =
      (fun x : ((Option Errno × List Segment × Nat) × σ) × Disk =>
        (((x.1.1.1, seg' :: x.1.1.2.1, x.1.1.2.2), x.1.2), x.2))
        ((replaySegments csum (some f) segs m priv').exec Disk.answer d) := by
  rw [replaySegments, Prog.exec_bind, exec_replayEnv hfile]
  dsimp only
  rw [h]
  dsimp only
  rw [Prog.exec_bind]
  rfl

/-- A closed segment delivers its records, and those behind it follow. -/
theorem Delivers.closed {seg : Segment} {file : File} {ss : List Record} (hfile : d.get seg.relpath.path = some file)
    (hfirst : seg.firstSeq = maxSeq + 1) (hmax : maxSeq < u64Max) (hc : Chain (frames csum) seg.firstSeq rs file.bytes)
    (hlast : seg.lastSeq = maxSeq + rs.length) (hne : seg.lastSeq ≠ 0) (hbytes : seg.bytes = file.bytes.length)
    (h : Delivers csum d segs (maxSeq + rs.length) ss) : Delivers csum d (seg :: segs) maxSeq (rs ++ ss) := by
  intro σ f hacc priv
  have hlong : Longest (frames csum) seg.firstSeq file.bytes rs file.bytes :=
    ⟨hc, List.prefix_refl _, fun _ _ _ hq => hq.length_le⟩
  obtain ⟨e, he, hiff⟩ := @replaySegment_closed _ _ _ _ _ _ _ _ priv hmax hfirst hacc hlong hne
  rw [hiff.mpr ⟨rfl, hlast, hbytes⟩] at he
  obtain ⟨segs', m, hs⟩ := h σ f hacc (rs.foldl (fun s r => (f s r).1) priv)
  exact ⟨seg :: segs', m, by rw [exec_replaySegments_cons hfile he, hs, List.foldl_append]⟩

/-- The active segment delivers the records of a file without a tail. -/
theorem delivers_active {seg : Segment} {file : File} (hfile : d.get seg.relpath.path = some file)
    (hfirst : seg.firstSeq = maxSeq + 1) (hmax : maxSeq < u64Max) (hc : Chain (frames csum) seg.firstSeq rs file.bytes)
    (hlast : seg.lastSeq = 0) : Delivers csum d [seg] maxSeq rs := by
  intro σ f hacc priv
  have hlong : Longest (frames csum) seg.firstSeq file.bytes rs file.bytes :=
    ⟨hc, List.prefix_refl _, fun _ _ _ hq => hq.length_le⟩
  obtain ⟨e, he, hiff⟩ := @replaySegment_active _ _ _ _ _ _ _ _ priv hmax hfirst hacc hlong hlast
  rw [List.drop_length] at hiff
  rw [hiff.mpr ⟨not_oversized_nil, not_misnumbered_nil _⟩] at he
  exact ⟨_, _, by rw [exec_replaySegments_cons hfile he]; rfl⟩

/-! ### Appending behind a replay -/

/-- What `cachetag_wal_replay` leaves when it has ended in `seg`, with `maxSeq` the last sequence. The manifest gives
    the number of the active segment to the next record. -/
structure Replayed (wal : Log) (closed : List Segment) (seg : Segment) (maxSeq : Nat) : Prop where
  segments : wal.segments = closed ++ [seg]
  degraded : wal.degraded = false
  replayed : wal.replayed = true
  fd : wal.fd = none
  nextSeq : wal.nextSeq = if seg.firstSeq < (maxSeq + 1) % 2 ^ 64 then (maxSeq + 1) % 2 ^ 64 else seg.firstSeq

theorem activeSegment_concat {wal : Log} {closed : List Segment} {seg : Segment} (h : wal.segments = closed ++ [seg])
    (hlast : seg.lastSeq = 0) : wal.activeSegment = some seg := by
  simp [Log.activeSegment, h, hlast]

theorem segments_withActive {wal : Log} {closed segs : List Segment} {seg : Segment} (h : wal.segments = closed ++ [seg]) :
    (wal.withActive segs).segments = closed ++ segs := by
  simp [Log.withActive, h]

section
variable {wal : Log} {closed : List Segment} {seg : Segment} {file : File} {p : Bytes} {type : UInt8} {data : Bytes}

/-- The test of `cachetag_wal_append` for a rotation. -/
def Full (wal : Log) (seg : Segment) (n : Nat) : Prop := 0 < seg.records ∧ wal.segmentMaxBytes < seg.bytes + (headerLen + n)

/-- What a successful append leaves: the frame stands behind the last record, or in a segment of its own. -/
theorem post_append (hseg : wal.segments = closed ++ [seg]) (hdeg : wal.degraded = false) (hrep : wal.replayed = true)
    (hfd : wal.fd = none) (hlast : seg.lastSeq = 0) (hrel : seg.relpath = segmentRelpath seg.firstSeq)
    (hfile : d.get seg.relpath.path = some file) :
    Prog.Post Disk.Step (append csum wal type (some data) data.length) d fun r d' =>
      r.1.1 = none → r.2 = some wal.nextSeq ∧
        ((¬ Full wal seg data.length ∧
          r.1.2.segments = closed ++
            [{ seg with records := seg.records + 1, bytes := seg.bytes + (headerLen + data.length) }] ∧
          ∃ f, d'.get seg.relpath.path = some f ∧
            f.bytes = (Disk.truncate file seg.bytes).bytes ++ (header csum type wal.nextSeq data ++ data)) ∨
        (Full wal seg data.length ∧
          r.1.2.segments = closed ++ [{ seg with lastSeq := (wal.nextSeq + u64Max) % 2 ^ 64 },
            { Segment.new wal.nextSeq with records := 0 + 1, bytes := 0 + (headerLen + data.length) }] ∧
          ((segmentRelpath wal.nextSeq).path ≠ seg.relpath.path →
            d'.get seg.relpath.path = some (Disk.truncate file seg.bytes)) ∧
          ∃ f, d'.get (segmentRelpath wal.nextSeq).path = some f ∧
            f.bytes = (((d.set seg.relpath.path (Disk.truncate file seg.bytes)).get
              (segmentRelpath wal.nextSeq).path).getD .empty).bytes ++ (header csum type wal.nextSeq data ++ data))) := by
  have hact := activeSegment_concat hseg hlast
  unfold append
  rw [Prog.post_bind]
  refine (post_prepareLocked hdeg hrep hfd hact hlast hfile).mono fun r d₁ h => ?_
  obtain ⟨r, wal₁⟩ := r
  cases r with
  | some e => simp
  | none =>
    -- The preparation has cut the file at the end of the last record and opened it.
    obtain ⟨hw, hd₁⟩ := h rfl
    dsimp only at hw
    have hseg₁ : wal₁.segments = closed ++ [seg] := by rw [hw]; exact hseg
    have hact₁ := activeSegment_concat hseg₁ hlast
    have hseq₁ : wal₁.nextSeq = wal.nextSeq := by rw [hw]
    have hmax₁ : wal₁.segmentMaxBytes = wal.segmentMaxBytes := by rw [hw]
    have hfd₁ : wal₁.fd = some seg.relpath := by rw [hw]
    have hfull : wal₁.activeSegment.any (fun seg =>
        0 < seg.records && wal₁.segmentMaxBytes < seg.bytes + (headerLen + data.length)) = true ↔
          Full wal seg data.length := by
      rw [hact₁, hmax₁]
      simp [Full]
    dsimp only
    split
    · simp [Log.failLocked]
    split
    · simp [Log.failLocked]
    rw [Option.getD_some, List.take_length]
    split
    · -- The segment is full, so the record goes into one of its own.
      rename_i hrot
      have hrot := hfull.mp hrot
      rw [Prog.post_bind]
      refine (post_rotateLocked hact₁ (by have := hrot.1; omega)).mono fun r d₂ h => ?_
      obtain ⟨r, wal₂⟩ := r
      cases r with
      | some e => simp
      | none =>
        obtain ⟨⟨g, hw₂⟩, hd₂⟩ := h rfl
        dsimp only at hw₂ ⊢
        rw [hseq₁] at hw₂ hd₂
        have hseg₂ : wal₂.segments =
            (closed ++ [{ seg with lastSeq := (wal.nextSeq + u64Max) % 2 ^ 64 }]) ++ [.new wal.nextSeq] := by
          rw [hw₂, List.append_assoc]
          exact segments_withActive hseg₁
        -- A rotation writes no file below `wal/` but the new segment. The manifest and its scratch file are elsewhere.
        have hget₂ : ∀ q : Bytes, q.head? = some 119 →
            d₂.get q = (d₁.after [.openAppend (segmentRelpath wal.nextSeq).path]).get q := by
          intro q hq
          exact hd₂ q (by rintro rfl; exact absurd hq (by decide)) (by rintro rfl; exact absurd hq (by decide))
        have hnew : d₂.get (segmentRelpath wal.nextSeq).path =
            some ((d₁.get (segmentRelpath wal.nextSeq).path).getD .empty) := by
          rw [hget₂ _ rfl]
          cases hold : d₁.get (segmentRelpath wal.nextSeq).path <;> simp [Disk.after, Disk.answer, hold]
        refine (post_appendRecord (show wal₂.fd = some (segmentRelpath wal.nextSeq) by rw [hw₂])
          (activeSegment_concat hseg₂ rfl) hnew).mono fun r d₃ h hr => ?_
        -- The record is written into the new segment, which is the active one now.
        obtain ⟨hw₃, hseq, ⟨f, hf, hfb⟩, hkeep⟩ := h hr
        have hseq₂ : wal₂.nextSeq = wal.nextSeq := by
          rw [hw₂]
          exact hseq₁
        rw [hseq₂] at hfb hseq hw₃
        refine ⟨hseq, .inr ⟨hrot, ?_, fun hpath => ?_, f, hf, ?_⟩⟩
        · rw [hw₃]
          exact (segments_withActive hseg₂).trans (List.append_assoc _ _ _)
        · rw [hkeep _ hpath.symm, hget₂ _ (by rw [hrel]; rfl), Disk.get_after (by simp [Disk.touches, hpath.symm]), hd₁,
            if_pos rfl]
        · rw [hfb, hd₁, Disk.get_set]
    · rename_i hrot
      rw [Prog.post_bind, Prog.post_pure]
      dsimp only
      refine (post_appendRecord hfd₁ hact₁ (by rw [hd₁, if_pos rfl])).mono fun r d₂ h hr => ?_
      obtain ⟨hw₂, hseq, ⟨f, hf, hfb⟩, -⟩ := h hr
      rw [hseq₁] at hfb hseq
      exact ⟨hseq, .inl ⟨fun h => hrot (hfull.mpr h), by rw [hw₂]; exact segments_withActive hseg₁, f, hf, hfb⟩⟩

/-- An append behind the last record of a replay is delivered behind it, whether the segment is full or not. -/
theorem post_append_delivers (hlast : seg.lastSeq = 0) (hfirst : seg.firstSeq = maxSeq + 1)
    (hroom : maxSeq + rs.length < u64Max) (hrel : seg.relpath = segmentRelpath seg.firstSeq)
    (hrecords : seg.records = rs.length) (hbytes : seg.bytes = p.length) (hc : Chain (frames csum) seg.firstSeq rs p)
    (hp : p <+: file.bytes) (hrep : Replayed wal closed seg (maxSeq + rs.length))
    (hfile : d.get seg.relpath.path = some file)
    (hnext : (segmentRelpath wal.nextSeq).path ≠ seg.relpath.path → d.get (segmentRelpath wal.nextSeq).path = none)
    (hdata : data.length ≤ u64Max) :
    Prog.Post Disk.Step (append csum wal type (some data) data.length) d fun r d' =>
      r.1.1 = none → ∃ segs seq, r.1.2.segments = closed ++ segs ∧ r.2 = some seq ∧
        Delivers csum d' segs maxSeq (rs ++ [⟨type, seq, data⟩]) := by
  have hnextSeq : wal.nextSeq = maxSeq + rs.length + 1 := by
    rw [hrep.nextSeq, Nat.mod_eq_of_lt (by unfold u64Max at hroom; omega)]
    split <;> omega
  have htrunc : (Disk.truncate file seg.bytes).bytes = p := by
    rw [Disk.truncate, hbytes]
    exact (List.prefix_iff_eq_take.mp hp).symm
  have hframe : Chain (frames csum) (maxSeq + rs.length + 1) [⟨type, maxSeq + rs.length + 1, data⟩]
      (header csum type (maxSeq + rs.length + 1) data ++ data) :=
    .one ⟨_, header_isHeader (by omega) hdata, rfl⟩ rfl
  refine (post_append hrep.segments hrep.degraded hrep.replayed hrep.fd hlast hrel hfile).mono fun r d' h hr => ?_
  rw [hnextSeq, htrunc] at h
  rw [hnextSeq] at hnext
  obtain ⟨hseq, ⟨-, hsegs, f, hf, hfb⟩ | ⟨hfull, hsegs, hold, f, hf, hfb⟩⟩ := h hr
  · refine ⟨_, _, hsegs, hseq, delivers_active hf hfirst (by omega) ?_ hlast⟩
    rw [hfb]
    refine hc.append ?_
    rw [hfirst, Nat.add_right_comm]
    exact hframe
  -- A full segment has a record, so that the new segment is another file.
  · have hpos : 0 < rs.length := hrecords ▸ hfull.1
    have hpath : (segmentRelpath (maxSeq + rs.length + 1)).path ≠ seg.relpath.path := by
      rw [hrel, hfirst]
      intro h
      have := segmentRelpath_inj (by omega) (by omega) h
      omega
    have hlastSeq : (maxSeq + rs.length + 1 + u64Max) % 2 ^ 64 = maxSeq + rs.length := by
      unfold u64Max at hroom ⊢
      omega
    rw [hlastSeq] at hsegs
    rw [Disk.get_set, if_neg hpath, hnext hpath] at hfb
    refine ⟨_, _, hsegs, hseq, Delivers.closed (hold hpath) hfirst (by omega) (by rw [htrunc]; exact hc) rfl
      (by dsimp only; omega) (by rw [htrunc]; exact hbytes) (delivers_active hf rfl (by omega) ?_ rfl)⟩
    rw [hfb]
    exact hframe

/-- Where no call fails of itself, a log is prepared, and what is behind its last record is cut off. -/
theorem exec_prepareLocked (hact : wal.activeSegment = some seg) (hdeg : wal.degraded = false) (hrep : wal.replayed = true)
    (hfd : wal.fd = none) (hlast : seg.lastSeq = 0) (hfile : d.get seg.relpath.path = some file) :
    (prepareLocked csum wal).exec Disk.answer d =
      ((none, { wal with fd := some seg.relpath }),
        d.after (if seg.bytes < file.bytes.length then [.ftruncate seg.relpath.path seg.bytes] else [])) := by
  have hsome : (d.get seg.relpath.path).isSome := by rw [hfile]; rfl
  unfold prepareLocked
  rw [if_neg (by simp [hdeg]), if_neg (by simp [hfd]), exec_calls_bind (by exact ⟨rfl, rfl, trivial⟩), hact]
  dsimp only
  rw [exec_calls_bind (by exact ⟨rfl, trivial⟩)]
  dsimp only
  -- The file is there, so that no manifest is published for it.
  have hstat : (attempt (.stat seg.relpath.path)).exec Disk.answer d = (none, d) := by
    have hthere : d.answer (.stat seg.relpath.path) = (.ok (), d) := congrArg (·, d) (if_pos hsome)
    unfold attempt
    rw [Prog.exec_bind, Prog.exec_sys, hthere]
    rfl
  have hstay : (d.after [.mkdir [], .mkdir (ascii "wal")]).after [.alloc] = d := rfl
  rw [hstay, Prog.exec_bind, hstat]
  dsimp only
  have hopen : d.after [.openAppend seg.relpath.path] = d := if_pos hsome
  have hstatf : (fstat seg.relpath.path).exec Disk.answer d = (.ok file.bytes.length, d) := by
    change (Except.ok ((d.get seg.relpath.path).getD .empty).bytes.length, d) = _
    rw [hfile]
    rfl
  have hcut : (cutTail { wal with fd := some seg.relpath } seg).exec Disk.answer d =
      (none, d.after (if seg.bytes < file.bytes.length then [.ftruncate seg.relpath.path seg.bytes] else [])) := by
    unfold cutTail Log.fdPath
    dsimp only [Option.map_some, Option.getD_some]
    rw [if_pos ⟨hrep, hlast⟩, Prog.exec_bind, hstatf]
    dsimp only
    exact exec_calls (by split <;> simp [Disk.accepts, Disk.answer, Except.isOk, Except.toBool])
  unfold prepareLocked.opened
  rw [exec_calls_bind (by exact ⟨rfl, trivial⟩), hopen, Prog.exec_bind, hcut]
  rfl

/-- Where no call fails of itself, a record without a payload fits into a segment that is not full. -/
theorem append_succeeds (hact : wal.activeSegment = some seg) (hdeg : wal.degraded = false) (hrep : wal.replayed = true)
    (hfd : wal.fd = none) (hlast : seg.lastSeq = 0) (hfile : d.get seg.relpath.path = some file)
    (hfull : seg.bytes + headerLen ≤ wal.segmentMaxBytes) (hroom : seg.bytes + headerLen < 2 ^ 63) :
    ((append csum wal type (some []) 0).exec Disk.answer d).1.1.1 = none := by
  have hcutfile : ∃ f, (d.after (if seg.bytes < file.bytes.length then
      [.ftruncate seg.relpath.path seg.bytes] else [])).get seg.relpath.path = some f ∧ f.bytes.length ≤ seg.bytes := by
    split
    · exact ⟨Disk.truncate file seg.bytes, by simp [Disk.after, Disk.answer, hfile], List.length_take_le _ _⟩
    · exact ⟨file, hfile, by omega⟩
  obtain ⟨f, hf, hlen⟩ := hcutfile
  have hwrite : ∀ seq, (f.bytes ++ header csum type seq []).length < 2 ^ 63 := by
    intro seq
    rw [List.length_append, length_header]
    omega
  unfold append
  rw [Prog.exec_bind, exec_prepareLocked hact hdeg hrep hfd hlast hfile]
  dsimp only
  rw [if_neg (by simp), if_neg (by unfold sizeMax headerLen; omega), if_neg, Prog.exec_bind, Prog.exec_pure]
  · dsimp only
    unfold appendRecord
    dsimp only
    rw [exec_calls_bind]
    · rfl
    · exact ⟨Disk.answer_write_ok hf (hwrite _), rfl, trivial⟩
  · -- The segment is not full, so that the log does not rotate.
    have hact' : ({ wal with fd := some seg.relpath } : Log).activeSegment = some seg := hact
    rw [hact']
    simp only [Option.any_some, Bool.and_eq_true, decide_eq_true_eq]
    omega

end
end
end Cachetag.Wal
