import Cachetag.Wal.Disk

/-! `struct cachetag_wal` and the steps that its functions are made of. Every path is relative to the root. -/

namespace Cachetag.Wal

/-- A C string. -/
structure CString where
  bytes : Bytes
  noNul : 0 ∉ bytes
deriving DecidableEq

/-- The fields `checkpoint_*` of `struct cachetag_wal` besides the path. -/
structure Checkpoint where
  generation : Nat
  purgeSequence : Nat
  walSequence : Nat
  hardFloor : Nat
  softFloor : Nat
  entries : Nat
  bytes : Nat
  checksum : Nat
deriving DecidableEq, Repr

/-- `struct cachetag_wal`. The active segment is the last one while its `last_seq` is 0. -/
structure Log where
  name : CString
  fd : Option Relpath
  nextSeq : Nat
  segmentMaxBytes : Nat
  degraded : Bool
  replayed : Bool
  generation : Nat
  rootIdHi : Nat
  rootIdLo : Nat
  checkpointRelpath : Option Relpath
  checkpoint : Checkpoint
  segments : List Segment

/-- `TAG_WAL_DEFAULT_SEGMENT_BYTES` -/
def defaultSegmentBytes : Nat := 64 * 1024 * 1024

/-- `cachetag_wal_segment_new` -/
def Segment.new (firstSeq : Nat) : Segment := ⟨segmentRelpath firstSeq, firstSeq, 0, 0, 0⟩

/-- `namespace` of `cachetag_wal_new` -/
def namespaceOf (namespace' : CString) : CString :=
  if namespace'.bytes = [] then ⟨ascii "default", by decide⟩ else namespace'

/-- `cachetag_wal_new`, with the bytes that `cachetag_wal_identity_init` draws. -/
def Log.new (namespace' : CString) (segmentMaxBytes : Nat) (identity : Bytes) : Log where
  name := namespaceOf namespace'
  fd := none
  nextSeq := 1
  segmentMaxBytes := if segmentMaxBytes = 0 then defaultSegmentBytes else segmentMaxBytes
  degraded := false
  replayed := false
  generation := 0
  rootIdHi := le64dec identity
  rootIdLo :=
    if le64dec identity = 0 ∧ le64dec (identity.drop 8) = 0 then 1 else le64dec (identity.drop 8)
  checkpointRelpath := none
  checkpoint := ⟨0, 0, 0, 0, 0, 0, 0, 0⟩
  segments := [.new 1]

/-- `active_segment` -/
def Log.activeSegment (wal : Log) : Option Segment := wal.segments.getLast?.filter (·.lastSeq = 0)

/-- The state with other segments in the place of the active one. -/
def Log.withActive (wal : Log) (segs : List Segment) : Log := { wal with segments := wal.segments.dropLast ++ segs }

/-- The file that `fd` is open on. -/
def Log.fdPath (wal : Log) : Bytes := (wal.fd.map (·.path)).getD []

/-- `cachetag_wal_fail_locked` -/
def Log.failLocked (wal : Log) (err : Errno) : Option Errno × Log := (some err, { wal with degraded := true })

def time : Prog Call.Ans (Except Errno Nat) := .sys Call.time

def fstat (path : Bytes) : Prog Call.Ans (Except Errno Nat) := .sys (Call.fstat path)

def readFile (path : Bytes) : Prog Call.Ans (Except Errno File) := .sys (Call.readFile path)

def readdir (dir : Bytes) : Prog Call.Ans (Except Errno (List Bytes)) := .sys (Call.readdir dir)

def replayEnv (path : Bytes) : Prog Call.Ans (Except Errno ReplayEnv) := .sys (Call.replayEnv path)

/-- A call of which only the result matters. -/
def attempt (op : Call) : Prog Call.Ans (Option Errno) := do
  match ← .sys op with
  | .ok _ => pure none
  | .error e => pure (some e)

/-- Calls one after the other, until one fails. -/
def calls : List Call → Prog Call.Ans (Option Errno)
  | [] => pure none
  | op :: ops => do
    match ← attempt op with
    | none => calls ops
    | some e => pure (some e)

/-! ### What calls that succeed have done -/

/-- A call that succeeds in only one way. -/
def Call.plain : Call → Bool
  | .time | .replayEnv _ => false
  | _ => true

/-- The disk after calls that succeed. -/
def Disk.after (d : Disk) (ops : List Call) : Disk := ops.foldl (fun d op => (d.answer op).2) d

/-- No file gets too large in any of the calls, and every file that they need is there. -/
def Disk.accepts : Disk → List Call → Prop
  | _, [] => True
  | d, op :: ops => (d.answer op).1.isOk ∧ (d.answer op).2.accepts ops

section
variable {d d' : Disk} {op : Call} {ops : List Call}

theorem Disk.get_after {q : Bytes} (h : ∀ op ∈ ops, q ∉ Disk.touches op) : (d.after ops).get q = d.get q := by
  induction ops generalizing d with
  | nil => rfl
  | cons op ops ih =>
    obtain ⟨hop, hops⟩ := List.forall_mem_cons.mp h
    exact (ih hops).trans (Disk.get_answer hop)

theorem Disk.Step.ok {v : op.Val} (h : Disk.Step d op (.ok v) d') (hp : op.plain) :
    d' = (d.answer op).2 ∧ (d.answer op).1 = .ok v := by
  generalize hx : (Except.ok v : op.Ans) = x at h
  cases h with
  | answer => exact ⟨rfl, rfl⟩
  | fault => cases hx
  | time => cases hp
  | replayEnv => cases hp

theorem post_attempt (hp : op.plain) :
    Prog.Post Disk.Step (attempt op) d fun r d' => r = none → d' = (d.answer op).2 ∧ (d.answer op).1.isOk := by
  unfold attempt
  rw [Prog.post_bind, Prog.post_sys]
  intro x t hs
  cases x with
  | ok v =>
    obtain ⟨rfl, hv⟩ := hs.ok hp
    rw [Prog.post_pure]
    exact fun _ => ⟨rfl, by rw [hv]; rfl⟩
  | error e =>
    rw [Prog.post_pure]
    rintro ⟨⟩

theorem post_calls (hp : ∀ op ∈ ops, op.plain) :
    Prog.Post Disk.Step (calls ops) d fun r d' => r = none → d' = d.after ops ∧ d.accepts ops := by
  induction ops generalizing d with
  | nil =>
    unfold calls
    rw [Prog.post_pure]
    exact fun _ => ⟨rfl, trivial⟩
  | cons op ops ih =>
    obtain ⟨hop, hops⟩ := List.forall_mem_cons.mp hp
    unfold calls
    rw [Prog.post_bind]
    refine (post_attempt hop).mono fun r t hr => ?_
    cases r with
    | none =>
      obtain ⟨rfl, hok⟩ := hr rfl
      exact (ih hops).mono fun r u hu hn => ⟨(hu hn).1, hok, (hu hn).2⟩
    | some e =>
      rw [Prog.post_pure]
      rintro ⟨⟩

/-- Where no call fails of itself, the calls that a disk accepts succeed. -/
theorem exec_calls (h : d.accepts ops) : (calls ops).exec Disk.answer d = (none, d.after ops) := by
  induction ops generalizing d with
  | nil => rfl
  | cons op ops ih =>
    obtain ⟨hop, hops⟩ := h
    have hone : (attempt op).exec Disk.answer d = (none, (d.answer op).2) := by
      unfold attempt
      rw [Prog.exec_bind, Prog.exec_sys]
      cases hx : (d.answer op).1 with
      | ok v => rfl
      | error e =>
        rw [hx] at hop
        cases hop
    unfold calls
    rw [Prog.exec_bind, hone]
    exact ih hops

theorem exec_calls_bind {α : Type} {f : Option Errno → Prog Call.Ans α} (h : d.accepts ops) :
    (calls ops >>= f).exec Disk.answer d = (f none).exec Disk.answer (d.after ops) := by
  rw [Prog.exec_bind, exec_calls h]

theorem post_time : Prog.Post Disk.Step time d fun _ d' => d' = d := by
  intro x t hr
  cases Prog.runs_sys.mp hr with
  | answer => rfl
  | fault _ _ _ _ h _ => exact absurd rfl h
  | time => rfl

theorem post_fstat {p : Bytes} :
    Prog.Post Disk.Step (fstat p) d fun x d' => x = .ok ((d.get p).getD .empty).bytes.length ∧ d' = d := by
  intro x t hr
  cases Prog.runs_sys.mp hr with
  | answer => exact ⟨rfl, rfl⟩
  | fault _ _ _ h _ _ => exact absurd rfl (h p)

theorem post_stat {p : Bytes} (h : (d.get p).isSome) :
    Prog.Post Disk.Step (attempt (.stat p)) d fun r d' => (r = none ∧ d' = d) ∨ ∃ e, r = some e ∧ e ≠ .enoent := by
  unfold attempt
  rw [Prog.post_bind, Prog.post_sys]
  intro x t hs
  cases x with
  | ok v =>
    rw [Prog.post_pure]
    exact .inl ⟨rfl, (hs.ok rfl).1⟩
  | error e =>
    rw [Prog.post_pure]
    refine .inr ⟨e, rfl, ?_⟩
    generalize hx : (Except.error e : Call.Ans (.stat p)) = x at hs
    cases hs with
    | answer =>
      have hthere : (d.answer (.stat p)).1 = .ok () := if_pos h
      cases hx.trans hthere
    | fault _ e' _ _ _ he =>
      cases hx
      exact he p rfl

theorem post_calls_bind {α : Type} {Q : α → Disk → Prop} {f : Option Errno → Prog Call.Ans α}
    (hp : ∀ op ∈ ops, op.plain) (herr : ∀ e t, Prog.Post Disk.Step (f (some e)) t Q)
    (hok : d.accepts ops → Prog.Post Disk.Step (f none) (d.after ops) Q) :
    Prog.Post Disk.Step (calls ops >>= f) d Q := by
  rw [Prog.post_bind]
  refine (post_calls hp).mono fun r t hr => ?_
  cases r with
  | some e => exact herr e t
  | none =>
    obtain ⟨rfl, hacc⟩ := hr rfl
    exact hok hacc

end
end Cachetag.Wal
