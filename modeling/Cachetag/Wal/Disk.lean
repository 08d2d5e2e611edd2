import Cachetag.Lib.Prog
import Cachetag.Wal.Segment

/-! The directory of a log and the calls that the log makes on it.

A path is relative to the root of the log. `Disk.answer` is the system when no call fails of itself; under
`Disk.Step` every call but `fstat` on an open file and `time` may also fail, with any effect and any error, except
that `stat` does not miss a file that is there. -/

namespace Cachetag.Wal

/-- The calls. Loops over `read`, `write` and the directory stream are calls of their own, as the source has them. -/
inductive Call where
  | alloc
  | time
  /-- `cachetag_mkdir_existing` -/
  | mkdir (dir : Bytes)
  | stat (path : Bytes)
  /-- `open` with `O_CREAT | O_APPEND` -/
  | openAppend (path : Bytes)
  /-- `open` with `O_CREAT | O_TRUNC` -/
  | openTrunc (path : Bytes)
  | fstat (path : Bytes)
  | ftruncate (path : Bytes) (size : Nat)
  /-- `cachetag_wal_write_all` -/
  | write (path : Bytes) (data : Bytes)
  | fsync (path : Bytes)
  | close (path : Bytes)
  | rename (src dst : Bytes)
  | unlink (path : Bytes)
  /-- `cachetag_wal_fsync_dir` -/
  | fsyncDir (dir : Bytes)
  /-- `open` for reading and `cachetag_wal_read` to the end -/
  | readFile (path : Bytes)
  /-- `opendir` and `readdir` to the end -/
  | readdir (dir : Bytes)
  /-- All that `cachetag_wal_replay_segment` gets from the system. -/
  | replayEnv (path : Bytes)

/-- What a call returns when it succeeds. -/
def Call.Val : Call → Type
  | .time => Nat
  | .fstat _ => Nat
  | .readFile _ => File
  | .readdir _ => List Bytes
  | .replayEnv _ => ReplayEnv
  | _ => Unit

abbrev Call.Ans (op : Call) : Type := Except Errno op.Val

/-- The files below the root. -/
abbrev Disk := List (Bytes × File)

namespace Disk

def get (d : Disk) (p : Bytes) : Option File := (d.find? (·.1 = p)).map (·.2)

def erase (d : Disk) (p : Bytes) : Disk := d.filter (·.1 ≠ p)

def set (d : Disk) (p : Bytes) (f : File) : Disk := (p, f) :: erase d p

/-- The names in a directory. -/
def names (d : Disk) (dir : Bytes) : List Bytes :=
  (d.filter fun x => dir.isPrefixOf x.1 && !(x.1.drop dir.length).contains 47).map (·.1.drop dir.length)

/-- What `O_APPEND` makes of a file, if it does not get too large. -/
def append (f : File) (data : Bytes) : Option File :=
  if h : (f.bytes ++ data).length < 2 ^ 63 then some ⟨f.bytes ++ data, h⟩ else none

/-- `ftruncate` to a smaller size. -/
def truncate (f : File) (size : Nat) : File := ⟨f.bytes.take size, lt_of_le_of_lt (List.length_take_le' _ _) f.fits⟩

/-- The system when no call fails of itself. -/
def answer (d : Disk) : (op : Call) → op.Ans × Disk
  | .alloc | .mkdir _ | .fsync _ | .close _ | .fsyncDir _ => (.ok (), d)
  | .time => (.ok (0 : Nat), d)
  | .stat p => (if (d.get p).isSome then .ok () else .error .enoent, d)
  | .openAppend p => (.ok (), if (d.get p).isSome then d else d.set p .empty)
  | .openTrunc p => (.ok (), d.set p .empty)
  | .fstat p => (.ok ((d.get p).getD .empty).bytes.length, d)
  | .ftruncate p size => (.ok (), d.set p (truncate ((d.get p).getD .empty) size))
  | .write p data =>
    match append ((d.get p).getD .empty) data with
    | some f => (.ok (), d.set p f)
    | none => (.error .efbig, d)
  | .rename src dst =>
    match d.get src with
    | some f => (.ok (), (d.set dst f).erase src)
    | none => (.error .enoent, d)
  | .unlink p => (if (d.get p).isSome then .ok () else .error .enoent, d.erase p)
  | .readFile p =>
    match d.get p with
    | some f => (.ok f, d)
    | none => (.error .enoent, d)
  | .readdir dir => (.ok (d.names dir), d)
  | .replayEnv p =>
    match d.get p with
    | some f => (.ok (.quiet f), d)
    | none => (.ok { ReplayEnv.quiet .empty with opened := .error .enoent }, d)

/-- The system. -/
inductive Step : Disk → (op : Call) → op.Ans → Disk → Prop
  | answer (d : Disk) (op : Call) : Step d op (d.answer op).1 (d.answer op).2
  | fault (d : Disk) (op : Call) (e : Errno) (d' : Disk) :
      (∀ p, op ≠ .fstat p) → op ≠ .time → (∀ p, op = .stat p → e ≠ .enoent) → Step d op (.error e) d'
  | time (d : Disk) (now : Nat) : Step d .time (.ok now) d
  | replayEnv (d : Disk) (p : Bytes) (env : ReplayEnv) : Step d (.replayEnv p) (.ok env) d

section
variable {d d' : Disk} {p q : Bytes} {f : File} {op : Call}

@[simp] theorem get_erase : (d.erase p).get q = if q = p then none else d.get q := by
  unfold get erase
  rw [List.find?_filter]
  split
  · rename_i hq
    subst hq
    rw [Option.map_eq_none_iff, List.find?_eq_none]
    simp
  · rename_i hq
    congr 1
    refine List.find?_congr fun x _ => ?_
    by_cases hx : x.1 = q <;> simp_all

@[simp] theorem get_set : (d.set p f).get q = if q = p then some f else d.get q := by
  unfold set get
  rw [List.find?_cons]
  by_cases hq : p = q
  · simp [hq]
  · have := get_erase (d := d) (p := p) (q := q)
    rw [if_neg (Ne.symm hq)] at this ⊢
    simp only [hq, decide_false]
    exact this

/-- The files that a call may change. -/
def touches : Call → List Bytes
  | .openAppend p | .openTrunc p | .ftruncate p _ | .write p _ | .unlink p => [p]
  | .rename src dst => [src, dst]
  | _ => []

theorem get_answer (h : q ∉ touches op) : (d.answer op).2.get q = d.get q := by
  cases op with
  | openAppend p =>
    have hq : q ≠ p := by simpa [touches] using h
    unfold answer
    dsimp only
    split <;> simp [hq]
  | write p data =>
    have hq : q ≠ p := by simpa [touches] using h
    unfold answer
    dsimp only
    split <;> simp [hq]
  | rename src dst =>
    have hq : q ≠ src ∧ q ≠ dst := by simpa [touches] using h
    unfold answer
    dsimp only
    split <;> simp [hq]
  | openTrunc p | ftruncate p _ | unlink p =>
    have hq : q ≠ p := by simpa [touches] using h
    simp [answer, hq]
  | readFile p | replayEnv p =>
    unfold answer
    dsimp only
    split <;> rfl
  | alloc | time | mkdir | stat | fstat | fsync | close | fsyncDir | readdir => rfl

theorem answer_write_ok {data : Bytes} (hf : d.get p = some f) (h : (f.bytes ++ data).length < 2 ^ 63) :
    (d.answer (.write p data)).1.isOk := by
  unfold answer
  dsimp only
  rw [hf, Option.getD_some]
  unfold append
  rw [dif_pos h]
  rfl

/-- A write that succeeds has put the data behind what was in the file. -/
theorem answer_write {data : Bytes} (hf : d.get p = some f) (h : (d.answer (.write p data)).1.isOk) :
    ∃ g, (d.answer (.write p data)).2 = d.set p g ∧ g.bytes = f.bytes ++ data := by
  unfold answer at h ⊢
  dsimp only at h ⊢
  rw [hf, Option.getD_some] at h ⊢
  unfold append at h ⊢
  by_cases hfits : (f.bytes ++ data).length < 2 ^ 63
  · rw [dif_pos hfits]
    exact ⟨⟨_, hfits⟩, rfl, rfl⟩
  · rw [dif_neg hfits] at h
    cases h

end
end Disk
end Cachetag.Wal
