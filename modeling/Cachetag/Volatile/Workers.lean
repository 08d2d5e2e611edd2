import Cachetag.Lib.Machine
import Cachetag.Volatile.Maintenance

/-! Attaches and the resize worker of one index, section by section. Both call `cachetag_resize_maintenance`: the worker
again and again, an attach when the primary side table is full in mid-migration. The index is not retired, and every
allocation succeeds. -/

namespace Cachetag
open SideIndex

/-- An index whose attaches and whose resize worker are under way. `stages` has where the maintenance call of the
    worker (`none`) and that of an attach is. -/
structure Workers (α : Type*) where
  maintained : Maintained α
  stages : Option Nat → MaintStage

/-- The sections. What a clock says comes with the section that reads it. -/
inductive WorkersEvent (α : Type*) where
  | begin (oc : α) (given : List Nat) (regSeq : Nat)
  | attach (i : Nat) (now : UInt64)
  | maintain (who : Option Nat) (now : UInt64)
  | recordShrink (lockAcquired now : UInt64)
  | invalidate (oc : α)
  | sweepStart
  | sweepProbe (verdict : Verdict)
  | sweepEnd
  | sweepAbort

namespace Maintained
variable {α : Type*}

/-- `cachetag_resize_needs_work_locked`, as far as it changes anything. -/
def needsWork (cfg : Config α) (m : Maintained α) (now : UInt64) : Maintained α :=
  let side := m.index.side
  if cfg.interned ∧ m.index.registry.migrationActive then m
  else if side.migrationActive ∧ side.migrationAuto then m
  else if (m.index.directory.softGrowth m.nobjects).isSome then m
  else { m with lowWater := (m.lowWaterReady now).1 }

/-- What `cachetag_record_attach_purgemap_take` does to the low-water fields once the entry is in. -/
def attached (cfg : Config α) (m : Maintained α) (now : UInt64) : Maintained α :=
  let w := m.lowWater
  let w :=
    if m.overrun then w.cancel.rearm now
    else if !w.active ∧ w.rearmAtUsec ≠ 0 then w.rearm now
    else w
  ({ m with lowWater := w } : Maintained α).needsWork cfg now

/-- `cachetag_record_shrink` -/
def recordShrink (m : Maintained α) (lockAcquired now : UInt64) : Maintained α :=
  if m.index.side.sweepActive then m
  else
    let w := m.lowWater
    let w :=
      if !w.active then LowWater.start lockAcquired m.nobjects
      else if m.nobjects < w.live then { w with live := m.nobjects }
      else w
    let m' : Maintained α := { m with lowWater := w }
    if m'.overrun then { m with lowWater := w.cancel.rearm now }
    else { m with lowWater := (m'.lowWaterReady now).1 }

end Maintained

namespace Workers
variable {α : Type*}

def index (s : Workers α) : Index α := s.maintained.index

/-- An index fresh from `cachetag_index_new`. -/
def new : Workers α := ⟨⟨.new, .new⟩, fun _ => .promote⟩

/-- Where a caller of `cachetag_resize_maintenance` goes on: the worker with its next call after the last, an attach
    only within its call. -/
def next (s : Workers α) (who : Option Nat) : Option MaintStage :=
  match who with
  | none => some (if (s.stages none).left = 0 then .promote else s.stages none)
  | some i =>
    if (s.index.calls[i]?).map (·.point) = some .maintenance ∧ (s.stages who).left ≠ 0 then some (s.stages who)
    else none

section Step
variable [DecidableEq α]

/-- A section of the index that does not touch the low-water fields. -/
def sectionOf (cfg : Config α) (s : Workers α) (e : IndexEvent α) : Option (Workers α) :=
  (Index.step cfg s.index e).map fun index => { s with maintained := { s.maintained with index } }

/-- The next section of the attach `i`. -/
def attachSection (cfg : Config α) (s : Workers α) (i : Nat) (c : AttachCall α) (now : UInt64) : Option (Workers α) :=
  if c.point = .maintenance then
    match s.stages (some i) with
    | .done did =>
      (s.sectionOf cfg (.attach i did)).map fun s' => { s' with stages := Function.update s.stages (some i) .promote }
    | _ => none
  else
    (s.sectionOf cfg (.attach i true)).map fun s' =>
      if (s'.index.calls[i]?).map (·.point) = some (.done none) then
        { s' with maintained := s'.maintained.attached cfg now }
      else s'

/-- One critical section. -/
def step (cfg : Config α) (s : Workers α) : WorkersEvent α → Option (Workers α)
  | .begin oc given regSeq => s.sectionOf cfg (.begin oc given regSeq true)
  | .attach i now =>
    match s.index.calls[i]? with
    | none => none
    | some c => s.attachSection cfg i c now
  | .maintain who now =>
    (s.next who).map fun st =>
      let r := s.maintained.advance cfg now true st
      ⟨r.1, Function.update s.stages who r.2⟩
  | .recordShrink lockAcquired now => some { s with maintained := s.maintained.recordShrink lockAcquired now }
  | .invalidate oc => s.sectionOf cfg (.invalidate oc)
  | .sweepStart => s.sectionOf cfg .sweepStart
  | .sweepProbe verdict => s.sectionOf cfg (.sweepProbe verdict)
  | .sweepEnd => s.sectionOf cfg .sweepEnd
  | .sweepAbort => s.sectionOf cfg .sweepAbort

/-- An attach that has not come to its end. -/
def Waiting (c : AttachCall α) : Prop := ∀ r, c.point ≠ .done r

/-- `Waiting`, computed. -/
def waiting (c : AttachCall α) : Bool :=
  match c.point with
  | .done _ => false
  | _ => true

omit [DecidableEq α] in
theorem waiting_iff {c : AttachCall α} : waiting c = true ↔ Waiting c := by
  unfold waiting Waiting
  cases c.point <;> simp

instance (c : AttachCall α) : Decidable (Waiting c) := decidable_of_iff _ waiting_iff

/-- What a new attach starts from: as many keys as an object may have, and an object that is neither recorded nor
    about to be. -/
def Distinct (cfg : Config α) (s : Workers α) : WorkersEvent α → Prop
  | .begin oc given _ =>
    (given.length ≠ 0 ∧ given.length ≤ cfg.maxKeys) ∧ oc ∉ s.index.side.ocs ∧
      ∀ c ∈ s.index.calls, Waiting c → c.oc ≠ oc
  | _ => True

instance (cfg : Config α) (s : Workers α) (e : WorkersEvent α) : Decidable (Distinct cfg s e) := by
  cases e <;> unfold Distinct <;> infer_instance

/-- Every migration is automatic, there are fewer than the maximum number of objects, and the attaches are of distinct
    objects. -/
structure Orderly (cfg : Config α) (s : Workers α) (e : WorkersEvent α) : Prop where
  auto : s.index.side.migrationActive = true → s.index.side.migrationAuto = true
  few : s.index.side.objects.length < sideMaxObjects
  distinct : Distinct cfg s e

instance (cfg : Config α) (s : Workers α) (e : WorkersEvent α) : Decidable (Orderly cfg s e) :=
  decidable_of_iff ((s.index.side.migrationActive = true → s.index.side.migrationAuto = true) ∧
    s.index.side.objects.length < sideMaxObjects ∧ Distinct cfg s e)
    ⟨fun h => ⟨h.1, h.2.1, h.2.2⟩, fun h => ⟨h.auto, h.few, h.distinct⟩⟩

/-- A stage at which a resize of the side table is still due, if it comes to that. -/
def StillDue (side : SideIndex α ObjVal) : MaintStage → Prop
  | .destination => side.softResize ≠ none
  | .publish buckets reason => side.softResize = some (buckets, reason)
  | _ => True

instance (side : SideIndex α ObjVal) (st : MaintStage) : Decidable (StillDue side st) := by
  cases st <;> unfold StillDue <;> infer_instance

/-- No side table has become full, and an attach that has found nothing else to do in its maintenance call finds a
    resize that is still due. -/
def Timely (s : Workers α) : WorkersEvent α → Prop
  | .maintain (some i) _ => s.index.side.Open ∧ StillDue s.index.side (s.stages (some i))
  | _ => s.index.side.Open

instance (s : Workers α) (e : WorkersEvent α) : Decidable (Timely s e) := by
  unfold Timely
  split <;> infer_instance

end Step

/-- Every attach has succeeded or is still under way. -/
def AllFine (s : Workers α) : Prop := ∀ c ∈ s.index.calls, ∀ e, c.point ≠ .done (some e)

end Workers
end Cachetag
