import Cachetag.Lib.Machine
import Cachetag.Volatile.Directory
import Cachetag.Volatile.Membership

/-! The volatile index of `src/vmod_cachetag_index.c` with its critical sections.

An attach is a call with locals, which goes from one point without the lock to the next. Where the code
keeps the lock from a publication to `again:`, the model lets others in between. The outcome of an allocation, of
`cachetag_resize_maintenance` and of a purge map probe is a parameter of the event, and so is what depends on a
clock. Of the counters only `volatile_edges` is here. -/

namespace Cachetag

/-- `TAG_INTERN_MIGRATE_STEPS` -/
def internMigrateSteps : Nat := 4

/-- `TAG_RESIZE_INTERN_BATCH_STEPS` -/
def resizeInternBatchSteps : Nat := 64

/-- What an attach reports other than 0. -/
inductive AttachErr where
  | e2big
  | enomem
  | eshutdown
  | eoverflow
  | efault
  | eexist
  | ebusy
  | side (r : SideErr)
deriving DecidableEq, Repr

/-- Where an attach is without the lock: before `again:`, at one of its allocations, at a call of
    `cachetag_resize_maintenance`, or at its end. -/
inductive AttachPoint where
  | again
  | objects (oldCapacity : Nat)
  | maintenance
  | side (buckets : Nat) (reason : SideReason)
  | table (buckets generation : Nat)
  | candidate
  | done (r : Option AttachErr)
deriving DecidableEq, Repr

/-- The locals of `cachetag_record_attach_purgemap_take`. `given` are the folds as its caller has them, `folds`
    those it works with, `direct` and `candidate` what `prepared` owns. -/
structure AttachCall (α : Type*) where
  oc : α
  regSeq : Nat
  given : List Nat
  folds : List Nat
  direct : Option DirectVector
  candidate : Option InternedSet
  growFailed : Bool
  budgetUsed : Bool
  point : AttachPoint
deriving DecidableEq, Repr

/-- What a probe of the purge map reports. -/
inductive Verdict where
  | none
  | soft
  | hard
deriving DecidableEq, Repr

/-- `struct cachetag_index`, as far as it is volatile. `calls` are the attaches so far. -/
structure Index (α : Type*) where
  side : SideIndex α ObjVal
  directory : Directory
  registry : Registry
  edges : Nat
  retired : Bool
  calls : List (AttachCall α)

/-- The critical sections of the index. -/
inductive IndexEvent (α : Type*) where
  | begin (oc : α) (given : List Nat) (regSeq : Nat) (allocated : Bool)
  | attach (i : Nat) (ok : Bool)
  | invalidate (oc : α)
  | sweepStart
  | sweepProbe (verdict : Verdict)
  | sweepEnd
  | sweepAbort
  | killAll
  | retire
  | detachAll
  | migrateIntern
  | migrateSideBatch (overrun : Bool)
  | publishObjectSegment (oldCapacity : Nat)
  | lowWater
  | publishShrink (buckets : Nat)
  | publishSideDestination (buckets : Nat) (reason : SideReason)

namespace Index
variable {α : Type*}

/-- An index fresh from `cachetag_index_new`. -/
def new : Index α := ⟨.new, .new, .new, 0, false, []⟩

/-! ### Attach -/

/-- Whether an attach looks for a node. -/
def interning (cfg : Config α) (c : AttachCall α) : Bool := cfg.interned && decide (1 < c.folds.length)

/-- `cachetag_intern_candidate_alloc`, filled. -/
def candidateFor (cfg : Config α) (folds : List Nat) : InternedSet := ⟨folds.length, cfg.internHash folds, 0, folds⟩

/-- `cachetag_prepared_membership_init`, the filling by `cachetag_attach_prepared`, and what
    `cachetag_record_attach_purgemap_take` does before it takes the lock. -/
def prepare (cfg : Config α) (oc : α) (given : List Nat) (regSeq : Nat) (allocated : Bool) : AttachCall α :=
  let call (folds : List Nat) (direct : Option DirectVector) (candidate : Option InternedSet) (point : AttachPoint) :
      AttachCall α := ⟨oc, regSeq, given, folds, direct, candidate, false, false, point⟩
  if given.length = 0 ∨ cfg.maxKeys < given.length then call given none none (.done (some .e2big))
  else if given.length = 1 then call given none none .again
  else if !cfg.interned then
    if allocated then call given (some (directVector given)) none .again
    else call given none none (.done (some .enomem))
  else
    let folds := internSort given
    if given.length ≤ internLookupFirstMaxFolds then call folds none none .again
    else if allocated then call folds none (some (candidateFor cfg folds)) .again
    else call folds none none (.done (some .enomem))

/-- An attach stops at its next point. -/
def stop (s : Index α) (i : Nat) (c : AttachCall α) (point : AttachPoint) : Index α :=
  { s with calls := s.calls.set i { c with point } }

section Sections
variable [DecidableEq α]

/-- The end of the last section of an attach, which writes the entry. -/
def attachAppend (cfg : Config α) (s : Index α) (i : Nat) (c : AttachCall α) (membership : Membership) : Index α :=
  match s.side.append cfg.sideHash ⟨c.oc, ⟨c.regSeq, objcountCode c.folds.length, membership, i⟩⟩ with
  | (side, some r) =>
    let registry :=
      match membership with
      | .set n => s.registry.release n
      | _ => s.registry
    { s with side, registry }.stop i c (.done (some (.side r)))
  | (side, none) => { s with side, edges := s.edges + c.folds.length }.stop i { c with direct := none } (.done none)

/-- The interning part of that section, from the lookup on. -/
def attachLookup (cfg : Config α) (s : Index α) (i : Nat) (c : AttachCall α) : Index α :=
  match s.registry.lookup c.folds (cfg.internHash c.folds) with
  | (some n, registry) => attachAppend cfg { s with registry } i c (.set n)
  | (none, registry) =>
    match (if c.growFailed then .ready else registry.prepareInsert) with
    | .again buckets => { s with registry }.stop i c (.table buckets registry.generation)
    | .ready =>
      if registry.buckets.length = 0 then { s with registry }.stop i c (.done (some .enomem))
      else
        match c.candidate with
        | none => { s with registry }.stop i c .candidate
        | some candidate =>
          attachAppend cfg { s with registry := (registry.publish candidate).2 } i { c with candidate := none }
            (.set (registry.publish candidate).1)

/-- The interning part of that section. -/
def attachIntern (cfg : Config α) (s : Index α) (i : Nat) (c : AttachCall α) : Index α :=
  if !c.budgetUsed ∧ s.registry.migrationActive then
    attachLookup cfg { s with registry := s.registry.migrate internMigrateSteps } i { c with budgetUsed := true }
  else attachLookup cfg s i c

/-- The end of the section for a membership without a node. -/
def attachPlain (cfg : Config α) (s : Index α) (i : Nat) (c : AttachCall α) : Index α :=
  match c.folds with
  | [fold] => attachAppend cfg s i c (.inlineOne fold)
  | _ =>
    match c.direct with
    | none => s
    | some vector => attachAppend cfg s i c (.vector vector)

/-- The section of `cachetag_record_attach_purgemap_take` that starts at `again:`. -/
def attachAgain (cfg : Config α) (s : Index α) (i : Nat) (c : AttachCall α) : Index α :=
  if s.retired then s.stop i c (.done (some .eshutdown))
  else if sideMaxObjects ≤ s.side.objects.length then s.stop i c (.done (some .eoverflow))
  else
    match s.side.find cfg.sideHash c.oc with
    | .corrupt => s.stop i c (.done (some .efault))
    | .found _ => s.stop i c (.done (some .eexist))
    | .absent =>
      if s.side.objects.length = s.directory.capobjects then
        if objectSegments ≤ objectSegmentCountForCapacity s.directory.capobjects then
          s.stop i c (.done (some .eoverflow))
        else s.stop i c (.objects s.directory.capobjects)
      else
        match s.side.prepareInsert with
        | (side, .again buckets reason) => { s with side }.stop i c (.side buckets reason)
        | (side, .busy) =>
          { s with side }.stop i c
            (if side.migrationActive ∧ side.migrationAuto then .maintenance else .done (some .ebusy))
        | (side, .overflow) => { s with side }.stop i c (.done (some .eoverflow))
        | (side, .ready) =>
          if interning cfg c then attachIntern cfg { s with side } i c else attachPlain cfg { s with side } i c

/-- The next section of an attach. `ok` is whether what it waited for came off. -/
def attachSection (cfg : Config α) (s : Index α) (i : Nat) (c : AttachCall α) (ok : Bool) : Option (Index α) :=
  match c.point with
  | .again => some (attachAgain cfg s i c)
  | .objects oldCapacity =>
    some (if ok then { s with directory := s.directory.publishSegment oldCapacity }.stop i c .again
      else s.stop i c (.done (some .enomem)))
  | .maintenance => some (s.stop i c (if ok then .again else .done (some .ebusy)))
  | .side buckets reason =>
    some (if ok then { s with side := (s.side.publishForInsert buckets reason).1 }.stop i c .again
      else s.stop i c (.done (some .enomem)))
  | .table buckets generation =>
    some (if ok then
        { s with registry := (s.registry.publishTable buckets generation).getD s.registry }.stop i c .again
      else if s.registry.buckets.length = 0 then s.stop i c (.done (some .enomem))
      else s.stop i { c with growFailed := true } .again)
  | .candidate =>
    some (if ok then s.stop i { c with candidate := some (candidateFor cfg c.folds) } .again
      else s.stop i c (.done (some .enomem)))
  | .done _ => none

/-! ### Removals -/

/-- `cachetag_intern_release_locked` of the node that an entry holds, if it holds one. -/
def releaseHeld (r : Registry) : Option Nat → Registry
  | some n => r.release n
  | none => r

/-- What invalidation, sweep and kill do once they know the slot: the entry goes, then its reference.
    `settle` is what happens to the registry in between. -/
def removeObject (cfg : Config α) (s : Index α) (slot : Nat) (settle : Registry → Registry) :
    Index α × Option SideErr :=
  match s.side.objects[slot]? with
  | none => (s, some .efault)
  | some ent =>
    let nfolds := (membershipView cfg s.registry ent.val).nfolds
    match s.side.remove cfg.sideHash slot with
    | (side, some r) => ({ s with side }, some r)
    | (side, none) =>
      let registry := releaseHeld (settle s.registry) (heldSet cfg nfolds ent.val)
      ({ s with side, registry, edges := s.edges - nfolds }, none)

/-- `cachetag_record_invalidate` -/
def invalidate (cfg : Config α) (s : Index α) (oc : α) : Index α :=
  match s.side.find cfg.sideHash oc with
  | .corrupt => s
  | .absent => s
  | .found loc =>
    match s.side.objects[loc.slot]? with
    | none => s
    | some ent =>
      if (membershipView cfg s.registry ent.val).nfolds = 0 then s
      else (removeObject cfg s loc.slot fun r => if cfg.interned then r.migrate internMigrateSteps else r).1

/-- The turn of `cachetag_record_sweep_purgemap` at the next object. -/
def sweepProbe (cfg : Config α) (s : Index α) (verdict : Verdict) : Index α :=
  let slot := s.side.sweepRemaining - 1
  match s.side.objects[slot]? with
  | none => s
  | some ent =>
    if (membershipView cfg s.registry ent.val).nfolds = 0 ∨ verdict = .hard then
      match removeObject cfg s slot id with
      | (s', none) => s'
      | (s', some _) => { s' with side := { s'.side with sweepActive := false, sweepRemaining := 0 } }
    else { s with side := { s.side with sweepRemaining := s.side.sweepRemaining - 1 } }

/-- The loop of `cachetag_index_kill_all_locked`. -/
def killLoop (cfg : Config α) : Nat → Index α → Index α
  | 0, s => s
  | n + 1, s =>
    match removeObject cfg s (s.side.objects.length - 1) id with
    | (s', none) => killLoop cfg n s'
    | (s', some _) => s'

/-- `cachetag_index_kill_all_locked` -/
def killAll (cfg : Config α) (s : Index α) : Index α := killLoop cfg s.side.objects.length s

/-- What `cachetag_record_probe_purgemap` finds of an object: a broken table or membership, which it reports as
    covered by a hard purge, no object, or what it passes to the probe. -/
inductive Found where
  | broken
  | absent
  | here (regSeq : Nat) (folds : List Nat)
deriving DecidableEq, Repr

/-- The lookup of `cachetag_record_probe_purgemap`. -/
def lookup (cfg : Config α) (s : Index α) (oc : α) : Found :=
  match s.side.find cfg.sideHash oc with
  | .corrupt => .broken
  | .absent => .absent
  | .found loc =>
    match s.side.objects[loc.slot]? with
    | none => .broken
    | some ent =>
      let view := membershipView cfg s.registry ent.val
      if view.nfolds = 0 then .broken else .here ent.val.regSeq view.folds

/-! ### The rest -/

/-- `cachetag_index_detach_all` -/
def detachAll (cfg : Config α) (s : Index α) : Index α :=
  { s with
    registry := if cfg.interned then s.registry.detachAll else s.registry
    side := { s.side with objects := [] }.detachAll
    directory := s.directory.detachSegments 0
    edges := 0 }

/-- The first section of `cachetag_resize_apply_low_water`, once `cachetag_low_water_ready_locked` holds. -/
def applyLowWater (s : Index α) : Index α :=
  if s.side.objects.length = 0 ∧
      (s.directory.capobjects ≠ 0 ∨ s.side.primary.buckets + s.side.retiring.buckets ≠ 0) then
    { s with side := s.side.detachAll, directory := s.directory.detachSegments 0 }
  else if objectLowWaterTarget s.side.objects.length s.directory.capobjects < s.directory.capobjects then
    { s with
      directory := s.directory.detachSegments (objectLowWaterTarget s.side.objects.length s.directory.capobjects) }
  else s

/-- One critical section. `none` where it cannot come next: a sweep is at most one at a time, and the caller
    of `cachetag_index_detach_all` has ended it. -/
def step (cfg : Config α) (s : Index α) : IndexEvent α → Option (Index α)
  | .begin oc given regSeq allocated => some { s with calls := s.calls ++ [prepare cfg oc given regSeq allocated] }
  | .attach i ok =>
    match s.calls[i]? with
    | none => none
    | some c => attachSection cfg s i c ok
  | .invalidate oc => some (s.invalidate cfg oc)
  | .sweepStart =>
    if s.side.sweepActive then none
    else some { s with side := { s.side with sweepActive := true, sweepRemaining := s.side.objects.length } }
  | .sweepProbe verdict =>
    if s.side.sweepActive ∧ 0 < s.side.sweepRemaining then some (s.sweepProbe cfg verdict) else none
  | .sweepEnd =>
    if s.side.sweepActive ∧ s.side.sweepRemaining = 0 then
      some { s with side := { s.side with sweepActive := false, sweepRemaining := 0 } }
    else none
  | .sweepAbort =>
    if s.side.sweepActive then some { s with side := { s.side with sweepActive := false, sweepRemaining := 0 } }
    else none
  | .killAll => some (s.killAll cfg)
  | .retire => some ({ s with retired := true }.killAll cfg)
  | .detachAll => if s.side.sweepActive then none else some (s.detachAll cfg)
  | .migrateIntern =>
    some (if s.registry.migrationActive then { s with registry := s.registry.migrate resizeInternBatchSteps } else s)
  | .migrateSideBatch overrun => some { s with side := (s.side.migrateSideBatch cfg.sideHash overrun).1 }
  | .publishObjectSegment oldCapacity => some { s with directory := s.directory.publishSegment oldCapacity }
  | .lowWater => some (if s.side.LowWaterReady then s.applyLowWater else s)
  | .publishShrink buckets => some { s with side := (s.side.publishShrink buckets).1 }
  | .publishSideDestination buckets reason =>
    some { s with side := (s.side.publishSideDestination buckets reason).1 }

end Sections
end Index
end Cachetag
