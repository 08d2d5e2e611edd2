import Cachetag.SideTable.Table

/-! The dense objects of an index, their two side tables, and the critical sections of
`src/vmod_cachetag_index.c` that change them.

Every allocation succeeds. The memory of the object array and the counters are left out: none of the
functions below reads them. An entry is moved as a whole, whatever it carries. What a section leaves to a
clock or to a verdict of the purge map is a parameter of its event. -/

namespace Cachetag

/-- `enum cachetag_side_migration_reason` -/
inductive SideReason where
  | none
  | grow
  | rebuild
  | shrink
  | rollback
deriving DecidableEq, Repr

/-- `struct cachetag_side_location` -/
structure SideLocation where
  retiring : Bool
  bucket : Nat
  slot : Nat
deriving DecidableEq, Repr

/-- What `cachetag_side_find_locked` reports. -/
inductive SideLookup where
  | corrupt
  | absent
  | found (loc : SideLocation)
deriving DecidableEq, Repr

/-- What `cachetag_side_prepare_insert_locked` reports: 0, `EAGAIN` with a size and a reason, `EBUSY` or
    `EOVERFLOW`. -/
inductive SidePrepare where
  | ready
  | again (buckets : Nat) (reason : SideReason)
  | busy
  | overflow
deriving DecidableEq, Repr

/-- `struct cachetag_objent`: the object's pointer, and whatever else its entry carries. -/
structure ObjEnt (α β : Type*) where
  oc : α
  val : β
deriving DecidableEq, Repr

/-- The part of `struct cachetag_index` that places objects in side tables. `objects` is the dense array. -/
structure SideIndex (α β : Type*) where
  objects : List (ObjEnt α β)
  primary : SideTable
  retiring : SideTable
  migrateCursor : Nat
  migrationActive : Bool
  migrationReason : SideReason
  migrationAuto : Bool
  sweepActive : Bool
  sweepRemaining : Nat

/-- `TAG_SIDE_GROW_MIN_RUNWAY` -/
def sideGrowMinRunway : Nat := 32

/-- `TAG_RESIZE_SIDE_BATCH_BUCKETS` -/
def resizeSideBatchBuckets : Nat := 8192

/-- `cachetag_side_soft_grow_limit` -/
def sideSoftGrowLimit (buckets : Nat) : Nat :=
  let softLimit := buckets * 5 / 8
  if buckets < sideDefaultBuckets then softLimit
  else if hardGrowLoad buckets ≤ sideGrowMinRunway then 1
  else if hardGrowLoad buckets - sideGrowMinRunway < softLimit then hardGrowLoad buckets - sideGrowMinRunway
  else softLimit

namespace SideIndex
variable {α β : Type*}

/-- An index fresh from `cachetag_index_new`. -/
def new : SideIndex α β := ⟨[], .null, .null, 0, false, .none, false, false, 0⟩

/-- The pointers in the dense array. -/
def ocs (s : SideIndex α β) : List α := s.objects.map (·.oc)

/-- One of the two tables. -/
def table (s : SideIndex α β) (retiring : Bool) : SideTable := if retiring then s.retiring else s.primary

def setTable (s : SideIndex α β) (retiring : Bool) (t : SideTable) : SideIndex α β :=
  if retiring then { s with retiring := t } else { s with primary := t }

/-- The end of a migration: the retiring table goes, and the next one starts at the first bucket. -/
def endMigration (s : SideIndex α β) : SideIndex α β :=
  { s with
    retiring := .null, migrateCursor := 0, migrationActive := false, migrationReason := .none
    migrationAuto := false }

/-- `cachetag_side_publish_migration_locked`, for a map fresh from `calloc`. -/
def publishMigration (s : SideIndex α β) (buckets : Nat) (reason : SideReason) : SideIndex α β × Option SideErr :=
  if buckets = 0 ∨ buckets &&& (buckets - 1) ≠ 0 then (s, some .einval)
  else if s.migrationActive then (s, some .ebusy)
  else if s.primary.buckets ≠ 0 then
    ({ s with
        primary := .fresh buckets, retiring := s.primary, migrateCursor := 0, migrationActive := true
        migrationReason := reason, migrationAuto := false }, none)
  else ({ s with primary := .fresh buckets }.endMigration, none)

/-- `cachetag_side_rollback_shrink_locked`; `none` when it reports 0. -/
def rollbackShrink (s : SideIndex α β) : Option (SideIndex α β) :=
  if !s.migrationActive ∨ s.migrationReason ≠ .shrink ∨ s.retiring.buckets = 0 then none
  else some
    { s with
      primary := s.retiring, retiring := s.primary, migrateCursor := 0, migrationReason := .rollback
      migrationAuto := true }

/-- `cachetag_side_prepare_insert_locked`. The turn after a rollback is written out: its reason is ROLLBACK,
    so that it does not roll back again. -/
def prepareInsert (s : SideIndex α β) : SideIndex α β × SidePrepare :=
  let t := s.primary
  if t.buckets = 0 then (s, .again sideDefaultBuckets .grow)
  else if t.UnderHardLoad then (s, .ready)
  else if s.migrationActive then
    match s.rollbackShrink with
    | some s' => (s', if s'.primary.UnderHardLoad then .ready else .busy)
    | none => (s, .busy)
  else if t.buckets / 4 < t.tombstones ∧ t.live + 1 ≤ hardGrowLoad t.buckets then (s, .again t.buckets .rebuild)
  else if sizeMax / 2 < t.buckets then (s, .overflow)
  else (s, .again (t.buckets * 2) .grow)

/-- `side_migration_auto = side_migration_active` after a publication that succeeds. -/
def autoIfPublished (r : SideIndex α β × Option SideErr) : SideIndex α β × Option SideErr :=
  match r with
  | (s, none) => ({ s with migrationAuto := s.migrationActive }, none)
  | r => r

/-- `cachetag_side_publish_allocated_locked` -/
def publishAllocated (s : SideIndex α β) (buckets : Nat) (reason : SideReason) : SideIndex α β × Option SideErr :=
  if s.migrationActive then (s, some .ebusy)
  else if reason = .grow ∧ s.primary.buckets ≠ 0 ∧ buckets ≤ s.primary.buckets then (s, some .estale)
  else if reason = .rebuild ∧ buckets ≠ s.primary.buckets then (s, some .estale)
  else if reason = .shrink ∧ s.primary.buckets ≤ buckets then (s, some .estale)
  else s.publishMigration buckets reason

/-- `cachetag_side_publish_allocated_for_insert_locked` -/
def publishForInsert (s : SideIndex α β) (buckets : Nat) (reason : SideReason) : SideIndex α β × Option SideErr :=
  if s.primary.buckets = 0 then
    if buckets ≠ sideDefaultBuckets then (s, some .estale)
    else autoIfPublished (s.publishMigration buckets reason)
  else if s.migrationActive then (s, some .ebusy)
  else if s.primary.UnderHardLoad then (s, some .estale)
  else
    match reason with
    | .rebuild =>
      if buckets ≠ s.primary.buckets then (s, some .estale)
      else autoIfPublished (s.publishMigration buckets reason)
    | .grow =>
      if buckets ≠ s.primary.buckets * 2 then (s, some .estale)
      else autoIfPublished (s.publishMigration buckets reason)
    | _ => (s, some .einval)

/-- `cachetag_side_soft_resize_locked` -/
def softResize (s : SideIndex α β) : Option (Nat × SideReason) :=
  let t := s.primary
  if s.migrationActive ∨ t.buckets = 0 then none
  else if t.buckets / 4 < t.tombstones ∧ t.live ≤ hardGrowLoad t.buckets then some (t.buckets, .rebuild)
  else if t.live + t.tombstones < sideSoftGrowLimit t.buckets then none
  else if sizeMax / 2 < t.buckets then none
  else some (t.buckets * 2, .grow)

/-- The second section of `cachetag_resize_publish_side_destination`. -/
def publishSideDestination (s : SideIndex α β) (buckets : Nat) (reason : SideReason) : SideIndex α β × Option SideErr :=
  if s.softResize = some (buckets, reason) then autoIfPublished (s.publishAllocated buckets reason) else (s, none)

/-- The loop of `cachetag_side_low_water_target_locked`. It doubles 57 times at most. -/
def lowWaterLoop (s : SideIndex α β) : Nat → Nat → Nat
  | 0, _ => s.primary.buckets
  | fuel + 1, buckets =>
    if s.objects.length ≤ buckets / 4 then buckets
    else if sizeMax / 2 < buckets then s.primary.buckets
    else s.lowWaterLoop fuel (buckets * 2)

/-- `cachetag_side_low_water_target_locked` -/
def lowWaterTarget (s : SideIndex α β) : Nat :=
  if s.objects.length = 0 then 0
  else if s.primary.buckets = 0 ∨ s.migrationActive then s.primary.buckets
  else s.lowWaterLoop 59 sideDefaultBuckets

/-- What `cachetag_low_water_ready_locked` reads of the side tables. The rest of it is a clock and the load
    it recorded. -/
def LowWaterReady (s : SideIndex α β) : Prop := s.softResize.map (·.2) ≠ some .grow

instance (s : SideIndex α β) : Decidable s.LowWaterReady := inferInstanceAs (Decidable (_ ≠ _))

/-- The last section of `cachetag_resize_apply_low_water`. -/
def publishShrink (s : SideIndex α β) (buckets : Nat) : SideIndex α β × Option SideErr :=
  if s.LowWaterReady ∧ !s.migrationActive ∧ s.lowWaterTarget = buckets ∧ buckets < s.primary.buckets then
    autoIfPublished (s.publishAllocated buckets .shrink)
  else (s, none)

/-- `cachetag_side_detach_all_locked`, which `cachetag_resize_apply_low_water` calls without objects. -/
def detachAll (s : SideIndex α β) : SideIndex α β := { s with primary := .null }.endMigration

variable [DecidableEq α]

/-- `cachetag_side_find_locked` -/
def find (H : SideHash α) (s : SideIndex α β) (oc : α) : SideLookup :=
  if s.objects.length ≠ s.primary.live + s.retiring.live then .corrupt
  else
    match s.primary.find H s.ocs oc with
    | .corrupt => .corrupt
    | .absent =>
      match s.retiring.find H s.ocs oc with
      | .corrupt => .corrupt
      | .absent => .absent
      | .found bucket slot => .found ⟨true, bucket, slot⟩
    | .found bucket slot =>
      if s.retiring.buckets ≠ 0 ∧ s.retiring.find H s.ocs oc ≠ .absent then .corrupt
      else .found ⟨false, bucket, slot⟩

/-- What the loop of `cachetag_side_migrate_some_locked` does at its cursor. -/
def migrateBucket (H : SideHash α) (s : SideIndex α β) : SideIndex α β × Option SideErr :=
  match s.retiring.bucket s.migrateCursor with
  | .live _ slot =>
    match s.ocs[slot]? with
    | none => (s, some .efault)
    | some oc =>
      match s.primary.insert H s.ocs oc slot with
      | .error r => (s, some r)
      | .ok t => ({ s with primary := t, retiring := s.retiring.bury s.migrateCursor }, none)
  | _ => (s, none)

/-- The loop of `cachetag_side_migrate_some_locked`. -/
def migrateLoop (H : SideHash α) : Nat → SideIndex α β → SideIndex α β × Option SideErr
  | 0, s => (s, none)
  | n + 1, s =>
    if s.migrateCursor < s.retiring.buckets then
      match s.migrateBucket H with
      | (s', some r) => (s', some r)
      | (s', none) => migrateLoop H n { s' with migrateCursor := s'.migrateCursor + 1 }
    else (s, none)

/-- `cachetag_side_migrate_some_locked` -/
def migrateSome (H : SideHash α) (s : SideIndex α β) (maxInspected : Nat) : SideIndex α β × Option SideErr :=
  if !s.migrationActive then (s, none)
  else if s.retiring.buckets = 0 ∨ s.primary.buckets = 0 then (s, some .efault)
  else if maxInspected = 0 then (s, none)
  else
    match migrateLoop H maxInspected s with
    | (s', some r) => (s', some r)
    | (s', none) =>
      if s'.migrateCursor = s'.retiring.buckets then
        if s'.retiring.live ≠ 0 then (s', some .efault) else (s'.endMigration, none)
      else (s', none)

/-- `cachetag_resize_migrate_side_batch`. `overrun` is `cachetag_low_water_overrun_locked`. -/
def migrateSideBatch (H : SideHash α) (s : SideIndex α β) (overrun : Bool) : SideIndex α β × Option SideErr :=
  if s.migrationActive ∧ s.migrationAuto then
    let s' :=
      if s.migrationReason = .shrink ∧ (overrun ∨ s.softResize.isSome) then s.rollbackShrink.getD s else s
    match s'.migrateSome H resizeSideBatchBuckets with
    | (t, none) => (t, none)
    | (t, some r) => ({ t with migrationAuto := false }, some r)
  else (s, none)

/-- The section of `cachetag_record_attach_purgemap_take` up to the end of the prepare. -/
def attachPrepare (H : SideHash α) (s : SideIndex α β) (oc : α) : SideIndex α β × Option SideErr :=
  if sideMaxObjects ≤ s.objects.length then (s, some .eoverflow)
  else
    match s.find H oc with
    | .corrupt => (s, some .efault)
    | .found _ => (s, some .eexist)
    | .absent =>
      match s.prepareInsert with
      | (s', .ready) => (s', none)
      | (s', .again _ _) => (s', some .eagain)
      | (s', .busy) => (s', some .ebusy)
      | (s', .overflow) => (s', some .eoverflow)

/-- The end of that section: the entry is written behind the last one and gets its bucket. -/
def append (H : SideHash α) (s : SideIndex α β) (ent : ObjEnt α β) : SideIndex α β × Option SideErr :=
  match s.primary.insert H s.ocs ent.oc s.objects.length with
  | .error r => (s, some r)
  | .ok t => ({ s with primary := t, objects := s.objects ++ [ent] }, none)

/-- The section of `cachetag_record_attach_purgemap_take` that inserts. -/
def attach (H : SideHash α) (s : SideIndex α β) (ent : ObjEnt α β) : SideIndex α β × Option SideErr :=
  match s.attachPrepare H ent.oc with
  | (s', some r) => (s', some r)
  | (s', none) => s'.append H ent

/-- The steps by which `cachetag_side_remove_locked` moves the object of slot `src` to slot `dst`. `loc` is
    the bucket of the object that goes. -/
def moveObject (H : SideHash α) (s : SideIndex α β) (loc : SideLocation) (src dst : Nat) :
    SideIndex α β × Option SideErr :=
  match s.objects[src]? with
  | none => (s, some .efault)
  | some moved =>
    match s.find H moved.oc with
    | .found movedLoc =>
      if movedLoc.retiring = loc.retiring ∧ movedLoc.bucket = loc.bucket then (s, some .efault)
      else if movedLoc.slot ≠ src then (s, some .efault)
      else
        let s' := { s with objects := s.objects.set dst moved }
        if sideMaxObjects ≤ dst then (s', some .efault)
        else (s'.setTable movedLoc.retiring ((s'.table movedLoc.retiring).reslot movedLoc.bucket dst), none)
    | _ => (s, some .efault)

/-- The end of `cachetag_side_remove_locked`. -/
def dropLast (s : SideIndex α β) (loc : SideLocation) : SideIndex α β :=
  { s.setTable loc.retiring ((s.table loc.retiring).bury loc.bucket) with objects := s.objects.dropLast }

/-- `cachetag_side_remove_locked`. A sweep goes down through the slots below `sweepRemaining`, so that an
    object of a slot above may not be moved below it. -/
def remove (H : SideHash α) (s : SideIndex α β) (slot : Nat) : SideIndex α β × Option SideErr :=
  match s.objects[slot]? with
  | none => (s, some .efault)
  | some ent =>
    match s.find H ent.oc with
    | .found loc =>
      let last := s.objects.length - 1
      if !s.sweepActive ∨ s.sweepRemaining ≤ slot then
        match (if slot ≠ last then s.moveObject H loc last slot else (s, none)) with
        | (s', some r) => (s', some r)
        | (s', none) => (s'.dropLast loc, none)
      else if s.sweepRemaining = 0 ∨ s.objects.length < s.sweepRemaining then (s, some .efault)
      else
        let boundary := s.sweepRemaining - 1
        match (if slot ≠ boundary then s.moveObject H loc boundary slot else (s, none)) with
        | (s', some r) => (s', some r)
        | (s', none) =>
          match (if boundary ≠ last then s'.moveObject H loc last boundary else (s', none)) with
          | (s'', some r) => (s'', some r)
          | (s'', none) => ({ s'' with sweepRemaining := s''.sweepRemaining - 1 }.dropLast loc, none)
    | _ => (s, some .efault)

/-- `cachetag_record_invalidate`. Its callers do not see the failure. -/
def invalidate (H : SideHash α) (s : SideIndex α β) (oc : α) : SideIndex α β × Option SideErr :=
  match s.find H oc with
  | .corrupt => (s, some .efault)
  | .absent => (s, none)
  | .found loc => s.remove H loc.slot

/-- The turn of the sweep at an object that a hard purge covers. A failure ends the sweep. -/
def sweepKill (H : SideHash α) (s : SideIndex α β) : SideIndex α β × Option SideErr :=
  match s.remove H (s.sweepRemaining - 1) with
  | (s', none) => (s', none)
  | (s', some r) => ({ s' with sweepActive := false, sweepRemaining := 0 }, some r)

end SideIndex

/-- The critical sections of the index. A publication comes with the size and the reason that an earlier
    section of its caller chose. -/
inductive SideEvent (α β : Type*) where
  | prepare (oc : α)
  | attach (ent : ObjEnt α β)
  | publishForInsert (buckets : Nat) (reason : SideReason)
  | invalidate (oc : α)
  | sweepStart
  | sweepKeep
  | sweepKill
  | sweepEnd
  | killLast
  | migrateSideBatch (overrun : Bool)
  | publishSideDestination (buckets : Nat) (reason : SideReason)
  | publishShrink (buckets : Nat)
  | detachAll

namespace SideIndex
variable {α β : Type*} [DecidableEq α]

/-- One section, and the error in which it ends. -/
def act (H : SideHash α) (s : SideIndex α β) : SideEvent α β → Option (SideIndex α β × Option SideErr)
  | .prepare oc => some (s.attachPrepare H oc)
  | .attach ent => some (s.attach H ent)
  | .publishForInsert buckets reason => some (s.publishForInsert buckets reason)
  | .invalidate oc => some (s.invalidate H oc)
  | .sweepStart =>
    if s.sweepActive then none
    else some ({ s with sweepActive := true, sweepRemaining := s.objects.length }, none)
  | .sweepKeep =>
    if s.sweepActive ∧ 0 < s.sweepRemaining then some ({ s with sweepRemaining := s.sweepRemaining - 1 }, none)
    else none
  | .sweepKill => if s.sweepActive ∧ 0 < s.sweepRemaining then some (s.sweepKill H) else none
  | .sweepEnd => if s.sweepActive then some ({ s with sweepActive := false, sweepRemaining := 0 }, none) else none
  | .killLast => if s.objects.length = 0 then none else some (s.remove H (s.objects.length - 1))
  | .migrateSideBatch overrun => some (s.migrateSideBatch H overrun)
  | .publishSideDestination buckets reason => some (s.publishSideDestination buckets reason)
  | .publishShrink buckets => some (s.publishShrink buckets)
  | .detachAll => if s.objects.length = 0 then some (s.detachAll, none) else none

def step (H : SideHash α) (s : SideIndex α β) (e : SideEvent α β) : Option (SideIndex α β) := (s.act H e).map (·.1)

end SideIndex
end Cachetag
