import Cachetag.Lib.Chains
import Cachetag.SideTable.Table

/-! The registry of interned membership sets of `src/vmod_cachetag_index.c`: nodes with reference counts in
two tables of chains, the older of which is emptied node by node.

A node goes by the number of nodes published before it, and stays in `nodes` after it has left its table.
The magic words, the numbers of hits and misses, and the byte counts of what waits to be freed are left
out: none of the functions below reads them. -/

namespace Cachetag
open Chains

/-- `TAG_OBJCOUNT_OVERFLOW` -/
def objcountOverflow : Nat := 255

/-- `TAG_INTERN_INITIAL_BUCKETS` -/
def internInitialBuckets : Nat := 64

/-- `TAG_INTERN_LOOKUP_FIRST_MAX_FOLDS` -/
def internLookupFirstMaxFolds : Nat := 8

/-- `struct cachetag_interned_set`. Its link is its place in a chain. -/
structure InternedSet where
  nfolds : Nat
  hash : Nat
  refs : Nat
  folds : List Nat
deriving DecidableEq, Repr

/-- `cachetag_interned_set_bytes` -/
def InternedSet.bytes (set : InternedSet) : Nat := 32 + set.nfolds * 8

/-- The inner loop of `cachetag_intern_sort`, which moves a fold down past the greater ones before it.
    These are listed from the nearest on. -/
def internShift (fold : Nat) : List Nat → List Nat
  | [] => [fold]
  | prev :: before => if fold < prev then prev :: internShift fold before else fold :: prev :: before

/-- `cachetag_intern_sort` -/
def internSort (folds : List Nat) : List Nat :=
  if internLookupFirstMaxFolds < folds.length then folds.mergeSort
  else (folds.foldl (fun before fold => internShift fold before) []).reverse

/-- `cachetag_intern_bucket_for` -/
def internBucketFor (nbuckets hash : Nat) : Nat := hash &&& (nbuckets - 1)

/-- What `cachetag_intern_prepare_insert_locked` reports: 0, or `EAGAIN` with a number of buckets. -/
inductive InternPrepare where
  | ready
  | again (buckets : Nat)
deriving DecidableEq, Repr

/-- The interning part of `struct cachetag_index`. A table without buckets is `NULL`. `detached` lists the
    nodes that were handed to a cleanup. -/
structure Registry where
  nodes : List InternedSet
  buckets : List (List Nat)
  oldBuckets : List (List Nat)
  migrateCursor : Nat
  migrationActive : Bool
  generation : Nat
  sets : Nat
  refs : Nat
  bytes : Nat
  overflowSets : Nat
  detached : List Nat
deriving Repr

namespace Registry

/-- The registry of an index fresh from `cachetag_index_new`. -/
def new : Registry := ⟨[], [], [], 0, false, 0, 0, 0, 0, 0, []⟩

/-- `cachetag_intern_lookup_table_locked` -/
def lookupTable (r : Registry) (buckets : List (List Nat)) (folds : List Nat) (hash : Nat) : Option Nat :=
  if buckets.length = 0 then none
  else
    (chain buckets (internBucketFor buckets.length hash)).find? fun n =>
      match r.nodes[n]? with
      | none => false
      | some set => set.hash = hash ∧ set.nfolds = folds.length ∧ set.folds = folds

/-- A change of the reference count of a node. -/
def setRefs (r : Registry) (n refs : Nat) : Registry :=
  { r with nodes := r.nodes.modify n fun set => { set with refs } }

/-- The reference count of a node. -/
def refsOf (r : Registry) (n : Nat) : Nat :=
  match r.nodes[n]? with
  | none => 0
  | some set => set.refs

/-- `cachetag_intern_lookup_locked` -/
def lookup (r : Registry) (folds : List Nat) (hash : Nat) : Option Nat × Registry :=
  match (r.lookupTable r.buckets folds hash).or (r.lookupTable r.oldBuckets folds hash) with
  | none => (none, r)
  | some n => (some n, { r.setRefs n (r.refsOf n + 1) with refs := r.refs + 1 })

/-- `cachetag_intern_prepare_insert_locked` -/
def prepareInsert (r : Registry) : InternPrepare :=
  if r.buckets.length = 0 then .again internInitialBuckets
  else if r.sets + 1 ≤ r.buckets.length ∨ r.migrationActive then .ready
  else if sizeMax / 2 < r.buckets.length ∨ sizeMax / 8 < r.buckets.length * 2 then .ready
  else .again (r.buckets.length * 2)

/-- `cachetag_intern_publish_table_locked`, for an array fresh from `calloc`; `none` when it fails. -/
def publishTable (r : Registry) (nbuckets generation : Nat) : Option Registry :=
  if nbuckets = 0 ∨ nbuckets &&& (nbuckets - 1) ≠ 0 ∨ r.migrationActive ∨ generation ≠ r.generation then none
  else if r.buckets.length = 0 then
    if nbuckets ≠ internInitialBuckets then none
    else some { r with buckets := List.replicate nbuckets [], generation := r.generation + 1 }
  else if nbuckets ≠ r.buckets.length * 2 ∨ r.sets + 1 ≤ r.buckets.length then none
  else some
    { r with
      buckets := List.replicate nbuckets [], oldBuckets := r.buckets, migrateCursor := 0, migrationActive := true
      generation := r.generation + 1 }

/-- The old table goes. -/
def endMigration (r : Registry) : Registry :=
  { r with oldBuckets := [], migrateCursor := 0, migrationActive := false }

/-- One turn of the loop of `cachetag_intern_migrate_locked`, while a migration is active. -/
def migrateStep (r : Registry) : Registry :=
  if r.migrateCursor = r.oldBuckets.length then r.endMigration
  else
    match chain r.oldBuckets r.migrateCursor with
    | [] => { r with migrateCursor := r.migrateCursor + 1 }
    | n :: _ =>
      match r.nodes[n]? with
      | none => r
      | some set =>
        { r with
          buckets := push r.buckets (internBucketFor r.buckets.length set.hash) n
          oldBuckets := unlink r.oldBuckets r.migrateCursor n }

/-- The loop of `cachetag_intern_migrate_locked`. -/
def migrateLoop : Nat → Registry → Registry
  | 0, r => r
  | steps + 1, r => if r.migrationActive then migrateLoop steps r.migrateStep else r

/-- `cachetag_intern_migrate_locked` -/
def migrate (r : Registry) (steps : Nat) : Registry :=
  let r' := migrateLoop steps r
  if r'.migrationActive ∧ r'.migrateCursor = r'.oldBuckets.length then r'.endMigration else r'

/-- `cachetag_intern_publish_locked`, with the number of the new node. -/
def publish (r : Registry) (candidate : InternedSet) : Nat × Registry :=
  let n := r.nodes.length
  (n,
    { r with
      nodes := r.nodes ++ [{ candidate with refs := 1 }]
      buckets := push r.buckets (internBucketFor r.buckets.length candidate.hash) n
      sets := r.sets + 1, refs := r.refs + 1, bytes := r.bytes + candidate.bytes
      overflowSets := r.overflowSets + if objcountOverflow ≤ candidate.nfolds then 1 else 0 })

/-- The second half of `cachetag_intern_release_locked`, for a node without references: it leaves its chain,
    which is looked for in the new table first. -/
def discard (r : Registry) (n : Nat) (set : InternedSet) : Registry :=
  let b := internBucketFor r.buckets.length set.hash
  let tables :=
    if n ∈ chain r.buckets b then (unlink r.buckets b n, r.oldBuckets)
    else (r.buckets, unlink r.oldBuckets (internBucketFor r.oldBuckets.length set.hash) n)
  { r with
    buckets := tables.1, oldBuckets := tables.2, sets := r.sets - 1, bytes := r.bytes - set.bytes
    overflowSets := r.overflowSets - if objcountOverflow ≤ set.nfolds then 1 else 0
    detached := n :: r.detached }

/-- `cachetag_intern_release_locked` -/
def release (r : Registry) (n : Nat) : Registry :=
  match r.nodes[n]? with
  | none => r
  | some set =>
    let r' := { r.setRefs n (set.refs - 1) with refs := r.refs - 1 }
    if 0 < set.refs - 1 then r' else r'.discard n set

/-- The nodes in the two tables. -/
def linked (r : Registry) : List Nat := r.buckets.flatten ++ r.oldBuckets.flatten

/-- `cachetag_intern_detach_all_locked` -/
def detachAll (r : Registry) : Registry :=
  { r with
    buckets := [], oldBuckets := [], migrateCursor := 0, migrationActive := false, generation := r.generation + 1
    sets := 0, refs := 0, bytes := 0, overflowSets := 0, detached := r.linked ++ r.detached }

end Registry
end Cachetag
