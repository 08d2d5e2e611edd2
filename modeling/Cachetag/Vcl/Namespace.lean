import Cachetag.Lib.Machine

/-! The namespaces of the loaded VCLs and the indexes that they hold, under the events of the CLI thread.

One thread loads, warms, cools and discards VCLs. It does so in the critical sections below; between any two of them
the fetches of the VCLs that serve register tags, their requests and the sweeps find objects stale, and the object
events of Vinyl run. Vinyl sends `OEV_INSERT` for no object that is `OC_F_BUSY`, so a hard verdict of a callback is a kill. -/

namespace Cachetag.Vcl

/-- `struct cachetag_limits` -/
structure Limits where
  maxKeysPerObject : Nat
  maxKeyLength : Nat
  maxHeaderBytes : Nat
  purgemapSweepInterval : Rat
  purgemapHistoryMaxEntries : Nat
  purgemapSweepBatchObjects : Nat
  purgemapSweepBatchUsec : Nat
  purgemapSweepBatchYieldUsec : Nat
deriving DecidableEq

/-- `cachetag_limits_equal` -/
def limitsEqual (a b : Limits) : Bool :=
  a.maxKeysPerObject == b.maxKeysPerObject &&
  a.maxKeyLength == b.maxKeyLength &&
  a.maxHeaderBytes == b.maxHeaderBytes &&
  a.purgemapSweepInterval == b.purgemapSweepInterval &&
  a.purgemapHistoryMaxEntries == b.purgemapHistoryMaxEntries &&
  a.purgemapSweepBatchObjects == b.purgemapSweepBatchObjects &&
  a.purgemapSweepBatchUsec == b.purgemapSweepBatchUsec &&
  a.purgemapSweepBatchYieldUsec == b.purgemapSweepBatchYieldUsec

theorem limitsEqual_iff {a b : Limits} : limitsEqual a b = true ↔ a = b := by
  obtain ⟨a₁, a₂, a₃, a₄, a₅, a₆, a₇, a₈⟩ := a
  obtain ⟨b₁, b₂, b₃, b₄, b₅, b₆, b₇, b₈⟩ := b
  simp [limitsEqual, and_assoc]

/-- What an index is made with. -/
@[ext] structure Config where
  name : List UInt8
  interning : Bool
  limits : Limits
  /-- there is a `persist_path`, so the index has a log -/
  persist : Bool
deriving DecidableEq

/-- A namespace without a name is `default`. -/
def Config.named (c : Config) : Config :=
  if c.name = [] then { c with name := "default".toUTF8.toList } else c

structure Index where
  config : Config
  retired : Bool
  /-- `sweep_running` -/
  running : Bool
  objects : List Nat
deriving DecidableEq

/-- `cachetag_index_new` -/
def indexNew (c : Config) : Index := ⟨c.named, false, false, []⟩

structure Namespace where
  vcl : Nat
  index : Nat
  /-- `warm_pid` -/
  warm : Bool
  /-- `obj_cb` -/
  subscribed : Bool
  /-- `fellow_direct_active` -/
  direct : Bool
  /-- what the VCL asked for; no code reads it -/
  asked : Config
deriving DecidableEq

/-- Who warms a namespace: its `init`, or a WARM event that has more of them to come to. -/
inductive WarmCont where
  | init
  | event (vcl : Nat) (rest : List Nat)
deriving DecidableEq

/-- Who cools one: a warmup that fails, a COLD event, or its `fini`. -/
inductive ColdCont where
  | failed (k : WarmCont)
  | event (rest : List Nat)
  | fini (last : Bool)
deriving DecidableEq

/-- The next critical section of the CLI thread. -/
inductive Cli where
  | idle
  /-- `cachetag_index_delete` of the index that a shared one replaced -/
  | dispose (a n : Nat)
  /-- `cachetag_namespace_warm`: the look at `warm_pid`, and `cachetag_index_start` -/
  | start (n : Nat) (k : WarmCont)
  /-- `ObjSubscribeEvents` -/
  | subscribe (n : Nat) (k : WarmCont)
  /-- `cachetag_fellow_provider_ensure`, and the store of `warm_pid` -/
  | ensure (n : Nat) (k : WarmCont)
  /-- `cachetag_namespace_cold`: the section on `ns->mtx` -/
  | cool (n : Nat) (k : ColdCont)
  /-- `ObjUnsubscribeEvents` -/
  | unsubscribe (n : Nat) (k : ColdCont)
  /-- `cachetag_namespace_index_has_warm_peer` -/
  | peers (n : Nat) (k : ColdCont)
  | stop (n : Nat) (k : ColdCont)
  | killAll (n : Nat) (k : ColdCont)
  | detachAll (n : Nat) (k : ColdCont)
  /-- `cachetag_namespace_global_remove`, in `fini` or after a warmup that failed -/
  | remove (n : Nat) (fini : Bool)
  /-- the end of the namespace, and of its index if it was the last one -/
  | delete (n : Nat) (last : Bool)
  /-- the loop of `cachetag_namespace_retire_unshared` -/
  | retire (vcl : Nat) (rest : List Nat)
deriving DecidableEq

/-- What an `OEV_INSERT` callback that found its registration does next. -/
inductive Pc where
  | attach
  | kill
  | death
deriving DecidableEq

structure Call where
  ns : Nat
  index : Nat
  oc : Nat
  pc : Pc
deriving DecidableEq

/-- Indexes, namespaces and objects are known by the number of their allocation. -/
structure State where
  heap : Nat → Option Index
  nss : Nat → Option Namespace
  /-- `cachetag_namespaces` -/
  global : List Nat
  indexes : Nat
  created : Nat
  /-- the Fellow provider is registered -/
  provider : Bool
  cli : Cli
  /-- the VCLs that may start fetches -/
  serving : List Nat
  /-- the registrations of the fetches under way -/
  fetches : List (Nat × Nat)
  calls : List Call
  inserted : List Nat
  killed : List Nat
  gone : List Nat
  /-- the objects that a `stale()` call has found and has still to kill -/
  condemned : List Nat
  /-- the registrations of inserted objects that a volatile index has to keep -/
  owed : List (Nat × Nat)
  /-- the VCLs with a WARM event that has ended since the last namespace was made -/
  warmed : List Nat
  /-- an index was used that is not allocated -/
  fault : Bool

def State.init : State :=
  { heap := fun _ => none, nss := fun _ => none, global := [], indexes := 0, created := 0, provider := false,
    cli := .idle, serving := [], fetches := [], calls := [], inserted := [], killed := [], gone := [], condemned := [],
    owed := [], warmed := [], fault := false }

inductive Event where
  /-- `vmod_namespace__init` -/
  | load (vcl : Nat) (config : Config)
  /-- `vmod_event_function` -/
  | warm (vcl : Nat)
  | cold (vcl : Nat)
  /-- `vmod_namespace__fini` -/
  | fini (n : Nat)
  /-- the next section of the CLI thread. `replayed`: the replay of the log does not fail. `found`: a Fellow provider
      registers. `left`: the objects whose records stay behind the first one that the side table does not find. -/
  | cli (replayed found : Bool) (left : List Nat)
  /-- `cachetag_add_begin` in a fetch -/
  | register (n oc : Nat)
  /-- the fetch ends -/
  | abandon (n oc : Nat)
  /-- Vinyl sends `OEV_INSERT`. `transient`: the object is `OC_F_TRANSIENT`. -/
  | insert (oc : Nat) (transient : Bool)
  /-- `cachetag_attach`. `fails`: any of its errors. `hard`: what its probe finds. -/
  | attach (i : Nat) (fails hard : Bool)
  /-- Fellow keeps the registration -/
  | direct (i : Nat) (hard : Bool)
  /-- the callback goes on after a hard verdict -/
  | advance (i : Nat)
  /-- `cachetag_stale` finds the record of an object that was purged hard: its `cachetag_death` -/
  | stale (n oc : Nat)
  /-- the `HSH_Kill` of `vmod_namespace_stale` -/
  | staleKill (oc : Nat)
  /-- the sweep thread of an index takes out the record of an object that was purged hard, and kills it -/
  | sweep (a oc : Nat)
  /-- `HSH_Kill` by anybody else -/
  | kill (oc : Nat)
  /-- the object leaves the cache -/
  | expire (oc : Nat)
  /-- the `cachetag_death` of an `OEV_EXPIRE` callback, or of `vmod_namespace_stale` behind its kill -/
  | death (n oc : Nat)

namespace State

/-- `cachetag_index_used_by_vcl` -/
def indexUsedByVcl (s : State) (a vcl : Nat) : Bool :=
  s.global.any fun m => (s.nss m).any fun x => x.vcl == vcl && x.index == a

/-- The test of `cachetag_namespace_global_add`: may the namespace take the index of another one? -/
def shares (s : State) (x : Namespace) (c : Config) (other : Nat) : Bool :=
  (s.nss other).any fun y => (s.heap y.index).any fun idx =>
    !(y.vcl == x.vcl || y.index == x.index || s.indexUsedByVcl y.index x.vcl || idx.config.persist || idx.retired ||
      idx.config.interning != c.interning || idx.config.name != c.name || !limitsEqual idx.config.limits c.limits)

/-- The index that `cachetag_namespace_global_add` shares. -/
def shared (s : State) (x : Namespace) (c : Config) : Option Nat :=
  if c.persist then none else (s.global.find? (s.shares x c)).bind fun m => (s.nss m).map Namespace.index

/-- A use of an index. -/
def use (s : State) (a : Nat) (f : Index → State) : State :=
  match s.heap a with
  | some idx => f idx
  | none => { s with fault := true }

def setIndex (s : State) (a : Nat) (idx : Index) : State := { s with heap := Function.update s.heap a (some idx) }

def setNs (s : State) (n : Nat) (x : Namespace) : State := { s with nss := Function.update s.nss n (some x) }

/-- `cachetag_index_delete` -/
def indexDelete (s : State) (a : Nat) : State := s.use a fun _ => { s with heap := Function.update s.heap a none }

/-- `cachetag_index_kill_all_locked`: every object is killed. Behind a record that the side table does not find, the
    records stay. -/
def killAllLocked (s : State) (a : Nat) (idx : Index) (left : List Nat) : State :=
  { s.setIndex a { idx with objects := idx.objects.filter (left.contains ·) } with killed := idx.objects ++ s.killed }

/-- `cachetag_index_retire` -/
def indexRetire (s : State) (a : Nat) (left : List Nat) : State :=
  s.use a fun idx => s.killAllLocked a { idx with retired := true } left

/-- `cachetag_namespace_index_has_warm_peer` -/
def hasWarmPeer (s : State) (n a : Nat) : Bool :=
  s.global.any fun m => m != n && (s.nss m).any fun y => y.index == a && y.warm

/-- `cachetag_fellow_provider_release_if_idle` -/
def providerReleaseIfIdle (s : State) : State :=
  if s.global.any fun m => (s.nss m).any Namespace.direct then s else { s with provider := false }

/-- The first namespace of a WARM event that has still to be warmed, or the loop behind them. -/
def nextWarm (s : State) (vcl : Nat) : List Nat → Cli
  | [] => .retire vcl s.global
  | n :: rest => .start n (.event vcl rest)

def nextCold : List Nat → Cli
  | [] => .idle
  | n :: rest => .cool n (.event rest)

/-- `cachetag_namespace_warm` returns 0. -/
def warmReturn (s : State) : WarmCont → State
  | .init => { s with cli := .idle }
  | .event vcl rest => { s with cli := s.nextWarm vcl rest }

/-- It returns an error. -/
def failed (n : Nat) : WarmCont → Cli
  | .init => .remove n false
  | .event _ _ => .idle

/-- Behind `cachetag_namespace_cold`. -/
def cooled (n : Nat) : ColdCont → Cli
  | .failed k => failed n k
  | .event rest => nextCold rest
  | .fini last => .delete n last

/-- `cachetag_namespace_cold` returns. -/
def coldReturn (s : State) (n : Nat) (k : ColdCont) : State := { s.providerReleaseIfIdle with cli := cooled n k }

/-- `cachetag_namespace_warm` up to `cachetag_index_start`. -/
def start (s : State) (n : Nat) (x : Namespace) (k : WarmCont) (replayed : Bool) : State :=
  if x.warm then s.warmReturn k
  else s.use x.index fun idx =>
    if idx.config.persist ∧ replayed = false then { s with cli := failed n k }
    else { s.setIndex x.index { idx with running := true } with cli := .subscribe n k }

/-- Its end. -/
def ensure (s : State) (n : Nat) (x : Namespace) (k : WarmCont) (found : Bool) : State :=
  s.use x.index fun idx =>
    if idx.config.persist then
      if s.provider || found then
        { s.setNs n { x with warm := true, direct := true } with provider := true }.warmReturn k
      else { s with cli := .cool n (.failed k) }
    else (s.setNs n { x with warm := true, direct := false }).warmReturn k

/-- `cachetag_namespace_global_remove` -/
def namespaceGlobalRemove (s : State) (n : Nat) (x : Namespace) : State × Bool :=
  let s := { s with global := s.global.erase n }
  (s.providerReleaseIfIdle, !s.global.any fun m => (s.nss m).any fun y => y.index == x.index)

/-- A round of `cachetag_namespace_retire_unshared`. -/
def retireUnshared (s : State) (vcl m : Nat) (left : List Nat) : State :=
  match s.nss m with
  | some x => s.use x.index fun idx =>
    if x.vcl == vcl || idx.retired || s.indexUsedByVcl x.index vcl then s else s.indexRetire x.index left
  | none => { s with fault := true }

/-- A section about one namespace. -/
def onNs (s : State) (n : Nat) (f : Namespace → Option State) : Option State := (s.nss n).bind f

/-- The next critical section of the CLI thread. -/
def cliStep (s : State) (replayed found : Bool) (left : List Nat) : Option State :=
  match s.cli with
  | .idle => none
  | .dispose a n => some { s.indexDelete a with cli := .start n .init }
  | .start n k => s.onNs n fun x => some (s.start n x k replayed)
  | .subscribe n k => s.onNs n fun x => some { s.setNs n { x with subscribed := true } with cli := .ensure n k }
  | .ensure n k => s.onNs n fun x => some (s.ensure n x k found)
  | .cool n k => s.onNs n fun x =>
    some { s.setNs n { x with warm := false, direct := false } with cli := .unsubscribe n k }
  | .unsubscribe n k => s.onNs n fun x =>
    -- `ObjUnsubscribeEvents`, which is called for a subscription only, waits for the callbacks under way
    if s.calls = [] ∨ x.subscribed = false then
      some { s.setNs n { x with subscribed := false } with cli := .peers n k }
    else none
  | .peers n k => s.onNs n fun x => some (if s.hasWarmPeer n x.index then s.coldReturn n k else { s with cli := .stop n k })
  | .stop n k => s.onNs n fun x => some (s.use x.index fun idx =>
    { s.setIndex x.index { idx with running := false } with cli := .killAll n k })
  | .killAll n k => s.onNs n fun x => some (s.use x.index fun idx =>
    { s.killAllLocked x.index idx left with cli := .detachAll n k })
  | .detachAll n k => s.onNs n fun x => some (s.use x.index fun idx =>
    (s.setIndex x.index { idx with objects := [] }).coldReturn n k)
  | .remove n fini => s.onNs n fun x =>
    let (t, last) := s.namespaceGlobalRemove n x
    some { t with cli := if fini then .cool n (.fini last) else .delete n last }
  | .delete n last => s.onNs n fun x =>
    some { (if last then s.indexDelete x.index else s) with nss := Function.update s.nss n none, cli := .idle }
  | .retire vcl [] => some { s with cli := .idle, serving := vcl :: s.serving, warmed := vcl :: s.warmed }
  | .retire vcl (m :: rest) => some { s.retireUnshared vcl m left with cli := .retire vcl rest }

/-- `vmod_namespace__init` up to `cachetag_namespace_global_add`. -/
def load (s : State) (vcl : Nat) (config : Config) : State :=
  let x : Namespace := ⟨vcl, s.indexes, false, false, false, config.named⟩
  let n := s.created
  let s' := { s.setIndex s.indexes (indexNew config) with
    indexes := s.indexes + 1, created := s.created + 1, global := n :: s.global, warmed := [] }
  match s.shared x config.named with
  | some a => { s'.setNs n { x with index := a } with cli := .dispose s.indexes n }
  | none => { s'.setNs n x with cli := .start n .init }

/-- The namespaces of a VCL. -/
def ofVcl (s : State) (vcl : Nat) : List Nat := s.global.filter fun m => (s.nss m).any fun x => x.vcl == vcl

/-- A fetch of the VCL is under way. -/
def fetching (s : State) (vcl : Nat) : Bool := s.fetches.any fun f => (s.nss f.1).any fun x => x.vcl == vcl

/-- The callbacks that an insertion runs. For a transient object they end with its registrations. -/
def callsOf (s : State) (oc : Nat) : List Call :=
  s.fetches.filterMap fun f => if f.2 = oc then (s.nss f.1).bind fun x =>
    if x.subscribed then some ⟨f.1, x.index, oc, .attach⟩ else none else none

/-- The registrations that come with an object that is not transient. -/
def owedOf (s : State) (oc : Nat) : List (Nat × Nat) :=
  s.fetches.filterMap fun f => if f.2 = oc then (s.nss f.1).map fun x => (x.index, oc) else none

/-- `cachetag_attach`, on its index: an error is a hard verdict. -/
def attached (s : State) (i : Nat) (c : Call) (fails hard : Bool) : State :=
  s.use c.index fun idx =>
    if idx.retired || fails || idx.objects.contains c.oc then { s with calls := s.calls.set i { c with pc := .kill } }
    else
      let t := s.setIndex c.index { idx with objects := c.oc :: idx.objects }
      { t with calls := if hard then s.calls.set i { c with pc := .kill } else s.calls.eraseIdx i }

/-- `cachetag_death` -/
def death (s : State) (a oc : Nat) : State := s.use a fun idx => s.setIndex a { idx with objects := idx.objects.erase oc }

def step (s : State) : Event → Option State
  | .load vcl config => if s.cli = .idle ∧ vcl ∉ s.serving then some (s.load vcl config) else none
  | .warm vcl =>
    if s.cli = .idle ∧ vcl ∉ s.serving then some { s with cli := s.nextWarm vcl (s.ofVcl vcl) } else none
  | .cold vcl =>
    -- Vinyl cools no VCL that has a fetch
    if s.cli = .idle ∧ s.fetching vcl = false then
      some { s with cli := nextCold (s.ofVcl vcl), serving := s.serving.filter (· ≠ vcl) }
    else none
  | .fini n => s.onNs n fun x =>
    if s.cli = .idle ∧ x.vcl ∉ s.serving then some { s with cli := .remove n true } else none
  | .cli replayed found left => s.cliStep replayed found left
  | .register n oc => s.onNs n fun x =>
    if x.vcl ∈ s.serving ∧ oc ∉ s.inserted then some { s with fetches := (n, oc) :: s.fetches } else none
  | .abandon n oc => some { s with fetches := s.fetches.erase (n, oc) }
  | .insert oc transient =>
    if oc ∈ s.inserted then none
    else if transient then some { s with inserted := oc :: s.inserted, fetches := s.fetches.filter (·.2 ≠ oc) }
    else some { s with
      inserted := oc :: s.inserted
      fetches := s.fetches.filter (·.2 ≠ oc)
      calls := s.calls ++ s.callsOf oc
      owed := s.owed ++ s.owedOf oc }
  | .attach i fails hard => s.calls[i]?.bind fun c => if c.pc = .attach then some (s.attached i c fails hard) else none
  | .direct i hard => s.calls[i]?.bind fun c =>
    if c.pc = .attach ∧ (s.heap c.index).any (·.config.persist) then
      some (if hard then { s with calls := s.calls.set i { c with pc := .kill } }
        else { s with calls := s.calls.eraseIdx i, owed := s.owed.filter (· ≠ (c.index, c.oc)) })
    else none
  | .advance i => s.calls[i]?.bind fun c =>
    match c.pc with
    | .attach => none
    | .kill => some { s with killed := c.oc :: s.killed, calls := s.calls.set i { c with pc := .death } }
    | .death => some { s.death c.index c.oc with calls := s.calls.eraseIdx i }
  | .stale n oc => s.onNs n fun x =>
    if x.vcl ∈ s.serving ∧ (s.heap x.index).any (·.objects.contains oc) then
      some { s.death x.index oc with condemned := oc :: s.condemned }
    else none
  | .staleKill oc =>
    if oc ∈ s.condemned then some { s with killed := oc :: s.killed, condemned := s.condemned.erase oc } else none
  | .sweep a oc =>
    if (s.heap a).any (fun idx => idx.running && idx.objects.contains oc) then
      some { s.death a oc with killed := oc :: s.killed }
    else none
  | .kill oc => some { s with killed := oc :: s.killed }
  | .expire oc => some { s with gone := oc :: s.gone }
  | .death n oc => s.onNs n fun x =>
    if x.subscribed ∧ (oc ∈ s.gone ∨ oc ∈ s.killed) then some (s.death x.index oc) else none

end State
end Cachetag.Vcl
