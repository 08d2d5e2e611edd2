import Cachetag.EpochGate
import Cachetag.Purgemap.Reclaim

/-! The certified reclaim of a memory-only namespace.

A sweep that takes a certificate notes the purge sequence as its cutoff and flips the publication gate. Once
it has seen every record, and the fetches that hold the phase it left are out, the purge map may forget
everything up to the cutoff. Fetches, purges, invalidations and the sweeper run beside each other; each step
is one section under a mutex, or one access to the gate.

No object is `OC_F_BUSY` any longer when Vinyl sends `OEV_INSERT` for it: the guard of `cachetag_apply_attach_purge` holds
no kill back. -/

namespace Cachetag.Certificate
open Purgemap

/-- Where the fetch of an object stands. The slot is that of the publication gate. -/
inductive Stage where
  | idle
  /-- has loaded the phase -/
  | entering (slot : Bool)
  /-- has incremented its slot -/
  | counted (slot : Bool)
  /-- has found the phase changed -/
  | leaving (slot : Bool)
  /-- has found the phase unchanged -/
  | stable (slot : Bool)
  /-- has read the purge sequence -/
  | registered (slot : Bool)
  /-- is out of `cachetag_attach`, with its purge mode -/
  | attached (slot : Bool) (verdict : ProbeResult)
  /-- is behind `HSH_Kill` -/
  | killed (slot : Bool)
  /-- is about to call `cachetag_publication_exit` -/
  | exiting (slot : Bool)
  | ended
deriving DecidableEq, Repr

/-- The fetch is counted in a slot. -/
def Stage.In (slot : Bool) : Stage → Bool
  | .counted b | .leaving b | .stable b | .registered b | .attached b _ | .killed b | .exiting b => b == slot
  | _ => false

/-- The fetch has a registration, and holds a slot for it. -/
def Stage.InFlight (slot : Bool) : Stage → Bool
  | .registered b | .attached b _ | .killed b | .exiting b => b == slot
  | _ => false

/-- The fetch has found its phase unchanged. -/
def Stage.Active (slot : Bool) (st : Stage) : Bool := st == .stable slot || st.InFlight slot

/-- The fetch is past the attach. -/
def Stage.Tracked : Stage → Bool
  | .attached .. | .killed _ | .exiting _ | .ended => true
  | _ => false

/-- An object: its fetch, its registration, and what has happened to it in the cache. -/
structure Obj where
  stage : Stage
  reg : Nat
  folds : List Fold
  /-- `HSH_Kill` -/
  killed : Bool
  /-- `EXP_Reduce` -/
  reduced : Bool
deriving DecidableEq

/-- What `cachetag_purgemap_cert_begin` notes, and the floors of that moment, which no code reads. -/
structure Cert where
  cutoff : Nat
  phase : Bool
  hardFloor : Nat
  softFloor : Nat
deriving DecidableEq, Repr

/-- Where the thread stands that holds `sweep_mtx`, with its certificate if it got one. -/
inductive Sweep where
  | idle
  /-- is behind `cachetag_purgemap_cert_begin` -/
  | begun (cert : Option Cert)
  /-- is in the loop of `cachetag_record_sweep_purgemap`, with `sweep_remaining` -/
  | running (cert : Option Cert) (remaining : Nat)
  /-- is behind that loop -/
  | ran (cert : Option Cert) (aborted : Bool)
deriving DecidableEq, Repr

structure State where
  hist : History
  /-- what the purge that holds `purge_mtx` is about to publish behind its sequence -/
  writer : Option History
  /-- `publication_gate` -/
  gate : Gate
  objs : List Obj
  /-- the object table: the objects in their slots -/
  records : List Nat
  sweep : Sweep
  /-- `reclaim_pending`, with `reclaim_cutoff` and `reclaim_phase` -/
  pending : Option Cert
  /-- `publication_blocked`, with `publication_blocked_phase` -/
  blocked : Option Bool

def State.init : State := ⟨History.init, none, Gate.init, [], [], .idle, none, none⟩

inductive Event where
  /-- a purge stores its sequence, or is refused -/
  | purge (digest : Digest) (mode : PurgeMode) (env : Env)
  | purgeBatch (digests : List Digest) (mode : PurgeMode) (env : Env)
  /-- it changes the map -/
  | publish
  /-- a fetch begins -/
  | create
  /-- a fetch goes on -/
  | fetch (i : Nat) (attaches : Bool)
  /-- `cachetag_add_snapshot` -/
  | tag (i : Nat) (fold : Fold)
  /-- a fetch ends without its object -/
  | abandon (i : Nat)
  /-- `cachetag_record_invalidate` -/
  | invalidate (i : Nat)
  /-- `HSH_Kill` by anybody else -/
  | kill (i : Nat)
  | tryReclaim (env : Env)
  | certBegin
  | sweepStart
  | sweepOne
  | sweepAbort
  | sweepEnd
  | certFinish

/-- The probe of the purge map for an object. -/
def State.verdict (s : State) (o : Obj) : Option ProbeResult := probe s.hist.map o.reg (o.folds.map Fold.val)

/-- What the sweep makes of a record. -/
def State.recordVerdict (s : State) (o : Obj) : Option ProbeResult :=
  if o.folds.isEmpty then some .hard else s.verdict o

/-- The object of a fetch becomes another, and the gate is left as given. -/
def State.setObj (s : State) (i : Nat) (o : Obj) (gate : Gate) : State := { s with objs := s.objs.set i o, gate := gate }

/-- `cachetag_side_remove_locked`: the object table without a slot. During a sweep, an object that is still
    to be seen takes the place of one that was. -/
def State.remove (s : State) (slot : Nat) : State :=
  let last := s.records.getD (s.records.length - 1) 0
  match s.sweep with
  | .running cert remaining =>
    if slot < remaining then
      let boundary := remaining - 1
      { s with
        records := ((s.records.set slot (s.records.getD boundary 0)).set boundary last).dropLast
        sweep := .running cert boundary }
    else { s with records := (s.records.set slot last).dropLast }
  | _ => { s with records := (s.records.set slot last).dropLast }

/-- `cachetag_record_invalidate` -/
def State.invalidate (s : State) (i : Nat) : State := if i ∈ s.records then s.remove (s.records.idxOf i) else s

/-- A step of a fetch. An attach that fails fails closed. -/
def State.fetchStep (s : State) (i : Nat) (o : Obj) (attaches : Bool) : Option State :=
  match o.stage with
  | .idle => some (s.setObj i { o with stage := .entering s.gate.phase } s.gate)
  | .entering b => some (s.setObj i { o with stage := .counted b } (s.gate.enter b))
  | .counted b => some (s.setObj i { o with stage := if s.gate.phase = b then .stable b else .leaving b } s.gate)
  | .leaving b => some (s.setObj i { o with stage := .idle } (s.gate.leave b))
  | .stable b => some (s.setObj i { o with stage := .registered b, reg := s.hist.map.seq } s.gate)
  | .registered b =>
    if attaches && !o.folds.isEmpty then
      (s.verdict o).map fun v =>
        let t := s.setObj i { o with stage := .attached b v } s.gate
        { t with records := t.records ++ [i] }
    else some (s.setObj i { o with stage := .attached b .hard } s.gate)
  | .attached b .hard => some (s.setObj i { o with stage := .killed b, killed := true } s.gate)
  | .attached b .soft => some (s.setObj i { o with stage := .exiting b, reduced := true } s.gate)
  | .attached b .none => some (s.setObj i { o with stage := .exiting b } s.gate)
  | .killed b => some ((s.setObj i { o with stage := .exiting b } s.gate).invalidate i)
  | .exiting b => some (s.setObj i { o with stage := .ended } (s.gate.leave b))
  | .ended => none

/-- The sweep of one record. -/
def State.sweepOne (s : State) (cert : Option Cert) (u : Nat) : Option State :=
  match s.records[u]? with
  | none => none
  | some i =>
    match s.objs[i]? with
    | none => none
    | some o =>
      (s.recordVerdict o).map fun v =>
        match v with
        | .hard => (s.remove u).setObj i { o with killed := true } s.gate
        | .soft => { s.setObj i { o with reduced := true } s.gate with sweep := .running cert u }
        | .none => { s with sweep := .running cert u }

/-- `cachetag_purgemap_cert_begin` behind its `cachetag_purgemap_try_reclaim`. -/
def State.certBegin (s : State) : State :=
  if s.blocked.any fun b => s.gate.readers b ≠ 0 then { s with sweep := .begun none }
  else if s.pending.isSome then { s with sweep := .begun none, blocked := none }
  else
    { s with
      sweep := .begun (some ⟨s.hist.map.seq, s.gate.phase, s.hist.map.hardFloor, s.hist.map.softFloor⟩)
      blocked := none
      gate := s.gate.flip }

/-- `cachetag_purgemap_try_reclaim`. What the map forgets leaves the log. -/
def State.tryReclaim (s : State) (env : Env) : State :=
  match s.pending with
  | none => s
  | some c =>
    if s.gate.readers c.phase ≠ 0 then s
    else
      match reclaim env s.hist.map c.cutoff with
      | .error _ => s
      | .ok pm => { s with hist := ⟨pm, s.hist.log.filter fun p => c.cutoff < p.seq, s.hist.saved⟩, pending := none }

/-- A purge that was accepted stores its sequence first. -/
def State.purged (s : State) (p : Purged) (folds : List Fold) (mode : PurgeMode) : State :=
  if p.reply = .accepted then
    { s with
      hist := { s.hist with map := { s.hist.map with seq := s.hist.map.seq + 1 } }
      writer := some (s.hist.answered p folds mode) }
  else { s with hist := s.hist.answered p folds mode }

/-- A namespace without persistence, with its history cap. -/
def config (historyMax : Nat) : Config := ⟨historyMax, false⟩

def step (historyMax : Nat) (s : State) : Event → Option State
  | .purge d mode env =>
    if s.writer.isSome then none
    else
      match purge (config historyMax) env s.hist.map d mode with
      | .error _ => none
      | .ok p => some (s.purged p [foldDigest d] mode)
  | .purgeBatch ds mode env =>
    if s.writer.isSome then none
    else
      match purgeBatch (config historyMax) env s.hist.map ds mode with
      | .error _ => none
      | .ok p => some (s.purged p (ds.map foldDigest) mode)
  | .publish => s.writer.map fun h => { s with hist := h, writer := none }
  | .create => some { s with objs := s.objs ++ [⟨.idle, 0, [], false, false⟩] }
  | .fetch i attaches => s.objs[i]?.bind fun o => s.fetchStep i o attaches
  | .tag i f => s.objs[i]?.bind fun o =>
    if (o.stage.InFlight true || o.stage.InFlight false) && !o.stage.Tracked then
      some (s.setObj i { o with folds := o.folds ++ [f] } s.gate)
    else none
  | .abandon i => s.objs[i]?.bind fun o =>
    match o.stage with
    | .registered b => some (s.setObj i { o with stage := .exiting b } s.gate)
    | _ => none
  | .invalidate i => some (s.invalidate i)
  | .kill i => s.objs[i]?.map fun o => s.setObj i { o with killed := true } s.gate
  | .tryReclaim env => if s.writer = none ∧ s.sweep = .idle then some (s.tryReclaim env) else none
  | .certBegin => if s.writer = none ∧ s.sweep = .idle then some s.certBegin else none
  | .sweepStart =>
    match s.sweep with
    | .begun cert => some { s with sweep := .running cert s.records.length }
    | _ => none
  | .sweepOne =>
    match s.sweep with
    | .running cert (u + 1) => s.sweepOne cert u
    | _ => none
  | .sweepAbort =>
    match s.sweep with
    | .begun cert | .running cert _ => some { s with sweep := .ran cert true }
    | _ => none
  | .sweepEnd =>
    match s.sweep with
    | .running cert 0 => some { s with sweep := .ran cert false }
    | _ => none
  | .certFinish =>
    match s.sweep with
    | .ran none _ => some { s with sweep := .idle }
    | .ran (some c) aborted =>
      if s.writer.isSome then none
      else if aborted then some { s with sweep := .idle, blocked := some c.phase }
      else some { s with sweep := .idle, pending := some c }
    | _ => none

/-! ### What a certificate stands for -/

/-- The certificate that the sweeper holds. -/
def Sweep.cert : Sweep → Option Cert
  | .begun c | .running c _ | .ran c _ => c
  | .idle => none

/-- The sweep has not been aborted. -/
def Sweep.Sound : Sweep → Bool
  | .ran _ true => false
  | _ => true

/-- The certificate that the next reclaim would rest on. -/
def State.cert (s : State) : Option Cert :=
  match s.sweep.cert with
  | none => s.pending
  | some c => if s.sweep.Sound then some c else none

/-- The phase that may have holders from before the last flip. -/
def State.old (s : State) : Option Bool := ((s.sweep.cert.or s.pending).map Cert.phase).or s.blocked

/-- The record of an object is among those that the sweep of the certificate has seen, or that came after. -/
def State.Scanned (s : State) (i : Nat) : Prop :=
  match s.sweep with
  | .begun (some _) => False
  | .running (some _) n => ∃ u, n ≤ u ∧ s.records[u]? = some i
  | _ => i ∈ s.records

/-- A hard purge up to the cutoff, or the hard floor of the certificate, condemns the object. -/
def Obj.HardDue (log : List Purge) (c : Cert) (o : Obj) : Prop :=
  o.reg < c.hardFloor ∨ ∃ p ∈ log, p.mode = .hard ∧ p.fold ∈ o.folds.map Fold.val ∧ o.reg < p.seq ∧ p.seq ≤ c.cutoff

/-- A soft purge up to the cutoff, or the soft floor of the certificate, is behind the object's registration. -/
def Obj.SoftDue (log : List Purge) (c : Cert) (o : Obj) : Prop :=
  o.reg < c.softFloor ∨ ∃ p ∈ log, p.mode = .soft ∧ p.fold ∈ o.folds.map Fold.val ∧ o.reg < p.seq ∧ p.seq ≤ c.cutoff

/-- What is due has happened, or the fetch is about to do it. -/
def Obj.Settled (log : List Purge) (c : Cert) (o : Obj) : Prop :=
  o.killed = true ∨
    (o.HardDue log c → ∃ b, o.stage = .attached b .hard) ∧
    (o.SoftDue log c → o.reduced = true ∨ ∃ b v, o.stage = .attached b v ∧ v ≠ .none)

/-- What holds while a certificate is in force. -/
structure Certified (s : State) (c : Cert) : Prop where
  cutoff : c.cutoff ≤ s.hist.map.seq
  hardFloor : c.hardFloor ≤ s.hist.map.hardFloor ∧ c.hardFloor ≤ c.cutoff
  softFloor : c.softFloor ≤ s.hist.map.softFloor ∧ c.softFloor ≤ c.cutoff
  /-- a registration in the other slot is not behind the cutoff -/
  young : ∀ o ∈ s.objs, o.stage.InFlight (!c.phase) = true → c.cutoff ≤ o.reg
  scanned : ∀ i, s.Scanned i → ∀ o, s.objs[i]? = some o → o.Settled s.hist.log c

/-- What a purge under way is about to publish. -/
structure Publishes (s : State) (h : History) : Prop where
  inv : h.Inv
  seq : s.hist.map.seq ≤ h.map.seq
  hardFloor : s.hist.map.hardFloor ≤ h.map.hardFloor
  softFloor : s.hist.map.softFloor ≤ h.map.softFloor
  log : ∀ p ∈ h.log, p ∈ s.hist.log ∨ ∀ c, s.cert = some c → c.cutoff < p.seq

structure Inv (s : State) : Prop where
  hist : s.hist.Inv
  writer : ∀ h, s.writer = some h → Publishes s h
  counts : s.gate.Counts (fun slot o => o.stage.In slot) s.objs
  tracked : ∀ i ∈ s.records, ∃ o, s.objs[i]? = some o ∧ o.stage.Tracked = true
  /-- there is one certificate or blocked phase at most -/
  alone : (s.sweep.cert.isSome → s.pending = none) ∧ (s.sweep.cert.isSome ∨ s.pending.isSome → s.blocked = none)
  phase : ∀ b, s.old = some b → s.gate.phase = !b
  calm : s.old = none → ∀ o ∈ s.objs, o.stage.Active (!s.gate.phase) = false
  range : ∀ c n, s.sweep = .running c n → n ≤ s.records.length
  cert : ∀ c, s.cert = some c → Certified s c

section Inv
variable {historyMax : Nat} {s t : State} {c : Cert} {i slot : Nat} {o o' : Obj} {g : Gate} {h' : History}
  {log log' : List Purge} {v : ProbeResult} {st : Stage} {b : Bool}

theorem Stage.InFlight.active (hst : st.InFlight b = true) : st.Active b = true := by
  simp [Stage.Active, hst]

theorem Stage.Active.in (hst : st.Active b = true) : st.In b = true := by
  cases st <;> simp_all [Stage.Active, Stage.In, Stage.InFlight]

/-- What is due rests on the log up to the cutoff alone. -/
theorem Obj.HardDue.mono (hd : o.HardDue log c) (hlog : ∀ p ∈ log, p ∈ log' ∨ c.cutoff < p.seq) : o.HardDue log' c := by
  refine hd.imp id ?_
  rintro ⟨p, hp, hm, hf, hlt, hle⟩
  exact ⟨p, (hlog p hp).resolve_right (Nat.not_lt.mpr hle), hm, hf, hlt, hle⟩

theorem Obj.SoftDue.mono (hd : o.SoftDue log c) (hlog : ∀ p ∈ log, p ∈ log' ∨ c.cutoff < p.seq) : o.SoftDue log' c := by
  refine hd.imp id ?_
  rintro ⟨p, hp, hm, hf, hlt, hle⟩
  exact ⟨p, (hlog p hp).resolve_right (Nat.not_lt.mpr hle), hm, hf, hlt, hle⟩

theorem Obj.Settled.mono (hset : o.Settled log c) (hlog : ∀ p ∈ log', p ∈ log ∨ c.cutoff < p.seq) : o.Settled log' c :=
  hset.imp id fun ⟨hh, hs⟩ => ⟨fun hd => hh (hd.mono hlog), fun hd => hs (hd.mono hlog)⟩

/-- Nothing is due of an object that was registered behind the cutoff. -/
theorem Certified.not_due (hc : Certified s c) (hreg : c.cutoff ≤ o.reg) : ¬ o.HardDue log c ∧ ¬ o.SoftDue log c := by
  constructor
  · rintro (hlt | ⟨p, -, -, -, hlt, hle⟩)
    · exact absurd (hc.hardFloor.2.trans hreg) (Nat.not_le.mpr hlt)
    · omega
  · rintro (hlt | ⟨p, -, -, -, hlt, hle⟩)
    · exact absurd (hc.softFloor.2.trans hreg) (Nat.not_le.mpr hlt)
    · omega

/-- While the certificate is in force, probes find what is due. -/
theorem Certified.verdict (hc : Certified s c) (hinv : s.hist.Inv) (hv : s.verdict o = some v) :
    (o.HardDue s.hist.log c → v = .hard) ∧ (o.SoftDue s.hist.log c → v ≠ .none) := by
  obtain ⟨hle, -⟩ := hinv.sound.represents.verdict o.reg (o.folds.map Fold.val)
  rw [State.verdict, probe_spec hinv.wf, Option.some.injEq] at hv
  rw [hv] at hle
  constructor
  · rintro (hlt | ⟨p, hp, hm, hf, hlt, -⟩)
    · rw [← hv]
      exact if_pos (.inl (Nat.lt_of_lt_of_le hlt hc.hardFloor.1))
    · rw [logVerdict, if_pos ⟨p, hp, hm, hf, hlt⟩] at hle
      revert hle
      cases v <;> decide
  · rintro (hlt | ⟨p, hp, hm, hf, hlt, -⟩)
    · rw [← hv, mapVerdict]
      split
      · decide
      · rw [if_pos (.inl (Nat.lt_of_lt_of_le hlt hc.softFloor.1))]
        decide
    · rintro rfl
      revert hle
      rw [logVerdict]
      split
      · decide
      · rw [if_pos ⟨p, hp, hm, hf, hlt⟩]
        decide

/-- What the sweep and the attach find does what is due. -/
theorem Certified.settled (hc : Certified s c) (hinv : s.hist.Inv) (hv : s.verdict o = some v) :
    Obj.Settled s.hist.log c { o with stage := .attached b v } := by
  obtain ⟨hhard, hsoft⟩ := hc.verdict hinv hv
  refine .inr ⟨fun hd => ⟨b, ?_⟩, fun hd => .inr ⟨b, v, rfl, hsoft hd⟩⟩
  rw [hhard hd]

/-! ### Removals from the object table -/

theorem mem_swap {l : List Nat} {n : Nat} (hs : slot < l.length)
    (hu : ∃ u, n ≤ u ∧ ((l.set slot (l.getD (l.length - 1) 0)).dropLast)[u]? = some i) :
    ∃ u, n ≤ u ∧ l[u]? = some i := by
  obtain ⟨u, hu, hget⟩ := hu
  grind

theorem mem_swap_boundary {l : List Nat} {n : Nat} (hs : slot ≤ n) (hn : n < l.length)
    (hu : ∃ u, n ≤ u ∧ (((l.set slot (l.getD n 0)).set n (l.getD (l.length - 1) 0)).dropLast)[u]? = some i) :
    ∃ u, n + 1 ≤ u ∧ l[u]? = some i := by
  obtain ⟨u, hu, hget⟩ := hu
  grind

theorem mem_swap_all {l : List Nat} {n : Nat} (hn : n < l.length)
    (hi : i ∈ ((l.set slot (l.getD n 0)).set n (l.getD (l.length - 1) 0)).dropLast) : i ∈ l := by
  have mem : ∀ k, k < l.length → l.getD k 0 ∈ l := fun k hk => by simp [List.getD_eq_getElem?_getD, hk]
  rcases List.mem_or_eq_of_mem_set (List.mem_of_mem_dropLast hi) with hi | rfl
  · rcases List.mem_or_eq_of_mem_set hi with hi | rfl
    · exact hi
    · exact mem n hn
  · exact mem _ (by omega)

theorem mem_iff_from_zero {l : List Nat} : i ∈ l ↔ ∃ u, 0 ≤ u ∧ l[u]? = some i := by
  rw [List.mem_iff_getElem?]
  simp

/-- What a removal leaves: no new record, and no record seen that was not. -/
structure Removes (s t : State) : Prop where
  hist : t.hist = s.hist
  writer : t.writer = s.writer
  gate : t.gate = s.gate
  objs : t.objs = s.objs
  pending : t.pending = s.pending
  blocked : t.blocked = s.blocked
  sweep : t.sweep.cert = s.sweep.cert ∧ t.sweep.Sound = s.sweep.Sound
  records : ∀ i ∈ t.records, i ∈ s.records
  scanned : ∀ i, t.Scanned i → s.Scanned i
  range : ∀ c n, t.sweep = .running c n → n ≤ t.records.length

theorem Removes.of_remove (hs : slot < s.records.length) (hrange : ∀ c n, s.sweep = .running c n → n ≤ s.records.length) :
    Removes s (s.remove slot) := by
  -- The record that is moved was in the table before.
  have swap : ∀ i, i ∈ (s.records.set slot (s.records.getD (s.records.length - 1) 0)).dropLast → i ∈ s.records :=
    fun i hi => mem_iff_from_zero.mpr (mem_swap hs (mem_iff_from_zero.mp hi))
  unfold State.remove
  split
  · rename_i cert n hsw
    have hn := hrange cert n hsw
    split
    · rename_i hlt
      -- The slot is still to be seen. It gets another such record, and the last one, which was seen, comes to the mark.
      have hb : slot ≤ n - 1 ∧ n - 1 < s.records.length := by omega
      have hmem : ∀ i, i ∈ ((s.records.set slot (s.records.getD (n - 1) 0)).set (n - 1)
          (s.records.getD (s.records.length - 1) 0)).dropLast → i ∈ s.records := fun i => mem_swap_all hb.2
      refine ⟨rfl, rfl, rfl, rfl, rfl, rfl, by rw [hsw]; exact ⟨rfl, rfl⟩, hmem, fun i hi => ?_, ?_⟩
      · unfold State.Scanned at hi ⊢
        rw [hsw]
        cases cert with
        | none => exact hmem i hi
        | some c =>
          obtain ⟨u, hu, hget⟩ := mem_swap_boundary hb.1 hb.2 hi
          exact ⟨u, by omega, hget⟩
      · rintro _ _ ⟨⟩
        simp only [List.length_dropLast, List.length_set]
        omega
    · rename_i hge
      refine ⟨rfl, rfl, rfl, rfl, rfl, rfl, ⟨rfl, rfl⟩, swap, fun i hi => ?_, ?_⟩
      · unfold State.Scanned at hi ⊢
        simp only [hsw] at hi ⊢
        cases cert with
        | none => exact swap i hi
        | some c => exact mem_swap hs hi
      · intro c' n' hsw'
        obtain ⟨-, rfl⟩ := Sweep.running.inj (hsw.symm.trans hsw')
        simp only [List.length_dropLast, List.length_set]
        omega
  · rename_i hnot
    refine ⟨rfl, rfl, rfl, rfl, rfl, rfl, ⟨rfl, rfl⟩, swap, fun i hi => ?_, fun c n hsw => absurd hsw (hnot c n)⟩
    unfold State.Scanned at hi ⊢
    dsimp only at hi
    split at hi
    · exact hi
    · rename_i c n hsw
      exact absurd hsw (hnot _ _)
    · exact swap i hi

theorem Removes.cert (hr : Removes s t) : t.cert = s.cert := by
  unfold State.cert
  rw [hr.sweep.1, hr.sweep.2, hr.pending]

theorem Removes.old (hr : Removes s t) : t.old = s.old := by
  unfold State.old
  rw [hr.sweep.1, hr.pending, hr.blocked]

theorem Inv.removes (h : Inv s) (hr : Removes s t) : Inv t where
  hist := hr.hist ▸ h.hist
  writer := fun w hw => by
    obtain ⟨h1, h2, h3, h4, h5⟩ := h.writer w (hr.writer ▸ hw)
    exact ⟨h1, hr.hist ▸ h2, hr.hist ▸ h3, hr.hist ▸ h4, fun p hp => by rw [hr.hist, hr.cert]; exact h5 p hp⟩
  counts := by rw [hr.gate, hr.objs]; exact h.counts
  tracked := fun i hi => by rw [hr.objs]; exact h.tracked i (hr.records i hi)
  alone := by rw [hr.sweep.1, hr.pending, hr.blocked]; exact h.alone
  phase := by rw [hr.old, hr.gate]; exact h.phase
  calm := by rw [hr.old, hr.objs, hr.gate]; exact h.calm
  range := hr.range
  cert := fun c hc => by
    obtain ⟨h1, h2, h3, h4, h5⟩ := h.cert c (hr.cert ▸ hc)
    refine ⟨hr.hist ▸ h1, hr.hist ▸ h2, hr.hist ▸ h3, hr.objs ▸ h4, fun i hi o ho => ?_⟩
    rw [hr.hist]
    exact h5 i (hr.scanned i hi) o (hr.objs ▸ ho)

theorem Inv.invalidate (h : Inv s) (i : Nat) : Inv (s.invalidate i) := by
  unfold State.invalidate
  split
  · rename_i hi
    exact h.removes (Removes.of_remove (List.idxOf_lt_length_of_mem hi) h.range)
  · exact h

/-! ### Fetches -/

theorem State.Scanned.mem (hs : s.Scanned i) : i ∈ s.records := by
  unfold State.Scanned at hs
  split at hs
  · exact hs.elim
  · obtain ⟨u, -, hu⟩ := hs
    exact List.mem_of_getElem? hu
  · exact hs

/-- An object without a record has not been seen. -/
theorem Inv.not_scanned (h : Inv s) (hi : s.objs[i]? = some o) (hst : o.stage.Tracked = false) : ¬ s.Scanned i := by
  intro hs
  obtain ⟨o', ho', ht⟩ := h.tracked i hs.mem
  rw [hi] at ho'
  cases ho'
  rw [hst] at ht
  cases ht

/-- What an object that is not about to be killed or reduced has settled stays so. -/
theorem Obj.Settled.pass (hset : o.Settled log c) (hst : ∀ b v, o.stage ≠ .attached b v) :
    Obj.Settled log c { o with stage := st } := by
  refine hset.imp id fun ⟨hh, hs⟩ => ⟨fun hd => ?_, fun hd => ?_⟩
  · obtain ⟨b, hb⟩ := hh hd
    exact absurd hb (hst _ _)
  · rcases hs hd with hr | ⟨b, v, hb, -⟩
    · exact .inl hr
    · exact absurd hb (hst _ _)

/-- The soft attach purge is carried out. -/
theorem Obj.Settled.reduce {r : Bool} (hset : o.Settled log c) (hst : o.stage = .attached b v) (hv : v ≠ .hard)
    (hr : o.reduced = true ∨ v ≠ .none → r = true) : Obj.Settled log c { o with stage := st, reduced := r } := by
  refine hset.imp id fun ⟨hh, hs⟩ => ⟨fun hd => ?_, fun hd => .inl ?_⟩
  · obtain ⟨b', hb'⟩ := hh hd
    rw [hst] at hb'
    exact absurd (Stage.attached.inj hb').2 hv
  · rcases hs hd with hred | ⟨b', v', hb', hne⟩
    · exact hr (.inl hred)
    · rw [hst] at hb'
      obtain ⟨-, rfl⟩ := Stage.attached.inj hb'
      exact hr (.inr hne)

/-- A fetch moves to another stage. -/
theorem Inv.setObj (h : Inv s) (hi : s.objs[i]? = some o) (hg : g.phase = s.gate.phase)
    (hcounts : g.Counts (fun slot o => o.stage.In slot) (s.objs.set i o'))
    (htracked : o.stage.Tracked = true → o'.stage.Tracked = true)
    (hactive : ∀ slot, o'.stage.Active slot = true → o.stage.Active slot = true ∨ slot = s.gate.phase)
    (hreg : ∀ slot, o'.stage.InFlight slot = true →
      o.stage.InFlight slot = true ∧ o'.reg = o.reg ∨ o'.reg = s.hist.map.seq)
    (hsettled : ∀ c, s.Scanned i → o.Settled s.hist.log c → o'.Settled s.hist.log c) : Inv (s.setObj i o' g) where
  hist := h.hist
  writer := fun w hw => by
    obtain ⟨h1, h2, h3, h4, h5⟩ := h.writer w hw
    exact ⟨h1, h2, h3, h4, h5⟩
  counts := hcounts
  tracked := by
    intro j hj
    obtain ⟨x, hx, ht⟩ := h.tracked j hj
    by_cases hji : i = j
    · subst hji
      rw [hi] at hx
      cases hx
      exact ⟨o', by simp [State.setObj, (List.getElem?_eq_some_iff.mp hi).1], htracked ht⟩
    · exact ⟨x, by simp only [State.setObj, List.getElem?_set_ne hji, hx], ht⟩
  alone := h.alone
  phase := fun b hb => hg.trans (h.phase b hb)
  calm := by
    intro hold x hx
    change x.stage.Active (!g.phase) = false
    rw [hg]
    rcases List.mem_or_eq_of_mem_set hx with hx | rfl
    · exact h.calm hold x hx
    · by_contra hact
      -- A stage that is active in the other slot was so before.
      rcases hactive _ (by simpa using hact) with hact | heq
      · rw [h.calm hold o (List.mem_of_getElem? hi)] at hact
        cases hact
      · simp at heq
  range := h.range
  cert := by
    intro c hc
    obtain ⟨h1, h2, h3, h4, h5⟩ := h.cert c hc
    refine ⟨h1, h2, h3, fun x hx hfl => ?_, fun j hj x hx => ?_⟩
    · rcases List.mem_or_eq_of_mem_set hx with hx | rfl
      · exact h4 x hx hfl
      -- A registration is from before the step, or has the sequence of now, which no cutoff exceeds.
      · rcases hreg _ hfl with ⟨hfl, heq⟩ | heq
        · rw [heq]
          exact h4 o (List.mem_of_getElem? hi) hfl
        · rw [heq]
          exact h1
    · by_cases hji : i = j
      · subst hji
        have hx' : x = o' := by
          simp only [State.setObj, List.getElem?_set_self (List.getElem?_eq_some_iff.mp hi).1, Option.some.injEq] at hx
          exact hx.symm
        rw [hx']
        exact hsettled c hj (h5 i hj o hi)
      · exact h5 j hj x (by simpa only [State.setObj, List.getElem?_set_ne hji] using hx)

variable (o') in
/-- A fetch moves without a change of its slot. -/
theorem Inv.setObj_stay (h : Inv s) (hi : s.objs[i]? = some o) (hin : ∀ slot, o'.stage.In slot = o.stage.In slot)
    (htracked : o.stage.Tracked = true → o'.stage.Tracked = true)
    (hactive : ∀ slot, o'.stage.Active slot = true → o.stage.Active slot = true ∨ slot = s.gate.phase)
    (hreg : ∀ slot, o'.stage.InFlight slot = true →
      o.stage.InFlight slot = true ∧ o'.reg = o.reg ∨ o'.reg = s.hist.map.seq)
    (hsettled : ∀ c, s.Scanned i → o.Settled s.hist.log c → o'.Settled s.hist.log c) :
    Inv (s.setObj i o' s.gate) :=
  h.setObj hi rfl (h.counts.stay hi hin) htracked hactive hreg hsettled

/-- An object keeps its stage and its registration. -/
theorem Inv.mark (h : Inv s) (hi : s.objs[i]? = some o) (hst : o'.stage = o.stage) (hreg : o'.reg = o.reg)
    (hsettled : ∀ c, s.Scanned i → o.Settled s.hist.log c → o'.Settled s.hist.log c) : Inv (s.setObj i o' s.gate) := by
  refine h.setObj_stay o' hi (fun slot => ?_) ?_ (fun slot hact => .inl ?_) (fun slot hfl => .inl ⟨?_, hreg⟩) hsettled
  · rw [hst]
  · rw [hst]
    exact id
  · rwa [← hst]
  · rwa [← hst]

theorem Inv.kill (h : Inv s) (hi : s.objs[i]? = some o) : Inv (s.setObj i { o with killed := true } s.gate) :=
  h.mark hi rfl rfl fun _ _ _ => .inl rfl

/-- A tag can be added as long as the object is not in the table. -/
theorem Inv.tag (h : Inv s) (hi : s.objs[i]? = some o) (hst : o.stage.Tracked = false) (f : Fold) :
    Inv (s.setObj i { o with folds := o.folds ++ [f] } s.gate) :=
  h.mark hi rfl rfl fun _ hsc => absurd hsc (h.not_scanned hi hst)

theorem Inv.abandon (h : Inv s) (hi : s.objs[i]? = some o) (hst : o.stage = .registered b) :
    Inv (s.setObj i { o with stage := .exiting b } s.gate) := by
  refine h.setObj_stay _ hi (fun slot => ?_) ?_ ?_ ?_ fun c hsc => absurd hsc (h.not_scanned hi (by rw [hst]; rfl))
  all_goals simp [hst, Stage.In, Stage.Tracked, Stage.Active, Stage.InFlight]

/-- An object enters the object table once what is due of it is settled. -/
theorem Inv.append (h : Inv s) (hi : s.objs[i]? = some o) (ht : o.stage.Tracked = true)
    (hset : ∀ c, s.cert = some c → o.Settled s.hist.log c) : Inv { s with records := s.records ++ [i] } where
  hist := h.hist
  writer := fun w hw => by
    obtain ⟨h1, h2, h3, h4, h5⟩ := h.writer w hw
    exact ⟨h1, h2, h3, h4, h5⟩
  counts := h.counts
  tracked := by
    intro j hj
    rcases List.mem_append.mp hj with hj | hj
    · exact h.tracked j hj
    · obtain rfl := List.mem_singleton.mp hj
      exact ⟨o, hi, ht⟩
  alone := h.alone
  phase := h.phase
  calm := h.calm
  range := fun c n hsw => (h.range c n hsw).trans (by simp)
  cert := by
    intro c hc
    obtain ⟨h1, h2, h3, h4, h5⟩ := h.cert c hc
    refine ⟨h1, h2, h3, h4, fun j hj x hx => ?_⟩
    -- The new record is the last one, behind whatever the sweep has still to see.
    have hcase : s.Scanned j ∨ j = i := by
      unfold State.Scanned at hj ⊢
      dsimp only at hj
      split at hj
      · exact hj.elim
      · obtain ⟨u, hu, hget⟩ := hj
        rcases Nat.lt_or_ge u s.records.length with hlt | hge
        · rw [List.getElem?_append_left hlt] at hget
          exact .inl ⟨u, hu, hget⟩
        · rw [List.getElem?_append_right hge] at hget
          exact .inr (by simpa using (List.mem_of_getElem? hget))
      · rcases List.mem_append.mp hj with hj | hj
        · exact .inl hj
        · exact .inr (List.mem_singleton.mp hj)
    rcases hcase with hj | rfl
    · exact h5 j hj x hx
    · rw [hi] at hx
      cases hx
      exact hset c hc

theorem Inv.fetchStep {attaches : Bool} (h : Inv s) (hi : s.objs[i]? = some o)
    (hs : s.fetchStep i o attaches = some t) : Inv t := by
  unfold State.fetchStep at hs
  split at hs
  -- up to the attach the object is not in the table, so that nothing of it is scanned
  case h_1 hst =>
    cases hs
    refine h.setObj_stay _ hi (fun slot => ?_) ?_ ?_ ?_ fun c hsc => absurd hsc (h.not_scanned hi (by rw [hst]; rfl))
    all_goals simp [hst, Stage.In, Stage.Tracked, Stage.Active, Stage.InFlight]
  case h_2 b hst =>
    cases hs
    refine h.setObj hi Gate.phase_enter (h.counts.enter hi (fun slot => ?_) fun slot => rfl) ?_ ?_ ?_
      fun c hsc => absurd hsc (h.not_scanned hi (by rw [hst]; rfl))
    all_goals simp [hst, Stage.In, Stage.Tracked, Stage.Active, Stage.InFlight]
  -- the phase is read again: with a flip in between, the slot is left
  case h_3 b hst =>
    cases hs
    refine h.setObj_stay _ hi (fun slot => ?_) ?_ (fun slot => ?_) ?_
      fun c hsc => absurd hsc (h.not_scanned hi (by rw [hst]; rfl))
    · dsimp only
      rw [hst]
      split <;> rfl
    · simp [hst, Stage.Tracked]
    · dsimp only
      split
      · rename_i hph
        simp only [Stage.Active, Stage.InFlight, Bool.or_false, beq_iff_eq, Stage.stable.injEq]
        exact fun heq => .inr (heq.symm.trans hph.symm)
      · simp [Stage.Active, Stage.InFlight]
    · dsimp only
      split <;> simp [Stage.InFlight]
  case h_4 b hst =>
    cases hs
    refine h.setObj hi Gate.phase_leave (h.counts.leave hi (fun slot => ?_) fun slot => rfl) ?_ ?_ ?_
      fun c hsc => absurd hsc (h.not_scanned hi (by rw [hst]; rfl))
    all_goals simp [hst, Stage.In, Stage.Tracked, Stage.Active, Stage.InFlight]
  case h_5 b hst =>
    cases hs
    refine h.setObj_stay _ hi (fun slot => ?_) ?_ (fun slot hact => ?_) (fun slot _ => .inr rfl)
      fun c hsc => absurd hsc (h.not_scanned hi (by rw [hst]; rfl))
    · simp [hst, Stage.In]
    · simp [hst, Stage.Tracked]
    · left
      simpa [hst, Stage.Active, Stage.InFlight] using hact
  -- the attach probes the map, and a verdict is enough to settle the object
  case h_6 b hst =>
    have move : ∀ v, Inv (s.setObj i { o with stage := .attached b v } s.gate) := fun v => by
      refine h.setObj_stay _ hi (fun slot => ?_) ?_ ?_ ?_ fun c hsc => absurd hsc (h.not_scanned hi (by rw [hst]; rfl))
      all_goals simp [hst, Stage.In, Stage.Tracked, Stage.Active, Stage.InFlight]
    split at hs
    · obtain ⟨v, hv, rfl⟩ := Option.map_eq_some_iff.mp hs
      refine (move v).append (o := { o with stage := .attached b v }) ?_ rfl fun c hc => ?_
      · simp [State.setObj, (List.getElem?_eq_some_iff.mp hi).1]
      · exact (h.cert c hc).settled h.hist hv
    · cases hs
      exact move .hard
  -- what the verdict asked for is done now
  case h_7 b hst =>
    cases hs
    refine h.setObj_stay _ hi (fun slot => ?_) ?_ ?_ ?_ fun c _ _ => .inl rfl
    all_goals simp [hst, Stage.In, Stage.Tracked, Stage.Active, Stage.InFlight]
  case h_8 b hst =>
    cases hs
    refine h.setObj_stay _ hi (fun slot => ?_) ?_ ?_ ?_ fun c _ hset => ?_
    all_goals try simp [hst, Stage.In, Stage.Tracked, Stage.Active, Stage.InFlight]
    exact hset.reduce hst (by decide) fun _ => rfl
  case h_9 b hst =>
    cases hs
    refine h.setObj_stay _ hi (fun slot => ?_) ?_ ?_ ?_ fun c _ hset => ?_
    all_goals try simp [hst, Stage.In, Stage.Tracked, Stage.Active, Stage.InFlight]
    exact hset.reduce hst (by decide) (by simp)
  -- what comes behind leaves a settled object settled
  case h_10 b hst =>
    cases hs
    refine Inv.invalidate (h.setObj_stay _ hi (fun slot => ?_) ?_ ?_ ?_ fun c _ hset => ?_) i
    all_goals try simp [hst, Stage.In, Stage.Tracked, Stage.Active, Stage.InFlight]
    exact hset.pass (by simp [hst])
  case h_11 b hst =>
    cases hs
    refine h.setObj hi Gate.phase_leave (h.counts.leave hi (fun slot => ?_) fun slot => rfl) ?_ ?_ ?_ fun c _ hset => ?_
    all_goals try simp [hst, Stage.In, Stage.Tracked, Stage.Active, Stage.InFlight]
    exact hset.pass (by simp [hst])
  case h_12 => cases hs

/-! ### Purges -/

/-- The history moves on, by what a certificate lets pass. -/
theorem Inv.history {w : Option History} (h : Inv s) (hp : Publishes s h')
    (hw : ∀ x, w = some x → Publishes { s with hist := h', writer := w } x) : Inv { s with hist := h', writer := w } where
  hist := hp.inv
  writer := hw
  counts := h.counts
  tracked := h.tracked
  alone := h.alone
  phase := h.phase
  calm := h.calm
  range := h.range
  cert := by
    intro c hc
    obtain ⟨h1, h2, h3, h4, h5⟩ := h.cert c hc
    refine ⟨h1.trans hp.seq, ⟨h2.1.trans hp.hardFloor, h2.2⟩, ⟨h3.1.trans hp.softFloor, h3.2⟩, h4, fun i hi o ho => ?_⟩
    exact (h5 i hi o ho).mono fun p hpl => (hp.log p hpl).imp id fun hlt => hlt c hc

theorem Inv.purged {p : Purged} {folds : List Fold} {mode : PurgeMode} (h : Inv s) (hw : s.writer = none)
    (ha : Answered s.hist.map folds mode p) : Inv (s.purged p folds mode) := by
  have hinv := h.hist.answered ha
  have young : ∀ c, s.cert = some c → c.cutoff < s.hist.map.seq + 1 := fun c hc => Nat.lt_succ_of_le (h.cert c hc).cutoff
  unfold State.purged
  split
  · rename_i hr
    obtain ⟨-, hto⟩ := ha.accepted hr
    refine h.history ⟨?_, Nat.le_succ _, Nat.le_refl _, Nat.le_refl _, fun q hq => .inl hq⟩ ?_
    · have hbelow := h.hist.sound.below.mono (Nat.le_succ s.hist.map.seq)
      exact ⟨h.hist.wf.with_seq, ⟨⟨hbelow.live, hbelow.hard, hbelow.soft⟩, h.hist.sound.represents⟩, h.hist.saved⟩
    · rintro x hx
      obtain rfl := Option.some.inj hx
      refine ⟨hinv, hto.seq.ge, hto.floor_le .hard, hto.floor_le .soft, fun q hq => ?_⟩
      simp only [History.answered, hr, if_true, logged, List.mem_append, List.mem_map] at hq
      rcases hq with hq | ⟨f, -, rfl⟩
      · exact .inl hq
      · exact .inr young
  · rename_i hr
    have hsame := ha.refused hr
    refine h.history (w := s.writer) ⟨hinv, hsame.seq.ge, hsame.hard.ge, hsame.soft.ge, fun q hq => .inl ?_⟩ ?_
    · simpa only [History.answered, hr, if_false] using hq
    · rw [hw]
      intro x hx
      cases hx

/-! ### The sweep -/

theorem Inv.seen {cert : Option Cert} {u : Nat} (h : Inv s) (hsw : s.sweep = .running cert (u + 1))
    (hget : s.records[u]? = some i) (hi : s.objs[i]? = some o)
    (hset : ∀ c, s.cert = some c → o.Settled s.hist.log c) : Inv { s with sweep := .running cert u } := by
  have hcert : State.cert { s with sweep := .running cert u } = s.cert := by
    simp only [State.cert, hsw, Sweep.cert, Sweep.Sound]
  have hold : State.old { s with sweep := .running cert u } = s.old := by
    simp only [State.old, hsw, Sweep.cert]
  refine ⟨h.hist, fun w hw => ?_, h.counts, h.tracked, by simpa only [hsw, Sweep.cert] using h.alone,
    by rw [hold]; exact h.phase, by rw [hold]; exact h.calm, ?_, fun c hc => ?_⟩
  · obtain ⟨h1, h2, h3, h4, h5⟩ := h.writer w hw
    exact ⟨h1, h2, h3, h4, by rw [hcert]; exact h5⟩
  · rintro _ _ ⟨⟩
    exact (Nat.le_succ u).trans (h.range cert (u + 1) hsw)
  · rw [hcert] at hc
    obtain ⟨h1, h2, h3, h4, h5⟩ := h.cert c hc
    refine ⟨h1, h2, h3, h4, fun j hj x hx => ?_⟩
    have hcase : s.Scanned j ∨ j = i := by
      unfold State.Scanned at hj ⊢
      rw [hsw]
      cases cert with
      | none => exact .inl hj
      | some c =>
        obtain ⟨v, hv, hjv⟩ := hj
        rcases Nat.eq_or_lt_of_le hv with rfl | hlt
        · rw [hget] at hjv
          exact .inr (Option.some.inj hjv).symm
        · exact .inl ⟨v, hlt, hjv⟩
    rcases hcase with hj | rfl
    · exact h5 j hj x hx
    · rw [hi] at hx
      cases hx
      exact hset c hc

theorem Inv.sweepOne {cert : Option Cert} {u : Nat} (h : Inv s) (hsw : s.sweep = .running cert (u + 1))
    (hs : s.sweepOne cert u = some t) : Inv t := by
  unfold State.sweepOne at hs
  split at hs
  · cases hs
  rename_i i hget
  split at hs
  · cases hs
  rename_i o hi
  obtain ⟨v, hv, rfl⟩ := Option.map_eq_some_iff.mp hs
  have hlt : u < s.records.length := h.range cert (u + 1) hsw
  have probed : v ≠ .hard → s.verdict o = some v := fun hne => by
    unfold State.recordVerdict at hv
    split at hv
    · exact absurd (Option.some.inj hv).symm hne
    · exact hv
  cases v with
  | hard =>
    have hr := Removes.of_remove hlt h.range
    have hinv := h.removes hr
    have hi' : (s.remove u).objs[i]? = some o := hr.objs.symm ▸ hi
    have hkill := hinv.kill hi'
    rwa [hr.gate] at hkill
  | soft =>
    have hobj : Inv (s.setObj i { o with reduced := true } s.gate) :=
      h.mark hi rfl rfl fun c _ hset => hset.imp id fun ⟨hh, _⟩ => ⟨hh, fun _ => .inl rfl⟩
    refine hobj.seen (o := { o with reduced := true }) hsw hget ?_ fun c hc => ?_
    · simp [State.setObj, (List.getElem?_eq_some_iff.mp hi).1]
    · obtain ⟨hhard, -⟩ := (h.cert c hc).verdict h.hist (probed (by decide))
      exact .inr ⟨fun hd => absurd (hhard hd) (by decide), fun _ => .inl rfl⟩
  | none =>
    refine h.seen hsw hget hi fun c hc => ?_
    obtain ⟨hhard, hsoft⟩ := (h.cert c hc).verdict h.hist (probed (by decide))
    exact .inr ⟨fun hd => absurd (hhard hd) (by decide), fun hd => absurd rfl (hsoft hd)⟩

/-- The sweeper goes on without a new certificate. -/
theorem Inv.sweeper {sw : Sweep} {pending : Option Cert} {blocked : Option Bool} (h : Inv s)
    (ht : t = { s with sweep := sw, pending := pending, blocked := blocked })
    (halone : (sw.cert.isSome → pending = none) ∧ (sw.cert.isSome ∨ pending.isSome → blocked = none))
    (hold : t.old = s.old) (hrange : ∀ c n, sw = .running c n → n ≤ s.records.length)
    (hcert : ∀ c, t.cert = some c → s.cert = some c ∧ ∀ i, t.Scanned i → s.Scanned i) : Inv t := by
  have hgate : t.gate = s.gate := by rw [ht]
  have hobjs : t.objs = s.objs := by rw [ht]
  refine ⟨by rw [ht]; exact h.hist, fun w hw => ?_, by rw [ht]; exact h.counts, by rw [ht]; exact h.tracked,
    by rw [ht]; exact halone, by rw [hold, hgate]; exact h.phase, by rw [hold, hgate, hobjs]; exact h.calm,
    by rw [ht]; exact hrange, fun c hc => ?_⟩
  · have hhist : t.hist = s.hist := by rw [ht]
    obtain ⟨h1, h2, h3, h4, h5⟩ := h.writer w (by rw [ht] at hw; exact hw)
    refine ⟨h1, hhist ▸ h2, hhist ▸ h3, hhist ▸ h4, fun p hp => ?_⟩
    rw [hhist]
    exact (h5 p hp).imp id fun hlt c hc => hlt c (hcert c hc).1
  · have hhist : t.hist = s.hist := by rw [ht]
    obtain ⟨hsc, hscanned⟩ := hcert c hc
    obtain ⟨h1, h2, h3, h4, h5⟩ := h.cert c hsc
    refine ⟨hhist ▸ h1, hhist ▸ h2, hhist ▸ h3, hobjs ▸ h4, fun i hi o ho => ?_⟩
    rw [hhist]
    exact h5 i (hscanned i hi) o (hobjs ▸ ho)

/-- The sweeper goes on with the certificate that it holds, or with none. -/
theorem Inv.holding {sw : Sweep} (h : Inv s) (hsame : sw.cert = s.sweep.cert)
    (hrange : ∀ c n, sw = .running c n → n ≤ s.records.length)
    (hcert : ∀ c, State.cert { s with sweep := sw } = some c →
      s.cert = some c ∧ ∀ i, State.Scanned { s with sweep := sw } i → s.Scanned i) : Inv { s with sweep := sw } := by
  have hold : State.old { s with sweep := sw } = s.old := by
    unfold State.old
    dsimp only
    rw [hsame]
  exact h.sweeper rfl (by rw [hsame]; exact h.alone) hold hrange hcert

theorem Inv.sweepStart {cert : Option Cert} (h : Inv s) (hsw : s.sweep = .begun cert) :
    Inv { s with sweep := .running cert s.records.length } := by
  refine h.holding (by rw [hsw]; rfl) ?_ fun c hc => ⟨?_, fun i hi => ?_⟩
  · rintro _ _ ⟨⟩
    exact Nat.le_refl _
  · simpa [State.cert, hsw, Sweep.cert, Sweep.Sound] using hc
  · unfold State.Scanned at hi ⊢
    rw [hsw]
    cases cert with
    | none => exact hi
    | some c =>
      -- no slot is above the length
      obtain ⟨u, hu, hget⟩ := hi
      exact absurd (List.getElem?_eq_some_iff.mp hget).1 (Nat.not_lt.mpr hu)

/-- A sweep that is aborted leaves no certificate. -/
theorem Inv.sweepAbort {cert : Option Cert} (h : Inv s)
    (hsw : s.sweep = .begun cert ∨ ∃ n, s.sweep = .running cert n) : Inv { s with sweep := .ran cert true } := by
  have hcert : s.sweep.cert = cert := by
    rcases hsw with hsw | ⟨n, hsw⟩ <;> rw [hsw] <;> rfl
  refine h.holding hcert.symm nofun fun c hc => ?_
  cases cert with
  | some c => simp [State.cert, Sweep.cert, Sweep.Sound] at hc
  | none =>
    refine ⟨?_, fun i hi => ?_⟩
    · unfold State.cert
      rw [hcert]
      exact hc
    · unfold State.Scanned
      rcases hsw with hsw | ⟨n, hsw⟩ <;> rw [hsw] <;> exact hi

/-- A sweep that ends has seen every record. -/
theorem Inv.sweepEnd {cert : Option Cert} (h : Inv s) (hsw : s.sweep = .running cert 0) :
    Inv { s with sweep := .ran cert false } := by
  refine h.holding (by rw [hsw]; rfl) nofun fun c hc => ⟨?_, fun i hi => ?_⟩
  · simpa [State.cert, hsw, Sweep.cert, Sweep.Sound] using hc
  · unfold State.Scanned
    rw [hsw]
    cases cert with
    | none => exact hi
    | some c => exact mem_iff_from_zero.mp hi

theorem Inv.certFinish_none {aborted : Bool} (h : Inv s) (hsw : s.sweep = .ran none aborted) :
    Inv { s with sweep := .idle } := by
  refine h.holding (by rw [hsw]; rfl) nofun fun c hc => ⟨?_, fun i hi => ?_⟩
  · simpa [State.cert, hsw, Sweep.cert] using hc
  · unfold State.Scanned
    rw [hsw]
    exact hi

theorem Inv.certBegin (h : Inv s) (hw : s.writer = none) (hidle : s.sweep = .idle) : Inv s.certBegin := by
  obtain ⟨-, halone⟩ := h.alone
  have hcert : s.cert = s.pending := by rw [State.cert, hidle]; rfl
  have hold : s.old = (s.pending.map Cert.phase).or s.blocked := by rw [State.old, hidle]; rfl
  unfold State.certBegin
  split
  · exact h.sweeper rfl ⟨nofun, fun hp => halone (.inr (hp.resolve_left nofun))⟩ hold.symm nofun fun c hc =>
      ⟨hcert.trans hc, fun i hi => by unfold State.Scanned; rw [hidle]; exact hi⟩
  split
  · rename_i hp
    have hb := halone (.inr hp)
    refine h.sweeper rfl ⟨nofun, fun _ => rfl⟩ ?_ nofun fun c hc =>
      ⟨hcert.trans hc, fun i hi => by unfold State.Scanned; rw [hidle]; exact hi⟩
    rw [hold, hb]
    rfl
  · rename_i hdrained hnone
    have hpending : s.pending = none := by simpa using hnone
    -- Whatever was left of the phase that is not the current one has drained.
    have quiet : ∀ o ∈ s.objs, o.stage.Active (!s.gate.phase) = false := by
      cases hb : s.blocked with
      | none => exact h.calm (by rw [hold, hpending, hb]; rfl)
      | some b =>
        have hzero : s.gate.readers b = 0 := by simpa [hb] using hdrained
        have hphase : s.gate.phase = !b := h.phase b (by rw [hold, hpending, hb]; rfl)
        intro o ho
        rw [hphase, Bool.not_not]
        by_contra hact
        have hin := Stage.Active.in (by simpa using hact)
        rw [h.counts.quiet hzero o ho] at hin
        cases hin
    refine ⟨h.hist, fun w hw' => ?_, h.counts, h.tracked, ⟨fun _ => hpending, fun _ => rfl⟩, ?_, nofun, nofun, ?_⟩
    · rw [show s.writer = some w from hw'] at hw
      cases hw
    · rintro b hb
      have : b = s.gate.phase := (Option.some.inj hb).symm
      rw [this]
      rfl
    · rintro c hc
      obtain rfl := Option.some.inj hc
      refine ⟨Nat.le_refl _, ⟨Nat.le_refl _, h.hist.sound.below.hard⟩, ⟨Nat.le_refl _, h.hist.sound.below.soft⟩,
        fun o ho hfl => ?_, fun i hi => hi.elim⟩
      have hact := Stage.InFlight.active hfl
      rw [quiet o ho] at hact
      cases hact

theorem Inv.certFinish {c : Cert} {aborted : Bool} (h : Inv s) (hsw : s.sweep = .ran (some c) aborted) :
    Inv (if aborted then { s with sweep := .idle, blocked := some c.phase }
      else { s with sweep := .idle, pending := some c }) := by
  have hpending : s.pending = none := h.alone.1 (by rw [hsw]; rfl)
  have hblocked : s.blocked = none := h.alone.2 (.inl (by rw [hsw]; rfl))
  cases aborted with
  | true =>
    refine h.sweeper rfl ⟨nofun, fun hp => ?_⟩ ?_ nofun fun c' hc' => ?_
    · rw [hpending] at hp
      simp [Sweep.cert] at hp
    · simp [State.old, hsw, hpending, Sweep.cert]
    · simp [State.cert, hpending, Sweep.cert] at hc'
  | false =>
    refine h.sweeper rfl ⟨nofun, fun _ => hblocked⟩ ?_ nofun fun c' hc' => ⟨?_, fun i hi => ?_⟩
    · simp [State.old, hsw, hpending, Sweep.cert]
    · simpa [State.cert, hsw, Sweep.cert, Sweep.Sound] using hc'
    · unfold State.Scanned
      rw [hsw]
      exact hi

/-- A commit: what it has found, and what it leaves. -/
theorem tryReclaim_cases (h : Inv s) (env : Env) :
    s.tryReclaim env = s ∨ ∃ c pm, s.pending = some c ∧ s.gate.readers c.phase = 0 ∧
      reclaim env s.hist.map c.cutoff = .ok pm ∧ pm.WF ∧ ReclaimsTo s.hist.map pm c.cutoff ∧
      s.tryReclaim env =
        { s with hist := ⟨pm, s.hist.log.filter fun p => c.cutoff < p.seq, s.hist.saved⟩, pending := none } := by
  unfold State.tryReclaim
  split
  · exact .inl rfl
  rename_i c hp
  split
  · exact .inl rfl
  rename_i hzero
  rcases reclaim_spec env c.cutoff h.hist.wf with ⟨pm, hok, hwf, hto⟩ | herr
  · rw [hok]
    exact .inr ⟨c, pm, hp, by simpa using hzero, hok, hwf, hto, rfl⟩
  · rw [herr]
    exact .inl rfl

theorem Inv.tryReclaim (h : Inv s) (hw : s.writer = none) (hidle : s.sweep = .idle) (env : Env) :
    Inv (s.tryReclaim env) := by
  rcases tryReclaim_cases h env with heq | ⟨c, pm, hp, hzero, -, hwf, hto, heq⟩
  · rw [heq]
    exact h
  · rw [heq]
    have hblocked : s.blocked = none := h.alone.2 (.inr (by rw [hp]; rfl))
    have hphase : s.gate.phase = !c.phase := h.phase c.phase (by simp [State.old, hidle, Sweep.cert, hp])
    refine ⟨⟨hwf, h.hist.sound.reclaimsTo hto, h.hist.saved⟩, fun w hw' => ?_, h.counts, h.tracked,
      ⟨fun _ => rfl, fun _ => hblocked⟩, ?_, fun _ o ho => ?_, h.range, ?_⟩
    · rw [show s.writer = some w from hw'] at hw
      cases hw
    · simp [State.old, hidle, Sweep.cert, hblocked]
    · change o.stage.Active (!s.gate.phase) = false
      rw [hphase, Bool.not_not]
      by_contra hact
      have hin := Stage.Active.in (by simpa using hact)
      rw [h.counts.quiet hzero o ho] at hin
      cases hin
    · simp [State.cert, hidle, Sweep.cert]

/-- A fetch begins. -/
theorem Inv.create (h : Inv s) : Inv { s with objs := s.objs ++ [⟨.idle, 0, [], false, false⟩] } where
  hist := h.hist
  writer := fun w hw => by
    obtain ⟨h1, h2, h3, h4, h5⟩ := h.writer w hw
    exact ⟨h1, h2, h3, h4, h5⟩
  counts := fun slot => by
    rw [List.countP_append, h.counts slot]
    simp [Stage.In]
  tracked := fun i hi => by
    obtain ⟨o, ho, ht⟩ := h.tracked i hi
    exact ⟨o, by rw [List.getElem?_append_left (List.getElem?_eq_some_iff.mp ho).1, ho], ht⟩
  alone := h.alone
  phase := h.phase
  calm := fun hold o ho => by
    rcases List.mem_append.mp ho with ho | ho
    · exact h.calm hold o ho
    · obtain rfl := List.mem_singleton.mp ho
      rfl
  range := h.range
  cert := fun c hc => by
    obtain ⟨h1, h2, h3, h4, h5⟩ := h.cert c hc
    refine ⟨h1, h2, h3, fun o ho hfl => ?_, fun i hi o ho => ?_⟩
    · rcases List.mem_append.mp ho with ho | ho
      · exact h4 o ho hfl
      · obtain rfl := List.mem_singleton.mp ho
        cases hfl
    · have hsc : s.Scanned i := hi
      obtain ⟨x, hx, -⟩ := h.tracked i hsc.mem
      have heq : (s.objs ++ [⟨.idle, 0, [], false, false⟩])[i]? = some x := by
        rw [List.getElem?_append_left (List.getElem?_eq_some_iff.mp hx).1, hx]
      rw [heq] at ho
      cases ho
      exact h5 i hi _ hx

theorem Inv.step {e : Event} (h : Inv s) (hs : step historyMax s e = some t) : Inv t := by
  cases e with
  | purge d mode env =>
    simp only [Certificate.step] at hs
    split at hs
    · cases hs
    rename_i hw
    obtain ⟨p, hok, ha⟩ := purge_spec (config historyMax) env mode d h.hist.wf
    rw [hok] at hs
    cases hs
    exact h.purged (by simpa using hw) ha
  | purgeBatch ds mode env =>
    simp only [Certificate.step] at hs
    split at hs
    · cases hs
    rename_i hw
    obtain ⟨p, hok, ha⟩ := purgeBatch_spec (config historyMax) env mode ds h.hist.wf
    rw [hok] at hs
    cases hs
    exact h.purged (by simpa using hw) ha
  | publish =>
    obtain ⟨w, hw, rfl⟩ := Option.map_eq_some_iff.mp hs
    exact h.history (h.writer w hw) nofun
  | create =>
    cases hs
    exact h.create
  | fetch i attaches =>
    obtain ⟨o, ho, hs⟩ := Option.bind_eq_some_iff.mp hs
    exact h.fetchStep ho hs
  | tag i f =>
    obtain ⟨o, ho, hs⟩ := Option.bind_eq_some_iff.mp hs
    split at hs
    · rename_i hst
      cases hs
      rw [Bool.and_eq_true] at hst
      exact h.tag ho (by simpa using hst.2) f
    · cases hs
  | abandon i =>
    obtain ⟨o, ho, hs⟩ := Option.bind_eq_some_iff.mp hs
    split at hs
    · rename_i b hst
      cases hs
      exact h.abandon ho hst
    · cases hs
  | invalidate i =>
    cases hs
    exact h.invalidate i
  | kill i =>
    obtain ⟨o, ho, rfl⟩ := Option.map_eq_some_iff.mp hs
    exact h.kill ho
  | tryReclaim env =>
    simp only [Certificate.step] at hs
    split at hs
    · rename_i hc
      cases hs
      exact h.tryReclaim hc.1 hc.2 env
    · cases hs
  | certBegin =>
    simp only [Certificate.step] at hs
    split at hs
    · rename_i hc
      cases hs
      exact h.certBegin hc.1 hc.2
    · cases hs
  | sweepStart =>
    simp only [Certificate.step] at hs
    split at hs
    · rename_i cert hsw
      cases hs
      exact h.sweepStart hsw
    · cases hs
  | sweepOne =>
    simp only [Certificate.step] at hs
    split at hs
    · rename_i cert u hsw
      exact h.sweepOne hsw hs
    · cases hs
  | sweepAbort =>
    simp only [Certificate.step] at hs
    split at hs
    · rename_i cert hsw
      cases hs
      exact h.sweepAbort (.inl hsw)
    · rename_i cert n hsw
      cases hs
      exact h.sweepAbort (.inr ⟨n, hsw⟩)
    · cases hs
  | sweepEnd =>
    simp only [Certificate.step] at hs
    split at hs
    · rename_i cert hsw
      cases hs
      exact h.sweepEnd hsw
    · cases hs
  | certFinish =>
    simp only [Certificate.step] at hs
    split at hs
    · rename_i aborted hsw
      cases hs
      exact h.certFinish_none hsw
    · rename_i c aborted hsw
      have hinv := h.certFinish hsw
      -- the certificate is pending now, or its phase blocked where the sweep was aborted
      split at hs
      · cases hs
      split at hs
      · rename_i hab
        cases hs
        rwa [if_pos hab] at hinv
      · rename_i hab
        cases hs
        rwa [if_neg hab] at hinv
    · cases hs

theorem Inv.init : Inv State.init :=
  ⟨History.Inv.init, nofun, fun slot => by cases slot <;> rfl, nofun, ⟨fun _ => rfl, fun _ => rfl⟩, nofun, fun _ => nofun,
    nofun, nofun⟩

/-- A registration that is tracked or in flight when the gate has drained is settled. -/
theorem Inv.settled (h : Inv s) (hidle : s.sweep = .idle) (hp : s.pending = some c) (hzero : s.gate.readers c.phase = 0)
    (hi : s.objs[i]? = some o) (hreg : i ∈ s.records ∨ ∃ b, o.stage.InFlight b = true) (hk : o.killed = false) :
    ¬ o.HardDue s.hist.log c ∧ (o.SoftDue s.hist.log c → o.reduced = true) := by
  have hc := h.cert c (by rw [State.cert, hidle]; exact hp)
  -- A fetch that still holds a slot entered behind the flip.
  have flying : ∀ b, o.stage.InFlight b = true → c.cutoff ≤ o.reg := by
    intro b hfl
    by_cases hb : b = c.phase
    · have hin := Stage.Active.in (Stage.InFlight.active hfl)
      rw [hb, h.counts.quiet hzero o (List.mem_of_getElem? hi)] at hin
      cases hin
    · obtain rfl := Bool.eq_not.mpr hb
      exact hc.young o (List.mem_of_getElem? hi) hfl
  by_cases hfl : ∃ b, o.stage.InFlight b = true
  · obtain ⟨b, hfl⟩ := hfl
    obtain ⟨hhard, hsoft⟩ := @Certified.not_due _ _ _ s.hist.log hc (flying b hfl)
    exact ⟨hhard, fun hd => absurd hd hsoft⟩
  · have hscanned : s.Scanned i := by
      unfold State.Scanned
      rw [hidle]
      exact hreg.resolve_right hfl
    have hnot : ∀ b v, o.stage ≠ .attached b v := fun b v hst => hfl ⟨b, by rw [hst]; exact beq_self_eq_true b⟩
    rcases hc.scanned i hscanned o hi with hkilled | ⟨hhard, hsoft⟩
    · rw [hk] at hkilled
      cases hkilled
    · refine ⟨fun hd => ?_, fun hd => ?_⟩
      · obtain ⟨b, hst⟩ := hhard hd
        exact hnot b _ hst
      · rcases hsoft hd with hred | ⟨b, v, hst, -⟩
        · exact hred
        · exact absurd hst (hnot b v)

end Inv

/-- What a commit of `cachetag_purgemap_reclaim_locked` may drop, nobody needs: no object that is tracked or in
    flight and not killed is behind a hard purge of one of its folds up to the cutoff, or behind the hard floor
    of the moment the certificate was taken; where it is behind a soft one, it has been reduced. And behind the
    cutoff every verdict stays. -/
theorem reclaim_forgets_nothing (historyMax : Nat) (s t : State)
    (h : Machine.Reach (step historyMax) Machine.always State.init s) (env : Env) (c : Cert) (hp : s.pending = some c)
    (hs : step historyMax s (.tryReclaim env) = some t) (hcommit : t.pending = none) :
    reclaim env s.hist.map c.cutoff = .ok t.hist.map ∧
    (∀ i o, s.objs[i]? = some o → (i ∈ s.records ∨ ∃ b, o.stage.InFlight b = true) → o.killed = false →
      (∀ p ∈ s.hist.log, p.fold ∈ o.folds.map Fold.val → o.reg < p.seq → p.seq ≤ c.cutoff →
        p.mode = .soft ∧ o.reduced = true) ∧
      (∀ e ∈ s.hist.map.live, e.fold ∈ o.folds.map Fold.val →
        (e.hardSeq ≤ c.cutoff → e.hardSeq ≤ o.reg) ∧ (e.softSeq ≤ c.cutoff → e.softSeq ≤ o.reg ∨ o.reduced = true)) ∧
      c.hardFloor ≤ o.reg ∧ (c.softFloor ≤ o.reg ∨ o.reduced = true)) ∧
    ∀ regSeq (folds : List Fold), c.cutoff ≤ regSeq →
      probe t.hist.map regSeq (folds.map Fold.val) = probe s.hist.map regSeq (folds.map Fold.val) := by
  have hinv : Inv s := h.inv Inv.init fun _ hi _ hst => hi.step hst
  simp only [step] at hs
  split at hs
  case isFalse => cases hs
  rename_i hidle
  cases hs
  rcases tryReclaim_cases hinv env with heq | ⟨c', pm, hp', hzero, hok, hwf, hto, heq⟩
  -- Where nothing was committed, the certificate is still pending.
  · rw [heq, hp] at hcommit
    cases hcommit
  rw [hp] at hp'
  cases hp'
  refine ⟨?_, fun i o hi hreg hk => ?_, fun regSeq folds hle => ?_⟩
  · rw [heq]
    exact hok
  · obtain ⟨hhard, hsoft⟩ := hinv.settled hidle.2 hp hzero hi hreg hk
    -- A purge of the log that condemns the object is due by the certificate.
    have purges : ∀ p ∈ s.hist.log, p.fold ∈ o.folds.map Fold.val → o.reg < p.seq → p.seq ≤ c.cutoff →
        p.mode = .soft ∧ o.reduced = true := by
      intro p hpl hf hlt hle
      cases hm : p.mode with
      | hard => exact absurd (.inr ⟨p, hpl, hm, hf, hlt, hle⟩) hhard
      | soft => exact ⟨rfl, hsoft (.inr ⟨p, hpl, hm, hf, hlt, hle⟩)⟩
    refine ⟨purges, fun e he hf => ?_, ?_, ?_⟩
    -- The sequences of an entry are those of purges in the log, unless they are zero.
    · have logged := hinv.hist.sound.represents.logged e he
      constructor
      · intro hle
        by_contra hlt
        have hlt := Nat.not_le.mp hlt
        obtain ⟨hm, -⟩ := purges _ (logged .hard (Nat.ne_zero_of_lt hlt)) hf hlt hle
        cases hm
      · intro hle
        by_cases hlt : o.reg < e.softSeq
        · exact .inr (purges _ (logged .soft (Nat.ne_zero_of_lt hlt)) hf hlt hle).2
        · exact .inl (Nat.not_lt.mp hlt)
    · by_contra hlt
      exact hhard (.inl (Nat.not_le.mp hlt))
    · by_cases hlt : o.reg < c.softFloor
      · exact .inr (hsoft (.inl hlt))
      · exact .inl (Nat.not_lt.mp hlt)
  · rw [heq, probe_spec hwf, probe_spec hinv.hist.wf, hto.verdict hle]

/-- An object that is registered, attached and swept while a second fetch holds the gate, and purges around it. -/
def slowFetch : List Event :=
  [.purge ⟨0, 7⟩ .hard .ok, .publish, .purge ⟨0, 7⟩ .hard .ok, .publish,
    .create, .fetch 0 true, .fetch 0 true, .fetch 0 true, .fetch 0 true, .tag 0 (foldDigest ⟨0, 7⟩), .fetch 0 true,
    .fetch 0 true, .fetch 0 true,
    .purge ⟨0, 5⟩ .hard .ok, .publish, .create, .fetch 1 true, .fetch 1 true, .fetch 1 true, .fetch 1 true,
    .certBegin, .sweepStart, .sweepOne, .sweepEnd, .certFinish,
    .purge ⟨0, 9⟩ .hard .ok, .publish, .abandon 1, .fetch 1 true]

theorem reclaim_forgets_nothing_slow : ∃ s t c, Machine.run (step 0) State.init slowFetch = some s ∧
    s.pending = some c ∧ step 0 s (.tryReclaim .ok) = some t ∧ t.pending = none ∧
    ∀ i o, s.objs[i]? = some o → i ∈ s.records → o.killed = false → c.hardFloor ≤ o.reg := by
  have hrun : (Machine.run (step 0) State.init slowFetch).map (fun s => (s.pending,
      (step 0 s (.tryReclaim .ok)).map State.pending)) = some (some ⟨3, false, 0, 0⟩, some none) := by decide +kernel
  obtain ⟨s, hs, heq⟩ := Option.map_eq_some_iff.mp hrun
  obtain ⟨hp, ht⟩ := Prod.mk.inj heq
  obtain ⟨t, hst, hcommit⟩ := Option.map_eq_some_iff.mp ht
  refine ⟨s, t, _, hs, hp, hst, hcommit, fun i o hi hrec hk => ?_⟩
  obtain ⟨-, hkept, -⟩ := reclaim_forgets_nothing 0 s t (.of_run hs) .ok _ hp hst hcommit
  exact (hkept i o hi (.inl hrec) hk).2.2.1

/-- With a history of two entries, the last purge prunes the entries of both earlier tags into the hard floor.
    The commit drops that floor, above the registration of an object that is tracked and not killed, though its
    tag was not purged again. -/
theorem reclaim_drops_late_floor : ∃ s t c, Machine.Reach (step 2) Machine.always State.init s ∧
    s.pending = some c ∧ step 2 s (.tryReclaim .ok) = some t ∧ t.pending = none ∧
    (∃ o, s.objs[0]? = some o ∧ 0 ∈ s.records ∧ o.killed = false ∧ o.folds.map Fold.val = [7] ∧
      o.reg < s.hist.map.hardFloor) ∧
    s.hist.map.hardFloor ≤ c.cutoff ∧ t.hist.map.hardFloor = 0 ∧ ∀ e ∈ s.hist.map.live, e.fold ≠ 7 := by
  have hrun : (Machine.run (step 2) State.init slowFetch).map (fun s => (s.pending, s.records, s.hist.map.hardFloor,
      s.hist.map.live)) = some (some ⟨3, false, 0, 0⟩, [0], 3, [⟨9, 4, 0⟩]) := by decide +kernel
  have hobj : (Machine.run (step 2) State.init slowFetch).bind (fun s => s.objs[0]?) =
      some ⟨.ended, 2, [foldDigest ⟨0, 7⟩], false, false⟩ := by decide +kernel
  have hstep : (Machine.run (step 2) State.init slowFetch).bind (fun s =>
      (step 2 s (.tryReclaim .ok)).map fun t => (t.pending, t.hist.map.hardFloor)) = some (none, 0) := by decide +kernel
  obtain ⟨s, hs, heq⟩ := Option.map_eq_some_iff.mp hrun
  obtain ⟨hp, hrecords, hfloor, hlive⟩ : _ ∧ _ ∧ _ ∧ _ := by simpa only [Prod.mk.injEq] using heq
  rw [hs, Option.bind_some] at hobj hstep
  obtain ⟨t, hst, ht⟩ := Option.map_eq_some_iff.mp hstep
  obtain ⟨hcommit, hdropped⟩ := Prod.mk.inj ht
  refine ⟨s, t, _, .of_run hs, hp, hst, hcommit, ⟨_, hobj, ?_, rfl, rfl, ?_⟩, hfloor.le, hdropped, ?_⟩
  · rw [hrecords]
    exact List.mem_cons_self
  · rw [hfloor]
    decide
  · rw [hlive]
    decide

end Cachetag.Certificate
