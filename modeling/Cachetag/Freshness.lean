import Cachetag.Purgemap.Refine

/-! `stale()` on one object of a memory-only namespace, beside everything else that can touch the object.

The object is registered by one fetch, is attached to the record table by the insert callback, and leaves
the table through a `stale()` call, the sweep or the expire callback. Each step is one section under
`obj_mtx`, one section under the pending mutex, one read of the dying flag or one `HSH_Kill`. A second VCL
may share the index: its `stale()` calls see the same records and another pending list.

The object is not `OC_F_TRANSIENT`, and no longer `OC_F_BUSY` when Vinyl sends `OEV_INSERT` for it: the guard of
`cachetag_apply_attach_purge` holds no kill back. -/

namespace Cachetag.Freshness
open Purgemap

/-- What the fetch of the object does next. -/
inductive Fetch where
  /-- `cachetag_get_pending` and the registration of the tags -/
  | register
  /-- Vinyl makes the object reachable -/
  | unbusy
  /-- `cachetag_attach` in `cachetag_obj_cb` -/
  | attach
  /-- `HSH_Kill` in `cachetag_apply_attach_purge` -/
  | kill
  /-- `cachetag_death` behind it -/
  | death
  /-- `cachetag_pending_unlink` at the end of the task -/
  | unlink
  | ended
deriving DecidableEq, Repr

/-- What a `stale()` call does next. -/
inductive Pc where
  /-- the read of `OC_F_DYING` -/
  | flag
  /-- the first `cachetag_record_probe_purgemap` -/
  | first
  /-- `cachetag_pending_probe` -/
  | pending
  /-- the second `cachetag_record_probe_purgemap` -/
  | second
  /-- `cachetag_death` in `cachetag_stale` -/
  | drop
  /-- `HSH_Kill` in `vmod_namespace_stale` -/
  | kill
  /-- `cachetag_death` in `vmod_namespace_stale` -/
  | death
  | done (result : Bool)
deriving DecidableEq, Repr

/-- A `stale()` call on the object. -/
structure Call where
  /-- it is made through the namespace of the other VCL -/
  sibling : Bool
  /-- when it began, a hard purge of one of the tags behind the registration had returned -1 -/
  owed : Bool
  pc : Pc
deriving DecidableEq, Repr

structure State where
  hist : History
  folds : List Fold
  regSeq : Nat
  fetch : Fetch
  /-- the registration is on the pending list of its namespace -/
  pending : Bool
  /-- the object is in the record table -/
  record : Bool
  /-- it has been there -/
  attached : Bool
  /-- `OC_F_DYING` -/
  dying : Bool
  /-- the sweep has removed the record and holds `obj_mtx` until its `HSH_Kill` -/
  locked : Bool
  calls : List Call

/-- Before the fetch of an object with the given tags. -/
def State.start (folds : List Fold) : State :=
  ⟨History.init, folds, 0, .register, false, false, false, false, false, []⟩

/-- A hard purge of one of the object's tags behind its registration has been accepted. -/
def State.Purged (s : State) : Prop :=
  ∃ p ∈ s.hist.log, p.mode = .hard ∧ p.fold ∈ s.folds.map Fold.val ∧ s.regSeq < p.seq

instance (s : State) : Decidable s.Purged := inferInstanceAs (Decidable (∃ _ ∈ _, _))

/-- The probe of the purge map at the registration. -/
def State.verdict (s : State) : Option ProbeResult := probe s.hist.map s.regSeq (s.folds.map Fold.val)

/-- What the record's probe says. -/
def State.recordVerdict (s : State) : Option ProbeResult := if s.folds.isEmpty then some .hard else s.verdict

/-- How `cachetag_stale` goes on from a verdict. A soft one leaves the result 0. -/
def act (v : ProbeResult) : Pc := if v = .hard then .drop else .done false

/-- `cachetag_record_probe_purgemap`, and where the call goes on when there is no record. -/
def State.lookup (s : State) (absent : Pc) : Option Pc :=
  if s.locked then none
  else if s.record then s.recordVerdict.map act
  else some absent

/-- `cachetag_record_invalidate`. A record without tags stays. -/
def State.invalidate (s : State) : Option State :=
  if s.locked then none else some { s with record := s.record && s.folds.isEmpty }

/-- A step of a `stale()` call. The allocation of a pending probe may fail. -/
def State.advance (s : State) (c : Call) (probeFails : Bool) : Option (State × Pc) :=
  match c.pc with
  | .flag => some (s, if s.dying then .kill else .first)
  | .first => (s.lookup .pending).map fun pc => (s, pc)
  | .pending =>
    if !c.sibling && s.pending && !s.folds.isEmpty then
      if probeFails then some (s, .drop) else s.verdict.map fun v => (s, act v)
    else some (s, .second)
  | .second => (s.lookup (.done false)).map fun pc => (s, pc)
  | .drop => s.invalidate.map fun t => (t, .kill)
  | .kill => some ({ s with dying := true }, .death)
  | .death => s.invalidate.map fun t => (t, .done true)
  | .done _ => none

/-- A step of the fetch. The attach may fail, and then fails closed. -/
def State.fetchStep (s : State) (attaches : Bool) : Option State :=
  match s.fetch with
  | .register => some { s with regSeq := s.hist.map.seq, pending := true, fetch := .unbusy }
  | .unbusy => some { s with fetch := .attach }
  | .attach =>
    if attaches && !s.folds.isEmpty && !s.record then
      if s.locked then none
      else s.verdict.map fun v =>
        { s with record := true, attached := true, fetch := if v = .hard then .kill else .unlink }
    else some { s with fetch := .kill }
  | .kill => some { s with dying := true, fetch := .death }
  | .death => s.invalidate.map fun t => { t with fetch := .unlink }
  | .unlink => some { s with pending := false, fetch := .ended }
  | .ended => none

inductive Event where
  | purge (digest : Digest) (mode : PurgeMode) (env : Env)
  | purgeBatch (digests : List Digest) (mode : PurgeMode) (env : Env)
  | fetch (attaches : Bool)
  /-- a request calls `stale()` -/
  | begin (sibling : Bool)
  | call (i : Nat) (probeFails : Bool)
  /-- the sweep removes the record -/
  | sweep
  /-- its `HSH_Kill`, and the end of its section -/
  | sweepKill
  /-- the callback for `OEV_EXPIRE` -/
  | expire
  /-- Vinyl marks the object dying -/
  | depart
deriving Repr

/-- The namespace keeps its history in memory and does not prune it. -/
def config : Config := ⟨0, false⟩

/-- A step of the system; `shared` when a second VCL shares the index. -/
def step (shared : Bool) (s : State) : Event → Option State
  | .purge d mode env => (s.hist.step config (.purge d mode env)).map fun h => { s with hist := h }
  | .purgeBatch ds mode env => (s.hist.step config (.purgeBatch ds mode env)).map fun h => { s with hist := h }
  | .fetch attaches => s.fetchStep attaches
  | .begin sibling =>
    if s.fetch ≠ .register ∧ s.fetch ≠ .unbusy ∧ (sibling = true → shared = true) then
      some { s with calls := s.calls ++ [⟨sibling, decide s.Purged, .flag⟩] }
    else none
  | .call i probeFails =>
    match s.calls[i]? with
    | none => none
    | some c => (s.advance c probeFails).map fun r => { r.1 with calls := r.1.calls.set i { c with pc := r.2 } }
  | .sweep =>
    if s.locked = false ∧ s.record = true ∧ s.recordVerdict = some .hard then
      some { s with record := false, locked := true }
    else none
  | .sweepKill => if s.locked then some { s with dying := true, locked := false } else none
  | .expire => s.invalidate
  | .depart => some { s with dying := true }

/-! ### The condition -/

/-- A lookup now, or one that goes on to the pending list, finds the object: it has its record, it is on the
    caller's own pending list, or it is yet to be attached behind the back of a caller with another list. -/
def State.Covers (s : State) (sibling : Bool) : Prop :=
  s.record = true ∨ if sibling then s.attached = false else s.pending = true

instance (s : State) (b : Bool) : Decidable (s.Covers b) := inferInstanceAs (Decidable (_ ∨ _))

/-- The call has found the flag clear and has not looked into its pending list. -/
def Call.Looking (c : Call) : Prop := c.pc = .first ∨ c.pc = .pending

instance (c : Call) : Decidable c.Looking := inferInstanceAs (Decidable (_ ∨ _))

/-- The record may go: no owed call still needs it. -/
def State.Removable (s : State) : Prop :=
  s.record = true → ∀ c ∈ s.calls, c.owed = true →
    (c.Looking → c.sibling = false ∧ s.pending = true) ∧ c.pc ≠ .second

instance (s : State) : Decidable s.Removable := inferInstanceAs (Decidable (_ → _))

/-- The pending entry may go: the record is there, or no owed call still needs the entry. -/
def State.Unlinkable (s : State) : Prop :=
  s.record = true ∨ ∀ c ∈ s.calls, c.owed = true → c.sibling = false → ¬ c.Looking

instance (s : State) : Decidable s.Unlinkable := inferInstanceAs (Decidable (_ ∨ _))

/-- The condition on a step of an owed call: where it finds the flag clear, a lookup finds the object; where
    it looks for the record a second time, the object has been attached. -/
def State.CallOk (s : State) (c : Call) : Prop :=
  match c.pc with
  | .flag => c.owed = true → s.dying = true ∨ s.Covers c.sibling
  | .second => c.owed = true → s.record = true ∨ s.attached = true
  | .drop | .death => s.Removable
  | _ => True

instance (s : State) (c : Call) : Decidable (s.CallOk c) := by
  unfold State.CallOk
  split <;> infer_instance

/-- The condition on a step. -/
def Covered (s : State) : Event → Prop
  | .call i _ => ∀ c ∈ s.calls[i]?, s.CallOk c
  | .sweep | .expire => s.Removable
  | .fetch _ => (s.fetch = .death → s.Removable) ∧ (s.fetch = .unlink → s.Unlinkable)
  | _ => True

instance (s : State) : (e : Event) → Decidable (Covered s e)
  | .call i _ => inferInstanceAs (Decidable (∀ c ∈ s.calls[i]?, s.CallOk c))
  | .sweep | .expire => inferInstanceAs (Decidable s.Removable)
  | .fetch _ => inferInstanceAs (Decidable (_ ∧ _))
  | .purge .. | .purgeBatch .. | .begin _ | .sweepKill | .depart => inferInstanceAs (Decidable True)

/-! ### The invariant -/

/-- What an owed call relies on where it stands. -/
def Call.Held (s : State) (c : Call) : Prop :=
  match c.pc with
  | .first | .pending => s.Covers c.sibling
  | .second => s.record = true ∨ s.attached = false
  | .done result => result = true
  | _ => True

structure Inv (s : State) : Prop where
  hist : s.hist.Inv
  /-- no call begins before the object is registered -/
  begun : s.fetch = .register ∨ s.fetch = .unbusy → s.calls = []
  owed : ∀ c ∈ s.calls, c.owed = true → s.Purged
  held : ∀ c ∈ s.calls, c.owed = true → c.Held s

section Inv
variable {s t : State} {c d : Call} {shared : Bool} {pc : Pc} {folds : List Fold} {i : Nat} {v : ProbeResult}

/-- What a call relies on moves from state to state with what its lookups find. -/
theorem Call.Held.mono (h : c.Held s) (covers : c.Looking → s.Covers c.sibling → t.Covers c.sibling)
    (second : c.pc = .second → s.record = true ∨ s.attached = false → t.record = true ∨ t.attached = false) :
    c.Held t := by
  unfold Call.Held at h ⊢
  split
  · rename_i hpc
    rw [hpc] at h
    exact covers (.inl hpc) h
  · rename_i hpc
    rw [hpc] at h
    exact covers (.inr hpc) h
  · rename_i hpc
    rw [hpc] at h
    exact second hpc h
  · rename_i hpc
    rw [hpc] at h
    exact h
  · trivial

/-- Calls rely on nothing but the record, its past, and the pending entry. -/
theorem Call.Held.congr (h : c.Held s) (hrecord : t.record = s.record) (hattached : t.attached = s.attached)
    (hpending : t.pending = s.pending) : c.Held t :=
  h.mono (fun _ hc => by unfold State.Covers at *; rwa [hrecord, hattached, hpending])
    fun _ hs => by rwa [hrecord, hattached]

/-- An object that was purged is found hard. -/
theorem Inv.verdict (h : Inv s) (hp : s.Purged) : s.verdict = some .hard := by
  obtain ⟨hle, -⟩ := h.hist.sound.represents.verdict s.regSeq (s.folds.map Fold.val)
  rw [State.verdict, probe_spec h.hist.wf]
  unfold State.Purged at hp
  rw [logVerdict, if_pos hp] at hle
  revert hle
  generalize mapVerdict s.hist.map.live s.hist.map.hardFloor s.hist.map.softFloor s.regSeq (s.folds.map Fold.val) = v
  cases v <;> decide

/-- The probe of the record table always ends. -/
theorem Inv.recordVerdict_total (h : Inv s) : ∃ v, s.recordVerdict = some v := by
  unfold State.recordVerdict
  split
  · exact ⟨_, rfl⟩
  · exact ⟨_, probe_spec h.hist.wf⟩

theorem State.Purged.tagged (h : s.Purged) : s.folds ≠ [] := by
  obtain ⟨p, -, -, hf, -⟩ := h
  rintro hnil
  rw [hnil] at hf
  cases hf

theorem Inv.recordVerdict (h : Inv s) (hp : s.Purged) : s.recordVerdict = some .hard := by
  unfold State.recordVerdict
  split
  · rfl
  · exact h.verdict hp

theorem invalidate_eq (h : s.invalidate = some t) :
    s.locked = false ∧ t = { s with record := s.record && s.folds.isEmpty } := by
  unfold State.invalidate at h
  split at h
  · cases h
  · rename_i hl
    cases h
    exact ⟨by simpa using hl, rfl⟩

/-- The removal of a record that no owed call needs. -/
theorem Call.Held.removed {r : Bool} (h : c.Held s) (hok : s.Removable) (hc : c ∈ s.calls) (howed : c.owed = true) :
    c.Held { s with record := r } := by
  cases hrec : s.record with
  | false =>
    refine h.mono (fun _ hcov => ?_) fun _ hs => ?_
    · rcases hcov with hcov | hcov
      · rw [hrec] at hcov
        cases hcov
      · exact .inr hcov
    · rcases hs with hs | hs
      · rw [hrec] at hs
        cases hs
      · exact .inr hs
  | true =>
    obtain ⟨hlook, hsecond⟩ := hok hrec c hc howed
    refine h.mono (fun hl _ => ?_) fun hs => absurd hs hsecond
    obtain ⟨hsib, hpend⟩ := hlook hl
    exact .inr (by simpa [hsib] using hpend)

/-- A lookup of the record by an owed call ends well, or finds none. -/
theorem Inv.lookup {absent : Pc} (h : Inv s) (hp : s.Purged) (hl : s.lookup absent = some pc) :
    pc = .drop ∨ s.record = false ∧ pc = absent := by
  unfold State.lookup at hl
  split at hl
  · cases hl
  split at hl
  · rw [h.recordVerdict hp] at hl
    cases hl
    exact .inl rfl
  · rename_i hr
    cases hl
    exact .inr ⟨by simpa using hr, rfl⟩

/-- What a step of a call leaves: at most the record is gone, which no other owed call needs, and the call
    has what it relies on. -/
theorem Inv.advance {probeFails : Bool} (h : Inv s) (hc : c ∈ s.calls) (hok : s.CallOk c)
    (hs : s.advance c probeFails = some (t, pc)) :
    ∃ r b, t = { s with record := r, dying := b } ∧ (r = s.record ∨ s.Removable) ∧
      (c.owed = true → Call.Held t { c with pc := pc }) := by
  have purged : c.owed = true → s.Purged := h.owed c hc
  have held : c.owed = true → c.Held s := h.held c hc
  unfold State.CallOk at hok
  unfold Call.Held at held
  unfold State.advance at hs
  cases hpc : c.pc with
  -- With the flag set, the call answers 1 at its end whatever it finds.
  | flag =>
    simp only [hpc] at hs hok
    cases hs
    refine ⟨s.record, s.dying, rfl, .inl rfl, fun howed => ?_⟩
    cases hd : s.dying with
    | true => trivial
    | false => exact (hok howed).resolve_left (by simp [hd])
  | first =>
    simp only [hpc] at hs held
    obtain ⟨pc, hl, heq⟩ := Option.map_eq_some_iff.mp hs
    cases heq
    refine ⟨s.record, s.dying, rfl, .inl rfl, fun howed => ?_⟩
    rcases h.lookup (purged howed) hl with rfl | ⟨-, rfl⟩
    · trivial
    · exact held howed
  -- A purge that precedes the call is in the map, so that the verdict of a pending list is known.
  | pending =>
    simp only [hpc] at hs held
    split at hs
    · split at hs
      · cases hs
        exact ⟨s.record, s.dying, rfl, .inl rfl, fun _ => trivial⟩
      · obtain ⟨v, hv, heq⟩ := Option.map_eq_some_iff.mp hs
        cases heq
        refine ⟨s.record, s.dying, rfl, .inl rfl, fun howed => ?_⟩
        rw [h.verdict (purged howed)] at hv
        cases hv
        trivial
    · rename_i hnot
      cases hs
      refine ⟨s.record, s.dying, rfl, .inl rfl, fun howed => ?_⟩
      -- Not in the list of this namespace: the record is there, or the sibling's window is over.
      rcases held howed with hrec | hcov
      · exact .inl hrec
      · refine .inr ?_
        have htag := (purged howed).tagged
        cases hsib : c.sibling with
        | true => simpa [hsib] using hcov
        | false => simp [hsib, htag] at hcov hnot; simp [hcov] at hnot
  | second =>
    simp only [hpc] at hs hok held
    obtain ⟨pc, hl, heq⟩ := Option.map_eq_some_iff.mp hs
    cases heq
    refine ⟨s.record, s.dying, rfl, .inl rfl, fun howed => ?_⟩
    rcases h.lookup (purged howed) hl with rfl | ⟨hrec, rfl⟩
    · trivial
    · have hatt := (hok howed).resolve_left (by simp [hrec])
      have := (held howed).resolve_left (by simp [hrec])
      rw [hatt] at this
      cases this
  -- Each owed call that goes on answers 1 without the record.
  | drop =>
    simp only [hpc] at hs hok
    obtain ⟨u, hu, heq⟩ := Option.map_eq_some_iff.mp hs
    cases heq
    obtain ⟨-, rfl⟩ := invalidate_eq hu
    exact ⟨_, s.dying, rfl, .inr hok, fun _ => trivial⟩
  | kill =>
    simp only [hpc] at hs
    cases hs
    exact ⟨s.record, true, rfl, .inl rfl, fun _ => trivial⟩
  | death =>
    simp only [hpc] at hs hok
    obtain ⟨u, hu, heq⟩ := Option.map_eq_some_iff.mp hs
    cases heq
    obtain ⟨-, rfl⟩ := invalidate_eq hu
    exact ⟨_, s.dying, rfl, .inr hok, fun _ => rfl⟩
  | done result =>
    simp only [hpc] at hs
    cases hs

/-- Changes that leave the history, the registration and the calls alone. -/
theorem Inv.change (h : Inv s) (hhist : t.hist = s.hist) (hfolds : t.folds = s.folds) (hreg : t.regSeq = s.regSeq)
    (hfetch : t.fetch = s.fetch ∨ (t.fetch ≠ .register ∧ t.fetch ≠ .unbusy)) (hcalls : t.calls = s.calls)
    (hheld : ∀ c ∈ s.calls, c.owed = true → c.Held s → c.Held t) : Inv t where
  hist := hhist ▸ h.hist
  begun := fun hb => by
    rcases hfetch with hf | ⟨h1, h2⟩
    · rw [hcalls]
      exact h.begun (hf ▸ hb)
    · exact absurd hb (by simp [h1, h2])
  owed := fun c hc howed => by
    obtain ⟨p, hp⟩ := h.owed c (hcalls ▸ hc) howed
    exact ⟨p, by rw [hhist, hfolds, hreg]; exact hp⟩
  held := fun c hc howed => hheld c (hcalls ▸ hc) howed (h.held c (hcalls ▸ hc) howed)

theorem Inv.remove (h : Inv s) (hok : s.Removable) (r b l : Bool) : Inv { s with record := r, dying := b, locked := l } :=
  h.change rfl rfl rfl (.inl rfl) rfl fun _ hc howed hheld => (hheld.removed hok hc howed).congr rfl rfl rfl

theorem Inv.call {probeFails : Bool} (h : Inv s) (hi : s.calls[i]? = some c) (hok : s.CallOk c)
    (hs : s.advance c probeFails = some (t, pc)) : Inv { t with calls := t.calls.set i { c with pc := pc } } := by
  have hc := List.mem_of_getElem? hi
  obtain ⟨r, b, rfl, hr, hnew⟩ := h.advance hc hok hs
  have hinv : Inv { s with record := r, dying := b } := by
    rcases hr with rfl | hr
    · exact h.change rfl rfl rfl (.inl rfl) rfl fun _ _ _ hheld => hheld.congr rfl rfl rfl
    · exact h.remove hr r b s.locked
  refine ⟨h.hist, fun hb => ?_, fun d hd howed => ?_, fun d hd howed => ?_⟩
  · rw [h.begun hb] at hc
    cases hc
  · rcases List.mem_or_eq_of_mem_set hd with hd | rfl
    · exact h.owed d hd howed
    · exact h.owed c hc howed
  · rcases List.mem_or_eq_of_mem_set hd with hd | rfl
    · exact (hinv.held d hd howed).congr rfl rfl rfl
    · exact (hnew howed).congr rfl rfl rfl

/-- An accepted purge stays in the log. -/
theorem answered_log {s : History} {p : Purgemap.Purged} {folds : List Fold} {mode : PurgeMode} {q : Purge}
    (hq : q ∈ s.log) : q ∈ (s.answered p folds mode).log := by
  unfold History.answered logged
  dsimp only
  split
  · exact List.mem_append_left _ hq
  · exact hq

theorem Inv.purged {h' : History} (h : Inv s) (hinv : h'.Inv) (hlog : ∀ p ∈ s.hist.log, p ∈ h'.log) :
    Inv { s with hist := h' } where
  hist := hinv
  begun := h.begun
  owed := fun c hc howed => by
    obtain ⟨p, hp, hrest⟩ := h.owed c hc howed
    exact ⟨p, hlog p hp, hrest⟩
  held := fun c hc howed => (h.held c hc howed).congr rfl rfl rfl

theorem Inv.fetchStep {attaches : Bool} (h : Inv s)
    (hok : (s.fetch = .death → s.Removable) ∧ (s.fetch = .unlink → s.Unlinkable))
    (hs : s.fetchStep attaches = some t) : Inv t := by
  -- No request has the object before `OEV_INSERT`.
  have nocalls : s.fetch = .register ∨ s.fetch = .unbusy → ∀ c, c ∉ s.calls := fun hf c hc => by
    rw [h.begun hf] at hc
    cases hc
  unfold State.fetchStep at hs
  split at hs
  · rename_i hf
    cases hs
    exact ⟨h.hist, fun _ => h.begun (.inl hf), fun c hc => absurd hc (nocalls (.inl hf) c),
      fun c hc => absurd hc (nocalls (.inl hf) c)⟩
  · cases hs
    exact h.change rfl rfl rfl (.inr (by simp)) rfl fun _ _ _ hheld => hheld.congr rfl rfl rfl
  · split at hs
    · split at hs
      · cases hs
      · obtain ⟨v, -, rfl⟩ := Option.map_eq_some_iff.mp hs
        refine h.change rfl rfl rfl (.inr ?_) rfl fun _ _ _ hheld => hheld.mono (fun _ _ => .inl rfl) fun _ _ => .inl rfl
        dsimp only
        split <;> simp
    · cases hs
      exact h.change rfl rfl rfl (.inr (by simp)) rfl fun _ _ _ hheld => hheld.congr rfl rfl rfl
  · cases hs
    exact h.change rfl rfl rfl (.inr (by simp)) rfl fun _ _ _ hheld => hheld.congr rfl rfl rfl
  · rename_i hf
    obtain ⟨u, hu, rfl⟩ := Option.map_eq_some_iff.mp hs
    obtain ⟨-, rfl⟩ := invalidate_eq hu
    exact h.change rfl rfl rfl (.inr (by simp)) rfl
      fun _ hc howed hheld => (hheld.removed (hok.1 hf) hc howed).congr rfl rfl rfl
  · rename_i hf
    cases hs
    refine h.change rfl rfl rfl (.inr (by simp)) rfl fun c hc howed hheld =>
      hheld.mono (fun hl hcov => ?_) fun _ hsec => hsec
    -- A call that has the list still to look at relies on the record, or comes through the sibling.
    rcases hcov with hrec | hcov
    · exact .inl hrec
    · rcases hok.2 hf with hrec | hnone
      · exact .inl hrec
      · cases hsib : c.sibling with
        | true => exact .inr (by simpa [hsib] using hcov)
        | false => exact absurd hl (hnone c hc howed hsib)
  · cases hs

theorem Inv.step {e : Event} (h : Inv s) (hok : Covered s e) (hs : step shared s e = some t) : Inv t := by
  cases e with
  | purge d mode env =>
    obtain ⟨h', hh, rfl⟩ := Option.map_eq_some_iff.mp hs
    refine h.purged (h.hist.step hh) fun p hp => ?_
    simp only [History.step] at hh
    split at hh
    · cases hh
    · cases hh
      exact answered_log hp
  | purgeBatch ds mode env =>
    obtain ⟨h', hh, rfl⟩ := Option.map_eq_some_iff.mp hs
    refine h.purged (h.hist.step hh) fun p hp => ?_
    simp only [History.step] at hh
    split at hh
    · cases hh
    · cases hh
      exact answered_log hp
  | fetch attaches => exact h.fetchStep hok hs
  -- A call that begins is owed an answer by the purge of before, and has met nothing yet.
  | begin sibling =>
    simp only [Freshness.step] at hs
    split at hs
    · rename_i hb
      cases hs
      refine ⟨h.hist, fun hf => absurd hf (by simp [hb.1, hb.2.1]), fun c hc howed => ?_, fun c hc howed => ?_⟩
      · rcases List.mem_append.mp hc with hc | hc
        · exact h.owed c hc howed
        · obtain rfl := List.mem_singleton.mp hc
          exact of_decide_eq_true howed
      · rcases List.mem_append.mp hc with hc | hc
        · exact (h.held c hc howed).congr rfl rfl rfl
        · obtain rfl := List.mem_singleton.mp hc
          trivial
    · cases hs
  | call i probeFails =>
    simp only [Freshness.step] at hs
    split at hs
    · cases hs
    · rename_i c hi
      obtain ⟨⟨u, pc⟩, hu, rfl⟩ := Option.map_eq_some_iff.mp hs
      exact h.call hi (hok c hi) hu
  -- The record is gone before the object is dead: the condition says whom that does not hurt.
  | sweep =>
    simp only [Freshness.step] at hs
    split at hs
    · cases hs
      exact h.remove hok false s.dying true
    · cases hs
  | sweepKill =>
    simp only [Freshness.step] at hs
    split at hs
    · cases hs
      exact h.change rfl rfl rfl (.inl rfl) rfl fun _ _ _ hheld => hheld.congr rfl rfl rfl
    · cases hs
  | expire =>
    obtain ⟨-, rfl⟩ := invalidate_eq hs
    exact h.remove hok _ s.dying s.locked
  | depart =>
    cases hs
    exact h.change rfl rfl rfl (.inl rfl) rfl fun _ _ _ hheld => hheld.congr rfl rfl rfl

theorem Inv.start : Inv (State.start folds) :=
  ⟨History.Inv.init, fun _ => rfl, nofun, nofun⟩

theorem Inv.lookup_total (absent : Pc) (h : Inv s) (hl : s.locked = false) : ∃ pc, s.lookup absent = some pc := by
  obtain ⟨v, hv⟩ := h.recordVerdict_total
  cases hr : s.record with
  | true => exact ⟨act v, by simp [State.lookup, hl, hr, hv]⟩
  | false => exact ⟨absent, by simp [State.lookup, hl, hr]⟩

/-- A call that is not done can take its next step once the sweep is out of its section. -/
theorem Inv.call_total (h : Inv s) (hi : s.calls[i]? = some c) (hdone : ∀ result, c.pc ≠ .done result)
    (hl : s.locked = false) : ∃ t, Freshness.step shared s (.call i false) = some t := by
  have total : ∃ r, s.advance c false = some r := by
    have hverdict : ∃ v, s.verdict = some v := ⟨_, probe_spec h.hist.wf⟩
    obtain ⟨v, hv⟩ := hverdict
    unfold State.advance
    split
    · exact ⟨_, rfl⟩
    · obtain ⟨pc, hpc⟩ := h.lookup_total .pending hl
      exact ⟨(s, pc), by rw [hpc]; rfl⟩
    · simp only [hv]
      split <;> exact ⟨_, rfl⟩
    · obtain ⟨pc, hpc⟩ := h.lookup_total (.done false) hl
      exact ⟨(s, pc), by rw [hpc]; rfl⟩
    · simp only [State.invalidate, hl]
      exact ⟨_, rfl⟩
    · exact ⟨_, rfl⟩
    · simp only [State.invalidate, hl]
      exact ⟨_, rfl⟩
    · rename_i r hpc
      exact absurd hpc (hdone r)
  obtain ⟨r, hr⟩ := total
  simp only [Freshness.step, hi, hr]
  exact ⟨_, rfl⟩

/-- An owed call never answers 0, and is never stuck but behind a sweep that goes on. -/
theorem Inv.answers (h : Inv s) (hi : s.calls[i]? = some c) (howed : c.owed = true) :
    (∀ result, c.pc = .done result → result = true) ∧
    ((∀ result, c.pc ≠ .done result) → (∃ t, Freshness.step shared s (.call i false) = some t) ∨
      ∃ t, Freshness.step shared s .sweepKill = some t) := by
  refine ⟨fun result hpc => ?_, fun hdone => ?_⟩
  · have hheld := h.held c (List.mem_of_getElem? hi) howed
    unfold Call.Held at hheld
    rw [hpc] at hheld
    exact hheld
  · cases hl : s.locked with
    | false => exact .inl (h.call_total hi hdone hl)
    | true => exact .inr ⟨{ s with dying := true, locked := false }, by simp [Freshness.step, hl]⟩

end Inv

/-! ### One namespace -/

/-- In every run of fetch, purges, `stale()` calls, sweeps and callbacks whose steps all meet the condition, a
    call that began after the purge had been accepted answers 1, and gets to its answer. -/
theorem stale_answers (folds : List Fold) (s : State)
    (h : Machine.Reach (step false) Covered (State.start folds) s) (i : Nat) (c : Call)
    (hi : s.calls[i]? = some c) (howed : c.owed = true) :
    (∀ result, c.pc = .done result → result = true) ∧
    ((∀ result, c.pc ≠ .done result) → (∃ t, step false s (.call i false) = some t) ∨
      ∃ t, step false s .sweepKill = some t) :=
  (h.inv Inv.start fun _ hi hok hs => hi.step hok hs).answers hi howed

/-- The fetch of an object, and a hard purge of its tag behind the registration. -/
def fetched : List Event :=
  [.fetch true, .fetch true, .fetch true, .fetch true, .purge ⟨0, 5⟩ .hard .ok]

/-- A call that has the object to itself. -/
def aloneCall : List Event :=
  fetched ++ [.begin false, .call 0 false, .call 0 false, .call 0 false, .call 0 false, .call 0 false]

theorem stale_answers_alone : ∃ s, Machine.run (Machine.guarded (step false) Covered) (State.start [foldDigest ⟨0, 5⟩])
    aloneCall = some s ∧ s.calls = [⟨false, true, .done true⟩] ∧ (∀ result, Pc.done true = .done result → result = true) := by
  have hrun : (Machine.run (Machine.guarded (step false) Covered) (State.start [foldDigest ⟨0, 5⟩]) aloneCall).map
      State.calls = some [⟨false, true, .done true⟩] := by decide +kernel
  obtain ⟨s, hs, hcalls⟩ := Option.map_eq_some_iff.mp hrun
  exact ⟨s, hs, hcalls, (stale_answers _ s (.of_guarded hs) 0 ⟨false, true, .done true⟩ (by rw [hcalls]; rfl) rfl).1⟩

/-- Two calls: the first has dropped the record and is about to mark the object dying. -/
def twoCalls : List Event :=
  fetched ++ [.begin false, .begin false, .call 0 false, .call 0 false, .call 0 false,
    .call 1 false, .call 1 false, .call 1 false, .call 1 false]

/-- The second call finds the flag clear, no record and no pending entry, and answers 0. -/
theorem stale_misses : ∃ s, Machine.Reach (step false) Machine.always (State.start [foldDigest ⟨0, 5⟩]) s ∧
    s.calls[1]? = some ⟨false, true, .done false⟩ := by
  have hrun : (Machine.run (step false) (State.start [foldDigest ⟨0, 5⟩]) twoCalls).map State.calls =
      some [⟨false, true, .kill⟩, ⟨false, true, .done false⟩] := by decide +kernel
  obtain ⟨s, hs, hcalls⟩ := Option.map_eq_some_iff.mp hrun
  exact ⟨s, .of_run hs, by rw [hcalls]; rfl⟩

/-! ### Two VCLs over one index -/

/-- With calls through the namespaces of both VCLs, from the moment the object can be looked up: in every
    run whose steps all meet the condition, a call that began after the purge had been accepted answers 1. -/
theorem stale_answers_shared (folds : List Fold) (s : State)
    (h : Machine.Reach (step true) Covered (State.start folds) s) (i : Nat) (c : Call)
    (hi : s.calls[i]? = some c) (howed : c.owed = true) :
    (∀ result, c.pc = .done result → result = true) ∧
    ((∀ result, c.pc ≠ .done result) → (∃ t, step true s (.call i false) = some t) ∨
      ∃ t, step true s .sweepKill = some t) :=
  (h.inv Inv.start fun _ hi hok hs => hi.step hok hs).answers hi howed

/-- A purge before the insert callback; the calls of both VCLs look again after it. -/
def acrossAttach : List Event :=
  [.fetch true, .fetch true, .purge ⟨0, 5⟩ .hard .ok, .begin true, .begin false, .call 0 false, .call 0 false,
    .call 0 false, .call 1 false, .call 1 false, .fetch true, .call 0 false, .call 1 false]

theorem stale_answers_across : ∃ s, Machine.run (Machine.guarded (step true) Covered)
    (State.start [foldDigest ⟨0, 5⟩]) acrossAttach = some s ∧ s.calls = [⟨true, true, .drop⟩, ⟨false, true, .drop⟩] ∧
    ((∃ t, step true s (.call 0 false) = some t) ∨ ∃ t, step true s .sweepKill = some t) := by
  have hrun : (Machine.run (Machine.guarded (step true) Covered) (State.start [foldDigest ⟨0, 5⟩]) acrossAttach).map
      State.calls = some [⟨true, true, .drop⟩, ⟨false, true, .drop⟩] := by decide +kernel
  obtain ⟨s, hs, hcalls⟩ := Option.map_eq_some_iff.mp hrun
  refine ⟨s, hs, hcalls, ?_⟩
  exact (stale_answers_shared _ s (.of_guarded hs) 0 ⟨true, true, .drop⟩ (by rw [hcalls]; rfl) rfl).2
    fun _ => Pc.noConfusion

/-- A call of the other VCL between the moment the object can be looked up and its insert callback. -/
def beforeAttach : List Event :=
  [.fetch true, .fetch true, .purge ⟨0, 5⟩ .hard .ok, .begin true, .call 0 false, .call 0 false, .call 0 false,
    .call 0 false]

/-- It finds no record, has no pending entry for the object, and answers 0 of an object that is still there. -/
theorem stale_misses_shared : ∃ s, Machine.Reach (step true) Machine.always (State.start [foldDigest ⟨0, 5⟩]) s ∧
    s.calls[0]? = some ⟨true, true, .done false⟩ ∧ s.dying = false ∧ s.pending = true ∧ s.fetch = .attach := by
  have hrun : (Machine.run (step true) (State.start [foldDigest ⟨0, 5⟩]) beforeAttach).map
      (fun s => (s.calls, s.dying, s.pending, s.fetch)) =
      some ([⟨true, true, .done false⟩], false, true, .attach) := by decide +kernel
  obtain ⟨s, hs, heq⟩ := Option.map_eq_some_iff.mp hrun
  obtain ⟨hcalls, hdying, hpending, hfetch⟩ : s.calls = _ ∧ s.dying = _ ∧ s.pending = _ ∧ s.fetch = _ := by
    simpa only [Prod.mk.injEq] using heq
  exact ⟨s, .of_run hs, by rw [hcalls]; rfl, hdying, hpending, hfetch⟩

end Cachetag.Freshness
