import Cachetag.EpochGate
import Cachetag.Lib.Machine

/-! The reader gate of the purge map: which tables may be freed while probes run.

A table has a number here instead of its address. The writer runs one operation at a time, under
`purge_mtx`, as a list of the atomic steps it makes on the gate and the table pointer; each probe is a
reader that runs beside it. -/

namespace Cachetag.ReaderGate

/-- Where a probe stands between `cachetag_purgemap_reader_enter` and `cachetag_purgemap_reader_exit`. -/
inductive Reader where
  | idle
  /-- has loaded the phase -/
  | entering (slot : Bool)
  /-- has incremented its slot -/
  | counted (slot : Bool)
  /-- has found the phase changed -/
  | leaving (slot : Bool)
  /-- has found the phase unchanged -/
  | stable (slot : Bool)
  /-- has loaded the table pointer -/
  | holding (slot : Bool) (tbl : Option Nat)
deriving DecidableEq, Repr

/-- An atomic step of a writer. -/
inductive Instr where
  /-- `tbl->retire_reader_slot = phase` -/
  | record (tbl : Nat)
  /-- the store of the table pointer by a rebuild, a prune or a reclaim -/
  | store (tbl : Option Nat)
  /-- the store of the table pointer by a rollback -/
  | putBack (discarded original : Nat)
  /-- `phase ^= 1` -/
  | flip
  /-- the wait of `cachetag_purgemap_retire_after_commit` -/
  | wait (tbl : Nat)
  | free (tbl : Nat)
deriving DecidableEq, Repr

/-- The operations that retire a table. -/
inductive Op where
  /-- `cachetag_purgemap_rebuild_locked` -/
  | rebuild
  /-- `cachetag_purgemap_prune_locked` -/
  | prune
  /-- `cachetag_purgemap_reclaim_locked`, which keeps no entry or some -/
  | reclaim (keeps : Bool)
  /-- a prune, a checkpoint that fails, and `cachetag_purgemap_prune_rollback_locked` -/
  | pruneRollback
deriving DecidableEq, Repr

structure State where
  gate : Gate
  table : Option Nat
  /-- the number of the next table to be allocated -/
  next : Nat
  retireSlot : Nat → Bool
  freed : Nat → Bool
  /-- what the running operation has still to do -/
  todo : List Instr
  readers : List Reader

/-- A map without a table, and `k` probes that have not begun. -/
def State.start (k : Nat) : State :=
  ⟨Gate.init, none, 0, fun _ => false, fun _ => false, [], List.replicate k .idle⟩

/-- The steps that put a table in the place of an old one and free that. -/
def retire (old : Nat) (new : Option Nat) : List Instr := [.record old, .store new, .flip, .wait old, .free old]

/-- The steps of an operation. A map without a table has nothing to prune and nothing to retire. -/
def Op.program (s : State) : Op → Option (List Instr)
  | .rebuild => some (s.table.elim [.store (some s.next)] fun old => retire old (some s.next))
  | .prune => s.table.map fun old => retire old (some s.next)
  | .reclaim keeps =>
    some (s.table.elim [.store none] fun old => retire old (if keeps then some s.next else none))
  | .pruneRollback => s.table.map fun old =>
    [.record old, .store (some s.next), .flip, .record s.next, .putBack s.next old, .flip, .wait s.next, .free s.next]

inductive Event where
  | op (op : Op)
  | write
  | read (i : Nat)
deriving DecidableEq, Repr

/-- A step of the writer. -/
def State.exec (s : State) : Instr → Option State
  | .record t => some { s with retireSlot := Function.update s.retireSlot t s.gate.phase }
  | .store t => some { s with table := t }
  | .putBack _ original => some { s with table := some original }
  | .flip => some { s with gate := s.gate.flip }
  | .wait t => if s.gate.readers (s.retireSlot t) = 0 then some s else none
  | .free t => some { s with freed := Function.update s.freed t true }

/-- A step of a probe: its next place, and the gate behind it. -/
def State.advance (s : State) : Reader → Reader × Gate
  | .idle => (.entering s.gate.phase, s.gate)
  | .entering slot => (.counted slot, s.gate.enter slot)
  | .counted slot => (if s.gate.phase = slot then .stable slot else .leaving slot, s.gate)
  | .leaving slot => (.idle, s.gate.leave slot)
  | .stable slot => (.holding slot s.table, s.gate)
  | .holding slot _ => (.idle, s.gate.leave slot)

def step (s : State) : Event → Option State
  | .op op =>
    match s.todo with
    | [] => (op.program s).map fun todo => { s with todo := todo, next := s.next + 1 }
    | _ :: _ => none
  | .write =>
    match s.todo with
    | [] => none
    | i :: rest => (s.exec i).map fun t => { t with todo := rest }
  | .read i =>
    match s.readers[i]? with
    | none => none
    | some r => some { s with readers := s.readers.set i (s.advance r).1, gate := (s.advance r).2 }

/-- The probes that have loaded a table which a rollback is about to discard are all counted in the slot
    that it has recorded for the table, and will wait for. -/
def AwaitedBy (s : State) : List Instr → Prop
  | .putBack discarded _ :: _ => ∀ slot, .holding slot (some discarded) ∈ s.readers → slot = s.retireSlot discarded
  | _ => True

instance (s : State) : (todo : List Instr) → Decidable (AwaitedBy s todo)
  | .putBack d _ :: _ => inferInstanceAs (Decidable (∀ slot, .holding slot (some d) ∈ s.readers → slot = s.retireSlot d))
  | [] | .record _ :: _ | .store _ :: _ | .flip :: _ | .wait _ :: _ | .free _ :: _ => inferInstanceAs (Decidable True)

/-- The condition on a step: a rollback's store finds the probes of the replacement where it awaits them. -/
def Awaited (s : State) : Event → Prop
  | .write => AwaitedBy s s.todo
  | _ => True

instance (s : State) : (e : Event) → Decidable (Awaited s e)
  | .write => inferInstanceAs (Decidable (AwaitedBy s s.todo))
  | .op _ | .read _ => inferInstanceAs (Decidable True)

/-! ### What the counts say -/

/-- The probe is counted in a slot. -/
def Reader.In (slot : Bool) : Reader → Bool
  | .counted b | .leaving b | .stable b | .holding b _ => b == slot
  | _ => false

/-- The probe has found its phase unchanged. -/
def Reader.Active (slot : Bool) : Reader → Bool
  | .stable b | .holding b _ => b == slot
  | _ => false

theorem Reader.Active.in {r : Reader} {slot : Bool} (h : r.Active slot = true) : r.In slot = true := by
  cases r <;> first | exact h | cases h

/-- Each slot counts the probes in it. -/
def Counts (s : State) : Prop := ∀ slot, s.gate.readers slot = s.readers.countP (Reader.In slot)

/-- No probe is active in a slot. -/
def Quiet (s : State) (slot : Bool) : Prop := ∀ r ∈ s.readers, r.Active slot = false

/-- The tables that the probes of a slot hold. -/
def Holds (s : State) (slot : Bool) (P : Nat → Prop) : Prop := ∀ t, .holding slot (some t) ∈ s.readers → P t

section Readers
variable {s t : State} {slot : Bool} {P : Nat → Prop} {i : Nat} {r : Reader}

theorem Quiet.holds (h : Quiet s slot) : Holds s slot P := fun t ht => by
  have := h _ ht
  simp [Reader.Active] at this

theorem Counts.quiet (h : Counts s) (hzero : s.gate.readers slot = 0) : Quiet s slot := by
  intro r hr
  rw [h slot, List.countP_eq_zero] at hzero
  by_contra hact
  exact hzero r hr (Reader.Active.in (by simpa using hact))

theorem advance_phase : (s.advance r).2.phase = s.gate.phase := by
  cases r <;> simp [State.advance]

/-- The counts follow a probe's step. -/
theorem advance_readers (hpos : r.In slot = true → 0 < s.gate.readers slot) :
    (s.advance r).2.readers slot =
      s.gate.readers slot - (if r.In slot then 1 else 0) + (if (s.advance r).1.In slot then 1 else 0) := by
  cases r with
  | idle => simp [State.advance, Reader.In]
  | entering b =>
    simp only [State.advance, Reader.In, Gate.readers_enter]
    cases b <;> cases slot <;> simp
  | counted b =>
    have hstay : (s.advance (.counted b)).1.In slot = (b == slot) := by
      simp only [State.advance]
      split <;> rfl
    rw [hstay]
    simp only [State.advance, Reader.In] at hpos ⊢
    by_cases hb : (b == slot) = true
    · have := hpos hb
      simp only [hb, if_true]
      omega
    · simp [hb]
  | leaving b =>
    simp only [State.advance, Reader.In, Gate.readers_leave]
    cases b <;> cases slot <;> simp
  | stable b =>
    simp only [State.advance, Reader.In] at hpos ⊢
    by_cases hb : (b == slot) = true
    · have := hpos hb
      simp only [hb, if_true]
      omega
    · simp [hb]
  | holding b tbl =>
    simp only [State.advance, Reader.In, Gate.readers_leave]
    cases b <;> cases slot <;> simp

theorem Counts.read (h : Counts s) (hi : s.readers[i]? = some r) :
    Counts { s with readers := s.readers.set i (s.advance r).1, gate := (s.advance r).2 } := by
  intro slot
  obtain ⟨hlt, rfl⟩ := List.getElem?_eq_some_iff.mp hi
  have hpos : s.readers[i].In slot = true → 0 < s.gate.readers slot := fun hin => by
    rw [h slot]
    exact List.countP_pos_iff.mpr ⟨_, List.getElem_mem hlt, hin⟩
  dsimp only
  rw [List.countP_set hlt, advance_readers hpos, h slot]

/-- A probe becomes active in the current phase alone. -/
theorem advance_active (h : (s.advance r).1.Active slot = true) : r.Active slot = true ∨ slot = s.gate.phase := by
  cases r with
  | counted b =>
    simp only [State.advance] at h
    split at h
    · rename_i hph
      exact .inr ((beq_iff_eq.mp h).symm.trans hph.symm)
    · cases h
  | stable b => exact .inl h
  | _ => cases h

/-- A probe loads the current table alone. -/
theorem advance_holding {tbl : Nat} (h : (s.advance r).1 = .holding slot (some tbl)) :
    s.table = some tbl ∧ r.Active slot = true := by
  cases r with
  | stable b =>
    simp only [State.advance, Reader.holding.injEq] at h
    obtain ⟨rfl, htbl⟩ := h
    exact ⟨htbl, by simp [Reader.Active]⟩
  | counted b =>
    simp only [State.advance] at h
    split at h <;> cases h
  | _ => cases h

/-- What a step of a probe can change in the sight of the writer. -/
structure Reads (s t : State) : Prop where
  table : t.table = s.table
  retireSlot : t.retireSlot = s.retireSlot
  phase : t.gate.phase = s.gate.phase
  quiet : ∀ slot, slot ≠ s.gate.phase → Quiet s slot → Quiet t slot
  holds : ∀ slot P, Holds s slot P → (∀ tbl, s.table = some tbl → P tbl) → Holds t slot P

theorem Reads.of_read (hi : s.readers[i]? = some r) :
    Reads s { s with readers := s.readers.set i (s.advance r).1, gate := (s.advance r).2 } where
  table := rfl
  retireSlot := rfl
  phase := advance_phase
  quiet := by
    intro slot hne hq x hx
    rcases List.mem_or_eq_of_mem_set hx with hx | rfl
    · exact hq x hx
    · by_contra hact
      rcases advance_active (by simpa using hact) with hact | heq
      · rw [hq r (List.mem_of_getElem? hi)] at hact
        cases hact
      · exact hne heq
  holds := by
    intro slot P hh hcur tbl hx
    rcases List.mem_or_eq_of_mem_set hx with hx | heq
    · exact hh tbl hx
    · exact hcur tbl (advance_holding heq.symm).1

end Readers

/-! ### Where the writer stands -/

/-- What follows the flip of an operation that has put the table `new` in the place of `old`. -/
def Tail (old : Nat) (new : Option Nat) (rest : List Instr) : Prop :=
  rest = [.wait old, .free old] ∨
    ∃ d, new = some d ∧ rest = [.record d, .putBack d old, .flip, .wait d, .free d]

/-- No probe is active in the other phase, and all hold the current table. -/
structure Calm (s : State) : Prop where
  quiet : Quiet s (!s.gate.phase)
  holds : Holds s s.gate.phase fun t => s.table = some t

/-- What the probes may hold at each point of an operation. The probes that hold the retired table are all
    in the slot that it records once the phase has been flipped. -/
inductive Stage (s : State) : List Instr → Prop
  | idle : Calm s → Stage s []
  | first {new : Option Nat} : Calm s → s.table = none → Stage s [.store new]
  | record {old : Nat} {new : Option Nat} {rest : List Instr} : Calm s → s.table = some old → new ≠ some old →
    Tail old new rest → Stage s (.record old :: .store new :: .flip :: rest)
  | replace {old : Nat} {new : Option Nat} {rest : List Instr} : Calm s → s.table = some old → new ≠ some old →
    s.retireSlot old = s.gate.phase → Tail old new rest → Stage s (.store new :: .flip :: rest)
  | flip (old : Nat) {rest : List Instr} : Holds s (!s.gate.phase) (fun t => s.table = some t) →
    Holds s s.gate.phase (fun t => t = old ∨ s.table = some t) → s.table ≠ some old →
    s.retireSlot old = s.gate.phase → Tail old s.table rest → Stage s (.flip :: rest)
  | rollback {old d : Nat} : Holds s s.gate.phase (fun t => s.table = some t) →
    Holds s (!s.gate.phase) (fun t => t = old ∨ s.table = some t) → s.table = some d → d ≠ old →
    Stage s [.record d, .putBack d old, .flip, .wait d, .free d]
  | putBack {old d : Nat} : Holds s s.gate.phase (fun t => s.table = some t) →
    Holds s (!s.gate.phase) (fun t => t = old ∨ s.table = some t) → s.table = some d → d ≠ old →
    s.retireSlot d = s.gate.phase → Stage s [.putBack d old, .flip, .wait d, .free d]
  | drain {old : Nat} : Holds s s.gate.phase (fun t => s.table = some t) →
    Holds s (!s.gate.phase) (fun t => t = old ∨ s.table = some t) → s.table ≠ some old →
    s.retireSlot old = !s.gate.phase → Stage s [.wait old, .free old]
  | free {old : Nat} : Calm s → s.table ≠ some old → Stage s [.free old]

/-- The tables that a step of the writer names. -/
def Instr.tables : Instr → List Nat
  | .record t | .wait t | .free t => [t]
  | .store t => t.toList
  | .putBack d o => [d, o]
  | .flip => []

structure Inv (s : State) : Prop where
  counts : Counts s
  stage : Stage s s.todo
  /-- the tables in use are allocated and not freed -/
  used : ∀ t, (s.table = some t ∨ ∃ i ∈ s.todo, t ∈ i.tables) → t < s.next ∧ s.freed t = false
  fresh : ∀ t, s.next ≤ t → s.freed t = false

section Inv
variable {s t : State} {i : Nat} {o : Op} {todo : List Instr}

theorem Stage.reads (h : Stage s todo) (hr : Reads s t) : Stage t todo := by
  have calm : Calm s → Calm t := fun hc => by
    refine ⟨?_, ?_⟩
    · rw [hr.phase]
      exact hr.quiet _ (by simp) hc.quiet
    · rw [hr.phase, hr.table]
      exact hr.holds _ _ hc.holds fun _ h => h
  cases h with
  | idle hc => exact .idle (calm hc)
  | first hc ht => exact .first (calm hc) (by rw [hr.table, ht])
  | record hc ht hne htail => exact .record (calm hc) (by rw [hr.table, ht]) hne htail
  | replace hc ht hne hslot htail =>
    exact .replace (calm hc) (by rw [hr.table, ht]) hne (by rw [hr.retireSlot, hr.phase, hslot]) htail
  | flip old hother hsame hne hslot htail =>
    refine .flip old ?_ ?_ (by rwa [hr.table]) (by rw [hr.retireSlot, hr.phase, hslot]) (by rwa [hr.table])
    · rw [hr.phase, hr.table]
      exact hr.holds _ _ hother fun _ h => h
    · rw [hr.phase, hr.table]
      exact hr.holds _ _ hsame fun _ h => .inr h
  | rollback hsame hother ht hne =>
    refine .rollback ?_ ?_ (by rw [hr.table, ht]) hne
    · rw [hr.phase, hr.table]
      exact hr.holds _ _ hsame fun _ h => h
    · rw [hr.phase, hr.table]
      exact hr.holds _ _ hother fun _ h => .inr h
  | putBack hsame hother ht hne hslot =>
    refine .putBack ?_ ?_ (by rw [hr.table, ht]) hne (by rw [hr.retireSlot, hr.phase, hslot])
    · rw [hr.phase, hr.table]
      exact hr.holds _ _ hsame fun _ h => h
    · rw [hr.phase, hr.table]
      exact hr.holds _ _ hother fun _ h => .inr h
  | drain hsame hother hne hslot =>
    refine .drain ?_ ?_ (by rwa [hr.table]) (by rw [hr.retireSlot, hr.phase, hslot])
    · rw [hr.phase, hr.table]
      exact hr.holds _ _ hsame fun _ h => h
    · rw [hr.phase, hr.table]
      exact hr.holds _ _ hother fun _ h => .inr h
  | free hc hne => exact .free (calm hc) (by rwa [hr.table])

/-- In every stage a held table is the current one, or one that the operation still names. -/
theorem Stage.held {slot : Bool} {tbl : Nat} (h : Stage s todo) (hh : .holding slot (some tbl) ∈ s.readers) :
    s.table = some tbl ∨ ∃ i ∈ todo, tbl ∈ i.tables := by
  have split : ∀ P : Nat → Prop, Holds s s.gate.phase P → Holds s (!s.gate.phase) P → P tbl := by
    intro P hsame hother
    by_cases heq : slot = s.gate.phase
    · exact hsame tbl (heq ▸ hh)
    · exact hother tbl (by rwa [← Bool.eq_not_of_ne heq])
  have calm : Calm s → s.table = some tbl := fun hc => split (fun t => s.table = some t) hc.holds hc.quiet.holds
  cases h with
  | idle hc => exact .inl (calm hc)
  | first hc => exact .inl (calm hc)
  | record hc => exact .inl (calm hc)
  | replace hc => exact .inl (calm hc)
  | @flip old rest hother hsame _ _ htail =>
    refine (split (fun t => t = old ∨ s.table = some t) hsame fun t ht => .inr (hother t ht)).elim ?_ .inl
    rintro rfl
    right
    rcases htail with rfl | ⟨d, -, rfl⟩ <;> simp [Instr.tables]
  | @rollback old d hsame hother =>
    refine (split (fun t => t = old ∨ s.table = some t) (fun t ht => .inr (hsame t ht)) hother).elim ?_ .inl
    rintro rfl
    exact .inr (by simp [Instr.tables])
  | @putBack old d hsame hother =>
    refine (split (fun t => t = old ∨ s.table = some t) (fun t ht => .inr (hsame t ht)) hother).elim ?_ .inl
    rintro rfl
    exact .inr (by simp [Instr.tables])
  | @drain old hsame hother =>
    refine (split (fun t => t = old ∨ s.table = some t) (fun t ht => .inr (hsame t ht)) hother).elim ?_ .inl
    rintro rfl
    exact .inr (by simp [Instr.tables])
  | free hc => exact .inl (calm hc)

theorem Inv.start (k : Nat) : Inv (State.start k) where
  counts := by
    intro slot
    simp [State.start, Gate.init, Gate.readers, List.countP_replicate, Reader.In]
  stage := by
    refine .idle ⟨?_, ?_⟩
    · intro r hr
      obtain ⟨-, rfl⟩ := List.mem_replicate.mp hr
      rfl
    · intro t ht
      obtain ⟨-, h⟩ := List.mem_replicate.mp ht
      cases h
  used := by simp [State.start]
  fresh := fun _ _ => rfl

theorem Inv.read {r : Reader} (h : Inv s) (hi : s.readers[i]? = some r) :
    Inv { s with readers := s.readers.set i (s.advance r).1, gate := (s.advance r).2 } where
  counts := h.counts.read hi
  stage := h.stage.reads (Reads.of_read hi)
  used := h.used
  fresh := h.fresh

/-- An operation begins with the probes calm. -/
theorem Inv.op (h : Inv s) (htodo : s.todo = []) (hp : o.program s = some todo) :
    Inv { s with todo := todo, next := s.next + 1 } := by
  have hstage := h.stage
  rw [htodo] at hstage
  cases hstage with
  | idle hc =>
    have hfresh : s.freed s.next = false := h.fresh _ (Nat.le_refl _)
    have hcur : ∀ old, s.table = some old → old < s.next ∧ s.freed old = false := fun old ho => h.used old (.inl ho)
    have hne : ∀ old, s.table = some old → some s.next ≠ some old := by
      intro old ho heq
      cases heq
      exact Nat.lt_irrefl _ (hcur _ ho).1
    -- A program names the current table and the next free one.
    have use : ∀ todo, (∀ i ∈ todo, ∀ t ∈ i.tables, t = s.next ∨ s.table = some t) → Stage s todo →
        Inv { s with todo := todo, next := s.next + 1 } := by
      intro todo hmem hst
      have hused : ∀ t, (t = s.next ∨ s.table = some t) → t < s.next + 1 ∧ s.freed t = false := by
        rintro t (rfl | ht)
        · exact ⟨Nat.lt_succ_self _, hfresh⟩
        · exact ⟨Nat.lt_succ_of_lt (hcur t ht).1, (hcur t ht).2⟩
      refine ⟨h.counts, hst.reads ⟨rfl, rfl, rfl, fun _ _ hq => hq, fun _ _ hh _ => hh⟩, ?_,
        fun t ht => h.fresh t (Nat.le_of_succ_le ht)⟩
      rintro t (ht | ⟨i, hi, ht⟩)
      · exact hused t (.inr ht)
      · exact hused t (hmem i hi t ht)
    -- Three of the operations replace the table and wait for the probes of the old one.
    have replace : ∀ old new, s.table = some old → (new = some s.next ∨ new = none) →
        Inv { s with todo := retire old new, next := s.next + 1 } := by
      rintro old new ho hnew
      refine use _ ?_ (.record hc ho ?_ (.inl rfl))
      · rcases hnew with rfl | rfl <;> simp [retire, Instr.tables, ho]
      · rcases hnew with rfl | rfl
        · exact hne old ho
        · nofun
    rcases Option.eq_none_or_eq_some s.table with ht | ⟨old, ht⟩
    · cases o with
      | rebuild =>
        simp only [Op.program, ht, Option.elim_none, Option.some.injEq] at hp
        subst hp
        exact use _ (by simp [Instr.tables]) (.first hc ht)
      | reclaim keeps =>
        simp only [Op.program, ht, Option.elim_none, Option.some.injEq] at hp
        subst hp
        exact use _ (by simp [Instr.tables]) (.first hc ht)
      | prune | pruneRollback =>
        simp only [Op.program, ht, Option.map_none, reduceCtorEq] at hp
    · cases o with
      | rebuild =>
        simp only [Op.program, ht, Option.elim_some, Option.some.injEq] at hp
        subst hp
        exact replace old _ ht (.inl rfl)
      | prune =>
        simp only [Op.program, ht, Option.map_some, Option.some.injEq] at hp
        subst hp
        exact replace old _ ht (.inl rfl)
      | reclaim keeps =>
        simp only [Op.program, ht, Option.elim_some, Option.some.injEq] at hp
        subst hp
        refine replace old _ ht ?_
        cases keeps with
        | true => exact .inl rfl
        | false => exact .inr rfl
      | pruneRollback =>
        simp only [Op.program, ht, Option.map_some, Option.some.injEq] at hp
        subst hp
        refine use _ ?_ (.record hc ht (hne old ht) (.inr ⟨_, rfl, rfl⟩))
        simp [Instr.tables, ht]

/-- A step of the writer. The store of a rollback needs the probes of the replacement in the recorded slot. -/
theorem Inv.write (h : Inv s) {instr : Instr} {rest : List Instr} (htodo : s.todo = instr :: rest)
    (hok : Awaited s .write) (hs : s.exec instr = some t) : Inv { t with todo := rest } := by
  have hstage := h.stage
  have hused := h.used
  rw [htodo] at hstage hused
  have hnamed : ∀ x, x ∈ instr.tables → x < s.next ∧ s.freed x = false := fun x hx =>
    hused x (.inr ⟨instr, List.mem_cons_self, hx⟩)
  -- What the rest of the program names has not been freed.
  have hrest : ∀ x, (s.table = some x ∨ ∃ j ∈ rest, x ∈ j.tables) → x < s.next ∧ s.freed x = false := by
    rintro x (hx | ⟨j, hj, hx⟩)
    · exact hused x (.inl hx)
    · exact hused x (.inr ⟨j, List.mem_cons_of_mem _ hj, hx⟩)
  cases hstage with
  | first hc ht =>
    cases hs
    refine ⟨h.counts, .idle ⟨hc.quiet, fun x hx => ?_⟩, ?_, h.fresh⟩
    · have := hc.holds x hx
      rw [ht] at this
      cases this
    · rintro x (hx | ⟨j, hj, -⟩)
      · exact hnamed x (by simpa [Instr.tables] using hx)
      · cases hj
  | @record old new tail hc ht hne htail =>
    cases hs
    exact ⟨h.counts, .replace ⟨hc.quiet, hc.holds⟩ ht hne (by simp) htail, hrest, h.fresh⟩
  -- From here on the current slot may hold the old table or the new one.
  | @replace old new tail hc ht hne hslot htail =>
    cases hs
    refine ⟨h.counts, .flip old hc.quiet.holds (fun x hx => ?_) hne hslot htail, ?_, h.fresh⟩
    · have := hc.holds x hx
      rw [ht] at this
      exact .inl (Option.some.inj this).symm
    · rintro x (hx | hx)
      · exact hnamed x (by simpa [Instr.tables] using hx)
      · exact hrest x (.inr hx)
  | @flip old tail hother hsame hne hslot htail =>
    cases hs
    have hsame' : Holds s (!!s.gate.phase) fun t => t = old ∨ s.table = some t := by rwa [Bool.not_not]
    refine ⟨h.counts, ?_, hrest, h.fresh⟩
    rcases htail with rfl | ⟨d, hd, rfl⟩
    · exact .drain hother hsame' hne (by simpa using hslot)
    · exact .rollback hother hsame' hd fun heq => hne (heq ▸ hd)
  | @rollback old d hsame hother ht hne =>
    cases hs
    exact ⟨h.counts, .putBack hsame hother ht hne (by simp), hrest, h.fresh⟩
  | @putBack old d hsame hother ht hne hslot =>
    cases hs
    simp only [Awaited, htodo, AwaitedBy] at hok
    refine ⟨h.counts, .flip d (fun x hx => ?_) (fun x hx => ?_) ?_ hslot (.inl rfl), ?_, h.fresh⟩
    · -- A probe of the slot that is not awaited holds the original, or the replacement against `hok`.
      rcases hother x hx with rfl | hcur
      · rfl
      · have := hok _ (by rw [← ht, hcur]; exact hx)
        rw [hslot] at this
        exact absurd this (by simp)
    · have := hsame x hx
      rw [ht] at this
      exact .inl (Option.some.inj this).symm
    · intro heq
      exact hne (Option.some.inj heq).symm
    · rintro x (hx | hx)
      · exact hnamed x (by simp [Instr.tables, Option.some.inj hx])
      · exact hrest x (.inr hx)
  -- The count of the recorded slot is zero, so that no probe holds the old table.
  | @drain old hsame hother hne hslot =>
    simp only [State.exec] at hs
    split at hs
    · rename_i hzero
      cases hs
      rw [hslot] at hzero
      exact ⟨h.counts, .free ⟨h.counts.quiet hzero, hsame⟩ hne, hrest, h.fresh⟩
    · cases hs
  | @free old hc hne =>
    cases hs
    refine ⟨h.counts, .idle ⟨hc.quiet, hc.holds⟩, ?_, fun x hx => ?_⟩
    · rintro x (hx | ⟨j, hj, -⟩)
      · have hxo : x ≠ old := fun heq => hne (heq ▸ hx)
        exact ⟨(hused x (.inl hx)).1, by simpa [Function.update_of_ne hxo] using (hused x (.inl hx)).2⟩
      · cases hj
    · have hle : s.next ≤ x := hx
      have hxo : x ≠ old := by
        have := (hnamed old (by simp [Instr.tables])).1
        omega
      simpa [Function.update_of_ne hxo] using h.fresh x hx

theorem Inv.step {e : Event} (h : Inv s) (hok : Awaited s e) (hs : step s e = some t) : Inv t := by
  cases e with
  | op op =>
    simp only [ReaderGate.step] at hs
    split at hs
    · rename_i htodo
      obtain ⟨todo, hp, rfl⟩ := Option.map_eq_some_iff.mp hs
      exact h.op htodo hp
    · cases hs
  | write =>
    simp only [ReaderGate.step] at hs
    split at hs
    · cases hs
    · rename_i instr rest htodo
      obtain ⟨u, hu, rfl⟩ := Option.map_eq_some_iff.mp hs
      exact h.write htodo hok hu
  | read i =>
    simp only [ReaderGate.step] at hs
    split at hs
    · cases hs
    · rename_i r hr
      cases hs
      exact h.read hr

end Inv

/-- In a run of any number of probes and any operations, whose rollbacks all find the probes of the
    replacement in the slot they wait for, no table is freed while a probe holds it. -/
theorem held_not_freed (k : Nat) (s : State) (h : Machine.Reach step Awaited (State.start k) s) (slot : Bool) (tbl : Nat)
    (hheld : .holding slot (some tbl) ∈ s.readers) : s.freed tbl = false := by
  have hinv : Inv s := h.inv (Inv.start k) fun _ hi hok hs => hi.step hok hs
  exact (hinv.used tbl (hinv.stage.held hheld)).2

/-- A probe that has its table before a prune begins, and is still there when the prune is rolled back. -/
def probeBefore : List Event :=
  [.op .rebuild, .write, .read 0, .read 0, .read 0, .read 0, .op .pruneRollback, .write, .write, .write, .write,
    .write, .write, .write, .write]

theorem held_not_freed_before : ∃ s, Machine.run (Machine.guarded step Awaited) (State.start 1) probeBefore = some s ∧
    .holding false (some 0) ∈ s.readers ∧ s.freed 0 = false := by
  have hrun : (Machine.run (Machine.guarded step Awaited) (State.start 1) probeBefore).map State.readers =
      some [.holding false (some 0)] := by decide +kernel
  obtain ⟨s, hs, hreaders⟩ := Option.map_eq_some_iff.mp hrun
  have hheld : Reader.holding false (some 0) ∈ s.readers := by rw [hreaders]; exact List.mem_cons_self
  exact ⟨s, hs, hheld, held_not_freed 1 s (.of_guarded hs) false 0 hheld⟩

/-- A probe that was admitted before the prune and loads the table between the prune's store and its flip. -/
def probeBetween : List Event :=
  [.op .rebuild, .write, .read 0, .read 0, .read 0, .op .pruneRollback, .write, .write, .read 0, .write, .write,
    .write, .write, .write, .write]

/-- The rollback waits for the slot of the flipped phase, and frees the replacement under that probe. -/
theorem rollback_frees_held : ∃ s, Machine.Reach step Machine.always (State.start 1) s ∧
    .holding false (some 1) ∈ s.readers ∧ s.freed 1 = true := by
  have hrun : (Machine.run step (State.start 1) probeBetween).map (fun s => (s.readers, s.freed 1)) =
      some ([.holding false (some 1)], true) := by decide +kernel
  obtain ⟨s, hs, heq⟩ := Option.map_eq_some_iff.mp hrun
  obtain ⟨hreaders, hfreed⟩ := Prod.mk.inj heq
  exact ⟨s, .of_run hs, by rw [hreaders]; exact List.mem_cons_self, hfreed⟩

end Cachetag.ReaderGate
