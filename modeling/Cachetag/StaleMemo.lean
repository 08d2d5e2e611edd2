import Cachetag.Lib.Machine
import Cachetag.Purgemap.Refine

/-! The memo that a request keeps of its last `stale()` call, beside purges, sweeps, expiry and other requests.

The memo knows its object by the address alone and holds no reference. It outlives a restart, which may free the
object; the next one may be allocated at the same address.

Every object is fetched. Those that Fellow loads from storage are not among the events. -/

namespace Cachetag.StaleMemo
open Purgemap

/-- An objcore, from its allocation on. -/
structure Obj where
  addr : Nat
  /-- `OC_F_BUSY` -/
  busy : Bool
  /-- `OC_F_DYING` -/
  dying : Bool
  /-- its last reference is gone -/
  freed : Bool
  /-- `publication_seq` of its pending registration -/
  reg : Option Nat
  folds : List Nat
deriving DecidableEq, Repr

/-- `struct cachetag_stale_memo`. No code reads `obj`, the object that the memo was written for. -/
structure Memo where
  oc : Nat
  seqSeen : Nat
  result : Bool
  obj : Nat
deriving DecidableEq, Repr

/-- What the `stale()` call of the request does next. -/
inductive Pc where
  /-- there is no call -/
  | idle
  /-- the look at the memo's address and at `OC_F_DYING` -/
  | memo
  /-- the comparison with `memo_seq` -/
  | compare
  /-- the read of `memo_seq` ahead of the full path -/
  | capture
  /-- `cachetag_stale` -/
  | evaluate (seqSeen : Nat)
  /-- `HSH_Kill` -/
  | kill (seqSeen : Nat)
  /-- the write of the memo -/
  | store (seqSeen : Nat) (result : Bool)
deriving DecidableEq, Repr

/-- A call that the memo answered. -/
structure Answer where
  obj : Nat
  result : Bool
  /-- when the call began, a hard purge of one of the object's tags behind its registration had returned -1 -/
  owed : Bool
  /-- a full evaluation of this request had found the object dying or hard-purged -/
  found : Bool
deriving DecidableEq, Repr

/-- The purge that holds `purge_mtx`, with the folds that it has still to publish. -/
structure Writer where
  mode : PurgeMode
  folds : List Nat
deriving DecidableEq, Repr

structure State where
  objs : List Obj
  /-- `pm->seq` -/
  seq : Nat
  /-- `pm->memo_seq` -/
  memoSeq : Nat
  /-- what the purges have published -/
  log : List Purge
  writer : Option Writer
  /-- the sequences of the purges that have returned -1 -/
  returned : List Nat
  /-- `req->objcore` -/
  held : Option Nat
  memo : Option Memo
  pc : Pc
  owed : Bool
  /-- the objects for which a full evaluation of this request has returned 1 -/
  found : List Nat
  answers : List Answer

def State.init : State := ⟨[], 0, 0, [], none, [], none, none, .idle, false, [], []⟩

inductive Event where
  /-- an objcore is allocated -/
  | create (addr : Nat)
  /-- `cachetag_add_snapshot` -/
  | add (i fold : Nat)
  /-- the fetch is retried -/
  | retry (i : Nat)
  | unbusy (i : Nat)
  /-- `HSH_Kill` by anybody else -/
  | kill (i : Nat)
  /-- the last reference goes -/
  | free (i : Nat)
  /-- a purge that is accepted stores `pm->seq` -/
  | purge (mode : PurgeMode) (folds : List Nat)
  /-- it publishes its next entry -/
  | upsert
  /-- it stores `memo_seq` and gives up `purge_mtx` -/
  | publish
  /-- it returns -1 -/
  | purgeReturn (seq : Nat)
  /-- the request gets an object -/
  | take (i : Nat)
  /-- the request restarts -/
  | restart
  /-- it calls `stale()` -/
  | stale
  /-- a step of the call that has no outcome -/
  | advance
  /-- what `cachetag_stale` returns -/
  | evaluate (result : Bool)
  /-- the end of the call, with the allocation from the workspace -/
  | store (allocated : Bool)
deriving DecidableEq, Repr

/-- A hard purge of one of the object's tags, behind its registration. -/
def Obj.Matches (o : Obj) (p : Purge) : Prop := p.mode = .hard ∧ p.fold ∈ o.folds ∧ ∃ r ∈ o.reg, r < p.seq

instance (o : Obj) (p : Purge) : Decidable (o.Matches p) := inferInstanceAs (Decidable (_ ∧ _ ∧ ∃ _ ∈ _, _))

namespace State

def setObj (s : State) (i : Nat) (o : Obj) : State := { s with objs := s.objs.set i o }

/-- A matching hard purge has returned -1. -/
def Owed (s : State) (o : Obj) : Prop := ∃ p ∈ s.log, o.Matches p ∧ p.seq ∈ s.returned

instance (s : State) (o : Obj) : Decidable (s.Owed o) := inferInstanceAs (Decidable (∃ _ ∈ _, _))

/-- The next step of `vmod_namespace_stale` on the object `i`. -/
def advance (s : State) (i : Nat) (o : Obj) : Option State :=
  match s.pc with
  | .memo =>
    match s.memo with
    | some m => some { s with pc := if m.oc = o.addr ∧ o.dying = false then .compare else .capture }
    | none => some { s with pc := .capture }
  | .compare =>
    match s.memo with
    | some m =>
      if m.seqSeen = s.memoSeq then
        some { s with pc := .idle, answers := s.answers ++ [⟨i, m.result, s.owed, decide (i ∈ s.found)⟩] }
      else some { s with pc := .capture }
    | none => none
  | .capture => some { s with pc := .evaluate s.memoSeq }
  | .kill n => some { s.setObj i { o with dying := true } with pc := .store n true }
  | _ => none

/-- What `cachetag_stale` has returned. -/
def evaluated (s : State) (i : Nat) (result : Bool) : Option State :=
  match s.pc with
  | .evaluate n => some (if result then { s with pc := .kill n, found := i :: s.found } else { s with pc := .store n false })
  | _ => none

/-- The end of the call. The workspace may have no room for a first memo. -/
def stored (s : State) (i : Nat) (o : Obj) (allocated : Bool) : Option State :=
  match s.pc with
  | .store n result =>
    some { s with
      pc := .idle
      memo := if s.memo.isNone ∧ allocated = false then none else some ⟨o.addr, n, result, i⟩ }
  | _ => none

/-- A step of the call on the object that the request holds. -/
def onHeld (s : State) (f : Nat → Obj → Option State) : Option State :=
  match s.held with
  | none => none
  | some i => s.objs[i]?.bind (f i)

def step (s : State) : Event → Option State
  | .create addr =>
    if ∃ o ∈ s.objs, o.addr = addr ∧ o.freed = false then none
    else some { s with objs := s.objs ++ [⟨addr, true, false, false, none, []⟩] }
  | .add i fold => s.objs[i]?.bind fun o =>
    if o.busy ∧ o.freed = false then
      some (s.setObj i { o with
        reg := some (o.reg.getD s.seq)
        folds := if fold ∈ o.folds then o.folds else o.folds ++ [fold] })
    else none
  | .retry i => s.objs[i]?.bind fun o =>
    if o.busy ∧ o.freed = false then some (s.setObj i { o with reg := none, folds := [] }) else none
  | .unbusy i => s.objs[i]?.bind fun o =>
    if o.busy ∧ o.freed = false then some (s.setObj i { o with busy := false }) else none
  | .kill i => s.objs[i]?.bind fun o =>
    if o.freed = false then some (s.setObj i { o with dying := true }) else none
  | .free i => s.objs[i]?.bind fun o =>
    if o.freed = false ∧ s.held ≠ some i then some (s.setObj i { o with freed := true }) else none
  | .purge mode folds =>
    if s.writer = none ∧ s.seq ≠ u64Max then some { s with seq := s.seq + 1, writer := some ⟨mode, folds⟩ } else none
  | .upsert =>
    match s.writer with
    | some ⟨mode, fold :: folds⟩ =>
      some { s with log := s.log ++ [⟨s.seq, fold, mode⟩], writer := some ⟨mode, folds⟩ }
    | _ => none
  | .publish =>
    match s.writer with
    | some ⟨_, []⟩ => some { s with memoSeq := s.seq, writer := none }
    | _ => none
  | .purgeReturn seq => if seq ≤ s.memoSeq then some { s with returned := seq :: s.returned } else none
  | .take i => s.objs[i]?.bind fun o =>
    if o.busy = false ∧ o.freed = false ∧ s.held = none ∧ s.pc = .idle then some { s with held := some i } else none
  | .restart => if s.pc = .idle then some { s with held := none } else none
  | .stale =>
    if s.pc = .idle then s.onHeld fun _ o => some { s with pc := .memo, owed := decide (s.Owed o) } else none
  | .advance => s.onHeld s.advance
  | .evaluate result => s.onHeld fun i _ => s.evaluated i result
  | .store allocated => s.onHeld fun i o => s.stored i o allocated

/-- The object of the request owes the answer 1 by a hard purge up to `n`. -/
def Due (s : State) (n : Nat) : Prop := ∃ i ∈ s.held, ∃ o ∈ s.objs[i]?, ∃ p ∈ s.log, o.Matches p ∧ p.seq ≤ n

instance (s : State) (n : Nat) : Decidable (s.Due n) :=
  inferInstanceAs (Decidable (∃ _ ∈ _, ∃ _ ∈ _, ∃ _ ∈ _, _))

/-- The `memo_seq` that was read before the full evaluation under way. -/
def captured (s : State) : Option Nat :=
  match s.pc with
  | .evaluate n => some n
  | _ => none

/-- A full evaluation returns 1 where a matching hard purge is not behind the `memo_seq` read before it. -/
def Evaluates (s : State) : Event → Prop
  | .evaluate result => ∀ n ∈ s.captured, s.Due n → result = true
  | _ => True

instance (s : State) (e : Event) : Decidable (s.Evaluates e) := by
  cases e <;> unfold Evaluates <;> infer_instance

end State

/-! ### The invariant -/

/-- A memo with the answer 0 up to `n` may answer for the object: no matching hard purge is up to `n`, and if its tags
    are still to come, none will be. -/
structure Clear (log : List Purge) (n : Nat) (o : Obj) : Prop where
  log : ∀ p ∈ log, o.Matches p → n < p.seq
  busy : o.busy = true → ∀ r ∈ o.reg, n ≤ r

structure Inv (s : State) : Prop where
  seq : s.memoSeq ≤ s.seq
  writer : s.writer ≠ none → s.memoSeq < s.seq
  returned : ∀ n ∈ s.returned, n ≤ s.memoSeq
  held : ∀ i ∈ s.held, ∃ o, s.objs[i]? = some o ∧ o.busy = false ∧ o.freed = false
  /-- no two objects lie at one address -/
  apart : ∀ (i j : Nat) (o o' : Obj), s.objs[i]? = some o → s.objs[j]? = some o' → o.freed = false → o'.freed = false →
    o.addr = o'.addr → i = j
  seen : ∀ m ∈ s.memo, m.seqSeen ≤ s.memoSeq
  memo : ∀ m ∈ s.memo, m.result = false → ∀ o ∈ s.objs, o.freed = false → o.addr = m.oc → Clear s.log m.seqSeen o
  captured : ∀ n, s.pc = .evaluate n ∨ s.pc = .kill n ∨ (∃ r, s.pc = .store n r) → n ≤ s.memoSeq
  clear : ∀ n, s.pc = .store n false → ∀ i ∈ s.held, ∀ o, s.objs[i]? = some o → Clear s.log n o
  asked : s.pc = .compare → ∀ m ∈ s.memo, ∀ i ∈ s.held, ∀ o, s.objs[i]? = some o → m.oc = o.addr
  owed : s.pc ≠ .idle → s.owed = true → s.Due s.memoSeq
  answers : ∀ a ∈ s.answers, a.owed = true → a.result = true

variable {s t : State} {e : Event} {i n : Nat} {o o' : Obj} {p : Purge} {log : List Purge}

theorem Inv.init : Inv State.init where
  seq := Nat.le_refl _
  writer := by simp [State.init]
  returned := by simp [State.init]
  held := by simp [State.init]
  apart := by simp [State.init]
  seen := by simp [State.init]
  memo := by simp [State.init]
  captured := by simp [State.init]
  clear := by simp [State.init]
  asked := by simp [State.init]
  owed := by simp [State.init]
  answers := by simp [State.init]

theorem Clear.publish (h : Clear log n o) (hp : n < p.seq) : Clear (log ++ [p]) n o := by
  refine ⟨fun q hq hm => ?_, h.busy⟩
  rcases List.mem_append.mp hq with hq | hq
  · exact h.log q hq hm
  · rw [List.mem_singleton.mp hq]
    exact hp

/-- How an object may change. -/
structure Becomes (s : State) (o o' : Obj) : Prop where
  addr : o'.addr = o.addr
  freed : o'.freed = false → o.freed = false
  dying : o.dying = true → o'.dying = true
  idle : o.busy = false → o'.busy = false ∧ o'.reg = o.reg ∧ o'.folds = o.folds
  clear : ∀ n ≤ s.memoSeq, Clear s.log n o → Clear s.log n o'

theorem Obj.Matches.congr (h : o.Matches p) (hreg : o'.reg = o.reg) (hfolds : o'.folds = o.folds) : o'.Matches p := by
  unfold Obj.Matches at *
  rwa [hreg, hfolds]

theorem Clear.congr (h : Clear log n o) (hbusy : o'.busy = true → o.busy = true) (hreg : o'.reg = o.reg)
    (hfolds : o'.folds = o.folds) : Clear log n o' :=
  ⟨fun p hp hm => h.log p hp (hm.congr hreg.symm hfolds.symm), fun hb r hr => h.busy (hbusy hb) r (hreg ▸ hr)⟩

theorem getElem?_setObj {j : Nat} (hj : (s.setObj i o').objs[j]? = some o) :
    j = i ∧ o = o' ∨ j ≠ i ∧ s.objs[j]? = some o := by
  replace hj : (s.objs.set i o')[j]? = some o := hj
  rw [List.getElem?_set] at hj
  split at hj
  · split at hj
    · cases hj
      exact .inl ⟨Eq.symm (by assumption), rfl⟩
    · cases hj
  · exact .inr ⟨fun heq => by simp_all, hj⟩

/-- An object changes. -/
theorem Inv.setObj (h : Inv s) (hi : s.objs[i]? = some o) (hb : Becomes s o o')
    (hheld : s.held = some i → o'.freed = false) : Inv (s.setObj i o') where
  seq := h.seq
  writer := h.writer
  returned := h.returned
  held j hj := by
    obtain ⟨x, hx, hbusy, hfreed⟩ := h.held j hj
    by_cases hji : j = i
    · subst hji
      -- The object that the task holds is not busy: its tags and its registration stay.
      cases hi.symm.trans hx
      exact ⟨o', List.getElem?_set_self (List.getElem?_eq_some_iff.mp hi).1, (hb.idle hbusy).1, hheld hj⟩
    · exact ⟨x, (List.getElem?_set_ne (Ne.symm hji)).trans hx, hbusy, hfreed⟩
  apart j k x y hx hy hxf hyf haddr := by
    rcases getElem?_setObj hx with ⟨rfl, rfl⟩ | ⟨-, hx'⟩ <;> rcases getElem?_setObj hy with ⟨rfl, rfl⟩ | ⟨-, hy'⟩
    · rfl
    · exact h.apart _ _ _ _ hi hy' (hb.freed hxf) hyf (hb.addr.symm.trans haddr)
    · exact h.apart _ _ _ _ hx' hi hxf (hb.freed hyf) (haddr.trans hb.addr)
    · exact h.apart _ _ _ _ hx' hy' hxf hyf haddr
  seen := h.seen
  memo m hm hr x hx hf ha := by
    rcases List.mem_or_eq_of_mem_set hx with hx | rfl
    · exact h.memo m hm hr x hx hf ha
    · exact hb.clear _ (h.seen m hm) (h.memo m hm hr o (List.mem_of_getElem? hi) (hb.freed hf) (hb.addr.symm.trans ha))
  captured := h.captured
  clear n hn j hj x hx := by
    rcases getElem?_setObj hx with ⟨rfl, rfl⟩ | ⟨-, hx⟩
    · exact hb.clear n (h.captured n (.inr (.inr ⟨_, hn⟩))) (h.clear n hn _ hj o hi)
    · exact h.clear n hn j hj x hx
  asked hpc m hm j hj x hx := by
    rcases getElem?_setObj hx with ⟨rfl, rfl⟩ | ⟨-, hx⟩
    · exact (h.asked hpc m hm _ hj o hi).trans hb.addr.symm
    · exact h.asked hpc m hm j hj x hx
  owed hpc ho := by
    obtain ⟨j, hj, x, hx, q, hq, hm, hle⟩ := h.owed hpc ho
    by_cases hji : j = i
    · subst hji
      obtain ⟨y, hy, hbusy, -⟩ := h.held j hj
      cases hi.symm.trans hx
      cases hi.symm.trans hy
      obtain ⟨-, hreg, hfolds⟩ := hb.idle hbusy
      exact ⟨j, hj, o', List.getElem?_set_self (List.getElem?_eq_some_iff.mp hi).1, q, hq, hm.congr hreg hfolds, hle⟩
    · exact ⟨j, hj, x, (List.getElem?_set_ne (Ne.symm hji)).trans hx, q, hq, hm, hle⟩
  answers := h.answers

/-! ### Objects -/

theorem Becomes.of_same (haddr : o'.addr = o.addr) (hfreed : o'.freed = false → o.freed = false)
    (hdying : o.dying = true → o'.dying = true) (hbusy : o'.busy = true → o.busy = true) (hreg : o'.reg = o.reg)
    (hfolds : o'.folds = o.folds) : Becomes s o o' where
  addr := haddr
  freed := hfreed
  dying := hdying
  idle hidle := ⟨by
    cases hb : o'.busy with
    | false => rfl
    | true => exact absurd (hidle.symm.trans (hbusy hb)) (by simp), hreg, hfolds⟩
  clear _ _ hc := hc.congr hbusy hreg hfolds

/-- A tag joins a registration, which is not behind the sequence that the tokens have come to. -/
theorem becomes_add (hseq : s.memoSeq ≤ s.seq) (hbusy : o.busy = true) (folds : List Nat) :
    Becomes s o { o with reg := some (o.reg.getD s.seq), folds } where
  addr := rfl
  freed := id
  dying := id
  idle hidle := absurd (hidle.symm.trans hbusy) (by simp)
  clear n hn hc := by
    have hreg : n ≤ o.reg.getD s.seq := by
      cases hr : o.reg with
      | none => exact hn.trans hseq
      | some r => exact hc.busy hbusy r hr
    refine ⟨fun p _ hm => ?_, fun _ r hr => ?_⟩
    · obtain ⟨-, -, r, hr, hlt⟩ := hm
      cases hr
      exact Nat.lt_of_le_of_lt hreg hlt
    · cases hr
      exact hreg

theorem becomes_retry (hbusy : o.busy = true) : Becomes s o { o with reg := none, folds := [] } where
  addr := rfl
  freed := id
  dying := id
  idle hidle := absurd (hidle.symm.trans hbusy) (by simp)
  clear n _ _ := by
    refine ⟨fun p _ hm => ?_, fun _ r hr => by cases hr⟩
    obtain ⟨-, -, r, hr, -⟩ := hm
    cases hr

theorem Inv.create (h : Inv s) {addr : Nat} (hfree : ¬∃ o ∈ s.objs, o.addr = addr ∧ o.freed = false) :
    Inv { s with objs := s.objs ++ [⟨addr, true, false, false, none, []⟩] } := by
  have old : ∀ {j : Nat} {x : Obj}, s.objs[j]? = some x →
      (s.objs ++ [⟨addr, true, false, false, none, []⟩])[j]? = some x := by
    intro j x hx
    rw [List.getElem?_append_left (List.getElem?_eq_some_iff.mp hx).1]
    exact hx
  -- An object of the new list is one of before or the new one, whose address no object has that is not freed.
  have cases' : ∀ (j : Nat) (x : Obj), (s.objs ++ [⟨addr, true, false, false, none, []⟩])[j]? = some x →
      s.objs[j]? = some x ∨ j = s.objs.length ∧ x.addr = addr := by
    intro j x hx
    rcases Nat.lt_trichotomy j s.objs.length with hlt | rfl | hgt
    · rw [List.getElem?_append_left hlt] at hx
      exact .inl hx
    · rw [List.getElem?_append_right (Nat.le_refl _), Nat.sub_self] at hx
      cases hx
      exact .inr ⟨rfl, rfl⟩
    · rw [List.getElem?_eq_none (by rw [List.length_append, List.length_singleton]; omega)] at hx
      cases hx
  have heldOld : ∀ {i : Nat} {x : Obj}, s.held = some i →
      (s.objs ++ [⟨addr, true, false, false, none, []⟩])[i]? = some x → s.objs[i]? = some x := by
    intro i x hi hx
    obtain ⟨y, hy, -⟩ := h.held i hi
    rw [old hy] at hx
    exact hy.trans hx
  refine { h with held := ?_, apart := ?_, memo := ?_, clear := ?_, asked := ?_, owed := ?_ }
  · intro i hi
    obtain ⟨x, hx, hrest⟩ := h.held i hi
    exact ⟨x, old hx, hrest⟩
  · intro j k x y hx hy hxf hyf haddr
    rcases cases' j x hx with hx | ⟨rfl, hxa⟩ <;> rcases cases' k y hy with hy | ⟨rfl, hya⟩
    · exact h.apart j k x y hx hy hxf hyf haddr
    · exact absurd ⟨x, List.mem_of_getElem? hx, haddr.trans hya, hxf⟩ hfree
    · exact absurd ⟨y, List.mem_of_getElem? hy, haddr.symm.trans hxa, hyf⟩ hfree
    · rfl
  · intro m hm hr x hx hf ha
    rcases List.mem_append.mp hx with hx | hx
    · exact h.memo m hm hr x hx hf ha
    -- The new object has no tag, so that no purge matches it.
    · rw [List.mem_singleton.mp hx]
      refine ⟨fun p _ hmatch => ?_, fun _ r hr => by cases hr⟩
      obtain ⟨-, -, r, hr, -⟩ := hmatch
      cases hr
  · exact fun n hn i hi x hx => h.clear n hn i hi x (heldOld hi hx)
  · exact fun hpc m hm i hi x hx => h.asked hpc m hm i hi x (heldOld hi hx)
  · intro hpc ho
    obtain ⟨j, hj, x, hx, hrest⟩ := h.owed hpc ho
    exact ⟨j, hj, x, old hx, hrest⟩

/-! ### Purges -/

theorem Inv.purge (h : Inv s) (w : Writer) : Inv { s with seq := s.seq + 1, writer := some w } :=
  { h with
    seq := Nat.le_succ_of_le h.seq
    writer := fun _ => Nat.lt_succ_of_le h.seq }

/-- A purge that is under way publishes behind every answer. -/
theorem Inv.upsert (h : Inv s) (hw : s.writer ≠ none) (mode : PurgeMode) (fold : Nat) (w : Writer) :
    Inv { s with log := s.log ++ [⟨s.seq, fold, mode⟩], writer := some w } := by
  have hlt := h.writer hw
  refine { h with writer := fun _ => hlt, memo := ?_, clear := ?_, owed := ?_ }
  · intro m hm hr x hx hf ha
    exact (h.memo m hm hr x hx hf ha).publish (Nat.lt_of_le_of_lt (h.seen m hm) hlt)
  · intro n hn i hi x hx
    exact (h.clear n hn i hi x hx).publish (Nat.lt_of_le_of_lt (h.captured n (.inr (.inr ⟨_, hn⟩))) hlt)
  · intro hpc ho
    obtain ⟨j, hj, x, hx, q, hq, hrest⟩ := h.owed hpc ho
    exact ⟨j, hj, x, hx, q, List.mem_append_left _ hq, hrest⟩

theorem Inv.publish (h : Inv s) : Inv { s with memoSeq := s.seq, writer := none } := by
  refine { h with seq := Nat.le_refl _, writer := by simp, returned := ?_, seen := ?_, captured := ?_, owed := ?_ }
  · exact fun n hn => (h.returned n hn).trans h.seq
  · exact fun m hm => (h.seen m hm).trans h.seq
  · exact fun n hn => (h.captured n hn).trans h.seq
  · intro hpc ho
    obtain ⟨j, hj, x, hx, q, hq, hm, hle⟩ := h.owed hpc ho
    exact ⟨j, hj, x, hx, q, hq, hm, hle.trans h.seq⟩

theorem Inv.purgeReturn (h : Inv s) (hn : n ≤ s.memoSeq) : Inv { s with returned := n :: s.returned } := by
  refine { h with returned := fun k hk => ?_ }
  rcases List.mem_cons.mp hk with rfl | hk
  · exact hn
  · exact h.returned k hk

/-! ### The request -/

theorem Inv.take (h : Inv s) (hi : s.objs[i]? = some o) (hbusy : o.busy = false) (hfreed : o.freed = false)
    (hidle : s.pc = .idle) : Inv { s with held := some i } := by
  refine { h with held := ?_, clear := ?_, asked := ?_, owed := fun hpc => absurd hidle hpc }
  · rintro j ⟨⟩
    exact ⟨o, hi, hbusy, hfreed⟩
  · intro n hn
    exact absurd (hidle.symm.trans hn) (by simp)
  · intro hpc
    exact absurd (hidle.symm.trans hpc) (by simp)

theorem Inv.restart (h : Inv s) (hidle : s.pc = .idle) : Inv { s with held := none } :=
  { h with
    held := by simp
    clear := by simp
    asked := by simp
    owed := fun hpc => absurd hidle hpc }

/-- The call goes on, with the memo as it was. -/
theorem Inv.goes (h : Inv s) {pc : Pc} (hidle : s.pc ≠ .idle)
    (hcap : ∀ n, pc = .evaluate n ∨ pc = .kill n ∨ (∃ r, pc = .store n r) → n ≤ s.memoSeq)
    (hclear : ∀ n, pc = .store n false → ∀ i ∈ s.held, ∀ o, s.objs[i]? = some o → Clear s.log n o)
    (hasked : pc = .compare → ∀ m ∈ s.memo, ∀ i ∈ s.held, ∀ o, s.objs[i]? = some o → m.oc = o.addr)
    (found : List Nat) : Inv { s with pc, found } :=
  { h with
    captured := hcap
    clear := hclear
    asked := hasked
    owed := fun _ => h.owed hidle }

theorem Inv.stale (h : Inv s) (hheld : s.held = some i) (hi : s.objs[i]? = some o) :
    Inv { s with pc := .memo, owed := decide (s.Owed o) } := by
  refine { h with captured := by simp, clear := by simp, asked := by simp, owed := fun _ ho => ?_ }
  obtain ⟨q, hq, hm, hret⟩ := of_decide_eq_true ho
  exact ⟨i, hheld, o, hi, q, hq, hm, h.returned _ hret⟩

/-- The memo of the answer 0 does not answer where 1 is owed. -/
theorem Inv.answer (h : Inv s) (hheld : s.held = some i) (hi : s.objs[i]? = some o) (hpc : s.pc = .compare) {m : Memo}
    (hm : s.memo = some m) (hseq : m.seqSeen = s.memoSeq) (ho : s.owed = true) : m.result = true := by
  by_contra hr
  have haddr := h.asked hpc m hm i hheld o hi
  obtain ⟨j, hj, x, hx, q, hq, hmatch, hle⟩ := h.owed (by simp [hpc]) ho
  cases hheld.symm.trans hj
  cases hi.symm.trans hx
  obtain ⟨y, hy, -, hfreed⟩ := h.held i hheld
  cases hi.symm.trans hy
  have hlt := (h.memo m hm (by simpa using hr) o (List.mem_of_getElem? hi) hfreed haddr.symm).log q hq hmatch
  omega

theorem Inv.store (h : Inv s) (hheld : s.held = some i) (hi : s.objs[i]? = some o) {result : Bool}
    (hpc : s.pc = .store n result) (allocated : Bool) :
    Inv { s with
      pc := .idle
      memo := if s.memo.isNone ∧ allocated = false then none else some ⟨o.addr, n, result, i⟩ } := by
  have hn := h.captured n (.inr (.inr ⟨_, hpc⟩))
  have heq : ∀ m ∈ (if s.memo.isNone ∧ allocated = false then none else some (⟨o.addr, n, result, i⟩ : Memo)),
      m = ⟨o.addr, n, result, i⟩ := by
    intro m hm
    split at hm <;> cases hm
    rfl
  refine { h with seen := ?_, memo := ?_, captured := by simp, clear := by simp, asked := by simp, owed := by simp }
  · intro m hm
    rw [heq m hm]
    exact hn
  · intro m hm hr x hx hf ha
    rw [heq m hm] at hr ha ⊢
    obtain ⟨j, hj⟩ := List.mem_iff_getElem?.mp hx
    obtain ⟨y, hy, -, hfreed⟩ := h.held i hheld
    cases hi.symm.trans hy
    cases h.apart j i x o hj hi hf hfreed ha
    cases hi.symm.trans hj
    exact h.clear n (hpc.trans (congrArg _ hr)) _ hheld o hi

/-! ### Steps -/

theorem onHeld_cases {f : Nat → Obj → Option State} (hs : s.onHeld f = some t) :
    ∃ i o, s.held = some i ∧ s.objs[i]? = some o ∧ f i o = some t := by
  unfold State.onHeld at hs
  cases hheld : s.held with
  | none =>
    rw [hheld] at hs
    cases hs
  | some i =>
    rw [hheld] at hs
    obtain ⟨o, ho, hf⟩ := Option.bind_eq_some_iff.mp hs
    exact ⟨i, o, rfl, ho, hf⟩

/-- What a step of the call does that has no outcome. -/
theorem advance_cases (hs : s.advance i o = some t) :
    (s.pc = .memo ∧ (t = { s with pc := .capture } ∨
      ∃ m, s.memo = some m ∧ m.oc = o.addr ∧ o.dying = false ∧ t = { s with pc := .compare })) ∨
    (s.pc = .compare ∧ ∃ m, s.memo = some m ∧ (t = { s with pc := .capture } ∨ m.seqSeen = s.memoSeq ∧
      t = { s with pc := .idle, answers := s.answers ++ [⟨i, m.result, s.owed, decide (i ∈ s.found)⟩] })) ∨
    (s.pc = .capture ∧ t = { s with pc := .evaluate s.memoSeq }) ∨
    ∃ n, s.pc = .kill n ∧ t = { s.setObj i { o with dying := true } with pc := .store n true } := by
  unfold State.advance at hs
  cases hpc : s.pc with
  | memo =>
    rw [hpc] at hs
    refine .inl ⟨rfl, ?_⟩
    cases hm : s.memo with
    | none =>
      rw [hm] at hs
      cases hs
      exact .inl rfl
    | some m =>
      rw [hm] at hs
      dsimp only at hs
      split_ifs at hs with hsame <;> cases hs
      · exact .inr ⟨m, rfl, hsame.1, hsame.2, rfl⟩
      · exact .inl rfl
  | compare =>
    rw [hpc] at hs
    refine .inr (.inl ⟨rfl, ?_⟩)
    cases hm : s.memo with
    | none =>
      rw [hm] at hs
      cases hs
    | some m =>
      rw [hm] at hs
      dsimp only at hs
      split_ifs at hs with hsame <;> cases hs
      · exact ⟨m, rfl, .inr ⟨hsame, rfl⟩⟩
      · exact ⟨m, rfl, .inl rfl⟩
  | capture =>
    rw [hpc] at hs
    cases hs
    exact .inr (.inr (.inl ⟨rfl, rfl⟩))
  | kill n =>
    rw [hpc] at hs
    cases hs
    exact .inr (.inr (.inr ⟨n, rfl, rfl⟩))
  -- These steps have an outcome, or there is no call.
  | idle =>
    rw [hpc] at hs
    cases hs
  | evaluate n =>
    rw [hpc] at hs
    cases hs
  | store n r =>
    rw [hpc] at hs
    cases hs

theorem Inv.advance (h : Inv s) (hheld : s.held = some i) (hi : s.objs[i]? = some o) (hs : s.advance i o = some t) :
    Inv t := by
  rcases advance_cases hs with ⟨hpc, rfl | ⟨m, hm, haddr, -, rfl⟩⟩ | ⟨hpc, m, hm, rfl | ⟨hseq, rfl⟩⟩ | ⟨hpc, rfl⟩ |
    ⟨n, hpc, rfl⟩
  · exact h.goes (by simp [hpc]) (by simp) (by simp) (by simp) s.found
  · refine h.goes (by simp [hpc]) (by simp) (by simp) (fun _ m' hm' j hj x hx => ?_) s.found
    cases hm.symm.trans hm'
    cases hheld.symm.trans hj
    cases hi.symm.trans hx
    exact haddr
  · exact h.goes (by simp [hpc]) (by simp) (by simp) (by simp) s.found
  · refine { h with captured := by simp, clear := by simp, asked := by simp, owed := by simp, answers := ?_ }
    intro a ha hao
    rcases List.mem_append.mp ha with ha | ha
    · exact h.answers a ha hao
    · rw [List.mem_singleton.mp ha] at hao ⊢
      exact h.answer hheld hi hpc hm hseq hao
  · refine h.goes (by simp [hpc]) (fun n hn => ?_) (by simp) (by simp) s.found
    rcases hn with hn | hn | ⟨r, hn⟩ <;> cases hn
    exact Nat.le_refl _
  · have hfreed : s.held = some i → ({ o with dying := true } : Obj).freed = false := by
      intro hj
      obtain ⟨x, hx, -, hf⟩ := h.held i hj
      cases hi.symm.trans hx
      exact hf
    have hdies : Becomes s o { o with dying := true } := .of_same rfl id (fun _ => rfl) id rfl rfl
    have hkilled := h.setObj hi hdies hfreed
    refine hkilled.goes (by simp [hpc, State.setObj]) (fun k hk => ?_) (by simp) (by simp) s.found
    rcases hk with hk | hk | ⟨r, hk⟩ <;> cases hk
    exact h.captured n (.inr (.inl hpc))

theorem Inv.evaluate (h : Inv s) {result : Bool} (he : s.Evaluates (.evaluate result))
    (hs : s.evaluated i result = some t) : Inv t := by
  unfold State.evaluated at hs
  cases hpc : s.pc with
  | evaluate n =>
    rw [hpc] at hs
    cases hs
    have hn := h.captured n (.inl hpc)
    have hcap : ∀ (pc : Pc), pc = .kill n ∨ pc = .store n false →
        ∀ k, pc = .evaluate k ∨ pc = .kill k ∨ (∃ r, pc = .store k r) → k ≤ s.memoSeq := by
      rintro pc (rfl | rfl) k (hk | hk | ⟨r, hk⟩) <;> cases hk <;> exact hn
    cases result with
    | true => exact h.goes (by simp [hpc]) (hcap _ (.inl rfl)) (by simp) (by simp) _
    | false =>
      refine h.goes (by simp [hpc]) (hcap _ (.inr rfl)) (fun k hk j hj x hx => ?_) (by simp) s.found
      cases hk
      obtain ⟨y, hy, hbusy, -⟩ := h.held j hj
      cases hx.symm.trans hy
      refine ⟨fun p hp hm => ?_, fun hb => absurd (hbusy.symm.trans hb) (by simp)⟩
      by_contra hle
      have := he n (by simp [State.captured, hpc]) ⟨j, hj, x, hx, p, hp, hm, Nat.le_of_not_lt hle⟩
      cases this
  | _ =>
    rw [hpc] at hs
    cases hs

/-- Every step keeps the invariant, if full evaluations find what is due. -/
theorem Inv.step (h : Inv s) (he : s.Evaluates e) (hs : s.step e = some t) : Inv t := by
  cases e with
  | create addr =>
    simp only [State.step] at hs
    split_ifs at hs with hfree
    cases hs
    exact h.create hfree
  -- An object changes in its own fetch or at its end. None of it makes a purge due that was not.
  | add i fold =>
    obtain ⟨o, ho, hs⟩ := Option.bind_eq_some_iff.mp hs
    split_ifs at hs with hbusy <;> cases hs <;> exact h.setObj ho (becomes_add h.seq hbusy.1 _) fun _ => hbusy.2
  | retry i =>
    obtain ⟨o, ho, hs⟩ := Option.bind_eq_some_iff.mp hs
    split_ifs at hs with hbusy
    cases hs
    exact h.setObj ho (becomes_retry hbusy.1) fun _ => hbusy.2
  | unbusy i =>
    obtain ⟨o, ho, hs⟩ := Option.bind_eq_some_iff.mp hs
    split_ifs at hs with hbusy
    cases hs
    exact h.setObj ho (.of_same rfl id id (fun _ => hbusy.1) rfl rfl) fun _ => hbusy.2
  | kill i =>
    obtain ⟨o, ho, hs⟩ := Option.bind_eq_some_iff.mp hs
    split_ifs at hs with hfreed
    cases hs
    exact h.setObj ho (.of_same rfl id (fun _ => rfl) id rfl rfl) fun _ => hfreed
  | free i =>
    obtain ⟨o, ho, hs⟩ := Option.bind_eq_some_iff.mp hs
    split_ifs at hs with hfreed
    cases hs
    exact h.setObj ho (.of_same rfl (fun _ => hfreed.1) id id rfl rfl) fun hheld => absurd hheld hfreed.2
  -- A purge makes something due only when it returns, which is after its publication.
  | purge mode folds =>
    simp only [State.step] at hs
    split_ifs at hs
    cases hs
    exact h.purge _
  | upsert =>
    simp only [State.step] at hs
    split at hs
    · rename_i mode fold folds hw
      cases hs
      exact h.upsert (by simp [hw]) mode fold _
    · cases hs
  | publish =>
    simp only [State.step] at hs
    split at hs
    · cases hs
      exact h.publish
    · cases hs
  | purgeReturn n =>
    simp only [State.step] at hs
    split_ifs at hs with hn
    cases hs
    exact h.purgeReturn hn
  | take i =>
    obtain ⟨o, ho, hs⟩ := Option.bind_eq_some_iff.mp hs
    split_ifs at hs with hfree
    cases hs
    exact h.take ho hfree.1 hfree.2.1 hfree.2.2.2
  | restart =>
    simp only [State.step] at hs
    split_ifs at hs with hidle
    cases hs
    exact h.restart hidle
  -- From here on it is the task that goes through `stale()`.
  | stale =>
    simp only [State.step] at hs
    split_ifs at hs
    obtain ⟨i, o, hheld, ho, hs⟩ := onHeld_cases hs
    cases hs
    exact h.stale hheld ho
  | advance =>
    obtain ⟨i, o, hheld, ho, hs⟩ := onHeld_cases hs
    exact h.advance hheld ho hs
  -- The full evaluation is the one step that the premise is about.
  | evaluate result =>
    obtain ⟨i, o, -, -, hs⟩ := onHeld_cases hs
    exact h.evaluate he hs
  | store allocated =>
    obtain ⟨i, o, hheld, ho, hs⟩ := onHeld_cases hs
    unfold State.stored at hs
    split at hs
    · rename_i n result hpc
      cases hs
      exact h.store hheld ho hpc allocated
    · cases hs

/-! ### Answers of 1

An object that a full evaluation finds is killed, so that the memo of it never answers again. -/

/-- An object of which the request knows nothing has come to lie where one lay that a full evaluation had found. -/
structure Reused (s : State) (a : Answer) : Prop where
  unknown : a.found = false
  address : ∃ j ∈ s.found, j ≠ a.obj ∧ ∃ o o', s.objs[j]? = some o ∧ s.objs[a.obj]? = some o' ∧ o.freed = true ∧
    o'.addr = o.addr

structure Sourced (s : State) : Prop where
  found : ∀ i ∈ s.found, ∃ o, s.objs[i]? = some o ∧ (o.dying = true ∨ s.held = some i ∧ ∃ n, s.pc = .kill n)
  fresh : s.pc = .compare → ∀ i ∈ s.held, i ∉ s.found
  memo : ∀ m ∈ s.memo, m.result = true → m.obj ∈ s.found ∧ ∃ o, s.objs[m.obj]? = some o ∧ o.addr = m.oc
  store : ∀ n, s.pc = .kill n ∨ s.pc = .store n true → ∀ i ∈ s.held, i ∈ s.found
  answers : ∀ a ∈ s.answers, a.result = true → Reused s a

theorem Sourced.init : Sourced State.init where
  found := by simp [State.init]
  fresh := by simp [State.init]
  memo := by simp [State.init]
  store := by simp [State.init]
  answers := by simp [State.init]

/-- The objects of a state in a later one. -/
def Later (s t : State) : Prop :=
  ∀ (j : Nat) (o : Obj), s.objs[j]? = some o →
    ∃ o', t.objs[j]? = some o' ∧ o'.addr = o.addr ∧ (o.dying = true → o'.dying = true) ∧ (o.freed = true → o'.freed = true)

theorem Later.of_eq (h : t.objs = s.objs) : Later s t := fun _ o ho => ⟨o, h ▸ ho, rfl, id, id⟩

theorem later_setObj (hi : s.objs[i]? = some o) (haddr : o'.addr = o.addr) (hdying : o.dying = true → o'.dying = true)
    (hfreed : o.freed = true → o'.freed = true) : Later s (s.setObj i o') := by
  intro j x hx
  by_cases hji : i = j
  · subst hji
    cases hi.symm.trans hx
    exact ⟨o', List.getElem?_set_self (List.getElem?_eq_some_iff.mp hi).1, haddr, hdying, hfreed⟩
  · exact ⟨x, (List.getElem?_set_ne hji).trans hx, rfl, id, id⟩

theorem Reused.later {a : Answer} (h : Reused s a) (hl : Later s t) (hfound : ∀ j ∈ s.found, j ∈ t.found) :
    Reused t a := by
  obtain ⟨j, hj, hne, o, o', ho, ho', hf, haddr⟩ := h.address
  obtain ⟨x, hx, hxa, -, hxf⟩ := hl j o ho
  obtain ⟨y, hy, hya, -, -⟩ := hl a.obj o' ho'
  exact ⟨h.unknown, j, hfound j hj, hne, x, y, hx, hy, hxf hf, hya.trans (haddr.trans hxa.symm)⟩

/-- A step of anybody else. -/
theorem Sourced.other (h : Sourced s) (hl : Later s t) (hheld : t.held = s.held) (hmemo : t.memo = s.memo)
    (hpc : t.pc = s.pc) (hfound : t.found = s.found) (hans : t.answers = s.answers) : Sourced t where
  found i hi := by
    obtain ⟨o, ho, hdying⟩ := h.found i (hfound ▸ hi)
    obtain ⟨x, hx, -, hd, -⟩ := hl i o ho
    rw [hheld, hpc]
    exact ⟨x, hx, hdying.imp hd id⟩
  fresh := by
    rw [hheld, hpc, hfound]
    exact h.fresh
  memo m hm hr := by
    obtain ⟨hobj, o, ho, haddr⟩ := h.memo m (hmemo ▸ hm) hr
    obtain ⟨x, hx, hxa, -⟩ := hl m.obj o ho
    exact ⟨hfound ▸ hobj, x, hx, hxa.trans haddr⟩
  store := by
    rw [hheld, hpc, hfound]
    exact h.store
  answers a ha hr := (h.answers a (hans ▸ ha) hr).later hl fun _ hj => hfound ▸ hj

/-- What is not a step of the request. -/
def Event.Other : Event → Prop
  | .take _ => False
  | .restart => False
  | .stale => False
  | .advance => False
  | .evaluate _ => False
  | .store _ => False
  | _ => True

theorem step_other (hother : e.Other) (hs : s.step e = some t) :
    Later s t ∧ t.held = s.held ∧ t.memo = s.memo ∧ t.pc = s.pc ∧ t.found = s.found ∧ t.answers = s.answers := by
  cases e with
  | create addr =>
    simp only [State.step] at hs
    split_ifs at hs
    cases hs
    refine ⟨fun j x hx => ⟨x, ?_, rfl, id, id⟩, rfl, rfl, rfl, rfl, rfl⟩
    rw [List.getElem?_append_left (List.getElem?_eq_some_iff.mp hx).1]
    exact hx
  | add i fold =>
    obtain ⟨o, ho, hs⟩ := Option.bind_eq_some_iff.mp hs
    split_ifs at hs <;> cases hs <;> exact ⟨later_setObj ho rfl id id, rfl, rfl, rfl, rfl, rfl⟩
  | retry i =>
    obtain ⟨o, ho, hs⟩ := Option.bind_eq_some_iff.mp hs
    split_ifs at hs
    cases hs
    exact ⟨later_setObj ho rfl id id, rfl, rfl, rfl, rfl, rfl⟩
  | unbusy i =>
    obtain ⟨o, ho, hs⟩ := Option.bind_eq_some_iff.mp hs
    split_ifs at hs
    cases hs
    exact ⟨later_setObj ho rfl id id, rfl, rfl, rfl, rfl, rfl⟩
  | kill i =>
    obtain ⟨o, ho, hs⟩ := Option.bind_eq_some_iff.mp hs
    split_ifs at hs
    cases hs
    exact ⟨later_setObj ho rfl (fun _ => rfl) id, rfl, rfl, rfl, rfl, rfl⟩
  | free i =>
    obtain ⟨o, ho, hs⟩ := Option.bind_eq_some_iff.mp hs
    split_ifs at hs
    cases hs
    exact ⟨later_setObj ho rfl id fun _ => rfl, rfl, rfl, rfl, rfl, rfl⟩
  | purge mode folds =>
    simp only [State.step] at hs
    split_ifs at hs
    cases hs
    exact ⟨.of_eq rfl, rfl, rfl, rfl, rfl, rfl⟩
  | upsert =>
    simp only [State.step] at hs
    split at hs <;> cases hs
    exact ⟨.of_eq rfl, rfl, rfl, rfl, rfl, rfl⟩
  | publish =>
    simp only [State.step] at hs
    split at hs <;> cases hs
    exact ⟨.of_eq rfl, rfl, rfl, rfl, rfl, rfl⟩
  | purgeReturn n =>
    simp only [State.step] at hs
    split_ifs at hs
    cases hs
    exact ⟨.of_eq rfl, rfl, rfl, rfl, rfl, rfl⟩
  -- What is left are the steps of the task.
  | _ => exact hother.elim

/-- The call goes on, with the memo and the answers as they were. -/
theorem Sourced.goes (h : Sourced s) {pc : Pc} (hkill : ∀ n, s.pc ≠ .kill n)
    (hfresh : pc = .compare → ∀ i ∈ s.held, i ∉ s.found) (hpc : ∀ n, pc ≠ .kill n ∧ pc ≠ .store n true) :
    Sourced { s with pc } where
  found i hi := by
    obtain ⟨o, ho, hdying | ⟨-, n, hn⟩⟩ := h.found i hi
    · exact ⟨o, ho, .inl hdying⟩
    · exact absurd hn (hkill n)
  fresh := hfresh
  memo := h.memo
  store n hn := by
    rcases hn with hn | hn
    · exact absurd hn (hpc n).1
    · exact absurd hn (hpc n).2
  answers a ha hr := (h.answers a ha hr).later (.of_eq rfl) fun _ => id

/-- Where the memo answers 1, its object is dying, and so it is not the one that the request holds. -/
theorem Sourced.reused (h : Sourced s) (hinv : Inv s) (hheld : s.held = some i) (hi : s.objs[i]? = some o)
    (hpc : s.pc = .compare) {m : Memo} (hm : s.memo = some m) (hr : m.result = true) (owed : Bool) :
    Reused s ⟨i, true, owed, decide (i ∈ s.found)⟩ := by
  have hfresh := h.fresh hpc i hheld
  obtain ⟨hobj, x, hx, hxa⟩ := h.memo m hm hr
  have hne : m.obj ≠ i := fun heq => hfresh (heq ▸ hobj)
  have haddr := hinv.asked hpc m hm i hheld o hi
  obtain ⟨y, hy, -, hof⟩ := hinv.held i hheld
  cases hi.symm.trans hy
  refine ⟨by simpa using hfresh, m.obj, hobj, hne, x, o, hx, hi, ?_, (hxa.trans haddr).symm⟩
  by_contra hxf
  exact hne (hinv.apart m.obj i x o hx hi (by simpa using hxf) hof (hxa.trans haddr))

theorem Sourced.advance (h : Sourced s) (hinv : Inv s) (hheld : s.held = some i) (hi : s.objs[i]? = some o)
    (hs : s.advance i o = some t) : Sourced t := by
  rcases advance_cases hs with ⟨hpc, rfl | ⟨m, hm, -, halive, rfl⟩⟩ | ⟨hpc, m, hm, rfl | ⟨-, rfl⟩⟩ | ⟨hpc, rfl⟩ |
    ⟨n, hpc, rfl⟩
  · exact h.goes (by simp [hpc]) (by simp) (by simp)
  · refine h.goes (by simp [hpc]) (fun _ j hj hfound => ?_) (by simp)
    -- An object that has been found is dying by now.
    cases hheld.symm.trans hj
    obtain ⟨x, hx, hdying | ⟨-, n, hn⟩⟩ := h.found i hfound
    · cases hi.symm.trans hx
      exact absurd (halive.symm.trans hdying) (by simp)
    · exact absurd (hpc.symm.trans hn) (by simp)
  · exact h.goes (by simp [hpc]) (by simp) (by simp)
  · have hgoes : Sourced { s with pc := .idle } := h.goes (by simp [hpc]) (by simp) (by simp)
    refine ⟨hgoes.found, hgoes.fresh, hgoes.memo, hgoes.store, fun a ha hr => ?_⟩
    rcases List.mem_append.mp ha with ha | ha
    · exact (h.answers a ha hr).later (.of_eq rfl) fun _ => id
    · rw [List.mem_singleton.mp ha] at hr ⊢
      have hr' : m.result = true := hr
      rw [hr']
      exact (h.reused hinv hheld hi hpc hm hr' s.owed).later (.of_eq rfl) fun _ => id
  · exact h.goes (by simp [hpc]) (by simp) (by simp)
  · have hl : Later s { s.setObj i { o with dying := true } with pc := .store n true } :=
      later_setObj hi rfl (fun _ => rfl) id
    refine ⟨fun j hj => ?_, by simp, fun m hm hr => ?_, fun k _ => h.store n (.inl hpc), fun a ha hr => ?_⟩
    · obtain ⟨x, hx, hdying⟩ := h.found j hj
      obtain ⟨y, hy, -, hd, -⟩ := hl j x hx
      rcases hdying with hdying | ⟨hj', -⟩
      · exact ⟨y, hy, .inl (hd hdying)⟩
      · cases hheld.symm.trans hj'
        exact ⟨_, List.getElem?_set_self (List.getElem?_eq_some_iff.mp hi).1, .inl rfl⟩
    · obtain ⟨hobj, x, hx, hxa⟩ := h.memo m hm hr
      obtain ⟨y, hy, hya, -⟩ := hl m.obj x hx
      exact ⟨hobj, y, hy, hya.trans hxa⟩
    · exact (h.answers a ha hr).later hl fun _ => id

theorem Sourced.evaluate (h : Sourced s) {result : Bool} (hheld : s.held = some i) (hi : s.objs[i]? = some o)
    (hs : s.evaluated i result = some t) : Sourced t := by
  unfold State.evaluated at hs
  split at hs
  · rename_i n hpc
    cases hs
    cases result with
    | false => exact h.goes (by simp [hpc]) (by simp) (by simp)
    | true =>
      refine ⟨fun j hj => ?_, by simp, fun m hm hr => ?_, fun k _ j hj => ?_, fun a ha hr => ?_⟩
      · rcases List.mem_cons.mp hj with rfl | hj
        · exact ⟨o, hi, .inr ⟨hheld, n, rfl⟩⟩
        · obtain ⟨x, hx, hdying | ⟨-, k, hk⟩⟩ := h.found j hj
          · exact ⟨x, hx, .inl hdying⟩
          · exact absurd (hpc.symm.trans hk) (by simp)
      · obtain ⟨hobj, hrest⟩ := h.memo m hm hr
        exact ⟨List.mem_cons_of_mem _ hobj, hrest⟩
      · cases hheld.symm.trans hj
        exact List.mem_cons_self
      · exact (h.answers a ha hr).later (.of_eq rfl) fun _ => List.mem_cons_of_mem _
  · cases hs

theorem Sourced.store' (h : Sourced s) (hheld : s.held = some i) (hi : s.objs[i]? = some o) {allocated : Bool}
    (hs : s.stored i o allocated = some t) : Sourced t := by
  unfold State.stored at hs
  split at hs
  · rename_i n result hpc
    cases hs
    refine ⟨fun j hj => ?_, by simp, fun m hm hr => ?_, by simp, fun a ha hr => ?_⟩
    · obtain ⟨x, hx, hdying | ⟨-, k, hk⟩⟩ := h.found j hj
      · exact ⟨x, hx, .inl hdying⟩
      · exact absurd (hpc.symm.trans hk) (by simp)
    · dsimp only at hm
      split at hm <;> cases hm
      have hr' : result = true := hr
      exact ⟨h.store n (.inr (hr' ▸ hpc)) i hheld, o, hi, rfl⟩
    · exact (h.answers a ha hr).later (.of_eq rfl) fun _ => id
  · cases hs

/-- The request gets another object, or begins a call. -/
theorem Sourced.begins (h : Sourced s) (hidle : s.pc = .idle) {pc : Pc} (hpc : pc = .idle ∨ pc = .memo)
    (held : Option Nat) (owed : Bool) : Sourced { s with held, pc, owed } := by
  refine ⟨fun j hj => ?_, ?_, h.memo, ?_, fun a ha hr => (h.answers a ha hr).later (.of_eq rfl) fun _ => id⟩
  · obtain ⟨x, hx, hdying | ⟨-, k, hk⟩⟩ := h.found j hj
    · exact ⟨x, hx, .inl hdying⟩
    · exact absurd (hidle.symm.trans hk) (by simp)
  · rcases hpc with rfl | rfl <;> simp
  · rcases hpc with rfl | rfl <;> simp

theorem Sourced.step (h : Sourced s) (hinv : Inv s) (hs : s.step e = some t) : Sourced t := by
  by_cases hother : e.Other
  · obtain ⟨hl, hheld, hmemo, hpc, hfound, hans⟩ := step_other hother hs
    exact h.other hl hheld hmemo hpc hfound hans
  · cases e with
    | take i =>
      obtain ⟨o, ho, hs⟩ := Option.bind_eq_some_iff.mp hs
      split_ifs at hs with hfree
      cases hs
      have := h.begins hfree.2.2.2 (.inl rfl) (some i) s.owed
      rwa [← hfree.2.2.2] at this
    | restart =>
      simp only [State.step] at hs
      split_ifs at hs with hidle
      cases hs
      have := h.begins hidle (.inl rfl) none s.owed
      rwa [← hidle] at this
    | stale =>
      simp only [State.step] at hs
      split_ifs at hs with hidle
      obtain ⟨i, o, -, -, hs⟩ := onHeld_cases hs
      cases hs
      exact h.begins hidle (.inr rfl) s.held _
    | advance =>
      obtain ⟨i, o, hheld, ho, hs⟩ := onHeld_cases hs
      exact h.advance hinv hheld ho hs
    | evaluate result =>
      obtain ⟨i, o, hheld, ho, hs⟩ := onHeld_cases hs
      exact h.evaluate hheld ho hs
    | store allocated =>
      obtain ⟨i, o, hheld, ho, hs⟩ := onHeld_cases hs
      exact h.store' hheld ho hs
    | _ => exact absurd trivial hother

/-- If full evaluations find what is due, the memo never answers 0 where a matching hard purge had returned -1 when the
    call began. And where it answers 1, the address is that of another object, which has been freed since. -/
theorem memo_answers (h : Machine.Reach State.step State.Evaluates State.init s) :
    ∀ a ∈ s.answers, (a.owed = true → a.result = true) ∧ (a.result = true → Reused s a) := by
  have hinv : Inv s ∧ Sourced s := h.inv (I := fun s => Inv s ∧ Sourced s) ⟨.init, .init⟩ fun _ hi he hs =>
    ⟨hi.1.step he hs, hi.2.step hi.1 hs⟩
  exact fun a ha => ⟨hinv.1.answers a ha, hinv.2.answers a ha⟩

/-- A request finds its object dying and restarts. The next object is fetched to the same address. -/
def reuse : List Event :=
  [.create 10, .add 0 5, .unbusy 0, .take 0, .kill 0, .stale, .advance, .advance, .evaluate true, .advance, .store true,
    .restart, .free 0, .create 10, .add 1 5, .unbusy 1, .take 1, .stale, .advance, .advance]

/-- It calls `stale()` twice, and a purge comes too late for the first call. -/
def twice : List Event :=
  [.create 10, .add 0 5, .unbusy 0, .take 0, .stale, .advance, .advance, .purge .hard [5], .upsert, .evaluate false,
    .store true, .stale, .advance, .advance, .publish, .purgeReturn 1]

theorem memo_answers_reused : ∃ s, Machine.run State.step State.init reuse = some s ∧
    ∀ a ∈ s.answers, (a.owed = true → a.result = true) ∧ (a.result = true → Reused s a) := by
  obtain ⟨s, hs⟩ := Option.isSome_iff_exists.mp
    (show (Machine.run (Machine.guarded State.step State.Evaluates) State.init reuse).isSome = true by decide)
  exact ⟨s, Machine.run_of_guarded hs, memo_answers (.of_guarded hs)⟩

example : (Machine.run (Machine.guarded State.step State.Evaluates) State.init reuse).map (·.answers) =
    some [⟨1, true, false, false⟩] := by decide

example : (Machine.run (Machine.guarded State.step State.Evaluates) State.init twice).map (·.answers) =
    some [⟨0, false, false, false⟩] := by decide

end Cachetag.StaleMemo
