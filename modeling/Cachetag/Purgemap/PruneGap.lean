import Cachetag.EpochGate
import Cachetag.Purgemap.Refine

/-! A probe that runs while a prune, or a prune and its rollback, stores its results one by one.

The table is stored before the floors. A probe that loads the new table and the old floors sees neither
the pruned entries nor what they were promoted to. -/

namespace Cachetag.Purgemap

/-- The memory that a probe and a prune share. -/
structure Shared where
  map : Map
  gate : Gate
deriving DecidableEq, Repr

/-- A store of `cachetag_purgemap_prune_locked` or `cachetag_purgemap_prune_rollback_locked`. -/
inductive Store where
  | table (t : Option Table)
  | phase
  | nentry (n : Nat)
  | ntombstone (n : Nat)
  | hardFloor (n : Nat)
  | softFloor (n : Nat)
deriving DecidableEq, Repr

def Shared.store (m : Shared) : Store → Shared
  | .table t => { m with map := { m.map with table := t } }
  | .phase => { m with gate := m.gate.flip }
  | .nentry n => { m with map := { m.map with nentry := n } }
  | .ntombstone n => { m with map := { m.map with ntombstone := n } }
  | .hardFloor n => { m with map := { m.map with hardFloor := n } }
  | .softFloor n => { m with map := { m.map with softFloor := n } }

/-- The stores that put a map in the place of another, in program order. A prune makes them for the pruned
    map, its rollback for the original. -/
def publish (pm : Map) : List Store :=
  [.table pm.table, .phase, .nentry pm.nentry, .ntombstone pm.ntombstone, .hardFloor pm.hardFloor,
    .softFloor pm.softFloor]

/-- The stores of a prune of `pm` into `pm'`, with or without the rollback of a failed checkpoint. -/
def writes (pm pm' : Map) (rollback : Bool) : List Store :=
  publish pm' ++ if rollback then publish pm else []

/-- Where a call of `cachetag_purgemap_probe_reader_guarded` stands: the load it makes next, and its
    locals. -/
inductive Pc where
  | nentry
  | zeroHard
  | zeroSoft
  | gatePhase
  | gateEnter (slot : Bool)
  | gateCheck (slot : Bool)
  | gateLeave (slot : Bool)
  | table (slot : Bool)
  | folds (slot : Bool) (tbl : Option Table) (rest : List Nat) (soft : Bool)
  | softFloor (slot : Bool) (soft : Bool) (hardFloor : Nat)
  | exit (slot : Bool) (result : ProbeResult)
  | done (result : ProbeResult)
deriving DecidableEq, Repr

/-- The memory, the stores still to come, and the probe. -/
structure Race where
  mem : Shared
  stores : List Store
  pc : Pc
deriving DecidableEq, Repr

/-- One store of the writer or one load of the probe. -/
inductive Turn where
  | store
  | load
deriving DecidableEq, Repr

/-- One load of the probe. A table that is published is not written by a prune, so that the loads of one
    fold's probe are one step. -/
def Race.load (regSeq : Nat) (folds : List Nat) (s : Race) : Option Race :=
  match s.pc with
  | .nentry => some { s with pc := if s.mem.map.nentry = 0 then .zeroHard else .gatePhase }
  | .zeroHard => some { s with pc := if s.mem.map.hardFloor = 0 then .zeroSoft else .gatePhase }
  | .zeroSoft => some { s with pc := if s.mem.map.softFloor = 0 then .done .none else .gatePhase }
  | .gatePhase => some { s with pc := .gateEnter s.mem.gate.phase }
  | .gateEnter slot => some { s with mem := { s.mem with gate := s.mem.gate.enter slot }, pc := .gateCheck slot }
  | .gateCheck slot => some { s with pc := if s.mem.gate.phase = slot then .table slot else .gateLeave slot }
  | .gateLeave slot => some { s with mem := { s.mem with gate := s.mem.gate.leave slot }, pc := .gatePhase }
  | .table slot => some { s with pc := .folds slot s.mem.map.table folds false }
  | .folds slot tbl (f :: fs) soft =>
    match probeOne tbl regSeq f with
    | none => none
    | some .hard => some { s with pc := .exit slot .hard }
    | some .soft => some { s with pc := .folds slot tbl fs true }
    | some .none => some { s with pc := .folds slot tbl fs soft }
  | .folds slot _ [] soft => some { s with pc := .softFloor slot soft s.mem.map.hardFloor }
  | .softFloor slot soft hardFloor =>
    some { s with pc := .exit slot (withFloors (if soft then .soft else .none) hardFloor s.mem.map.softFloor regSeq) }
  | .exit slot r => some { s with mem := { s.mem with gate := s.mem.gate.leave slot }, pc := .done r }
  | .done _ => none

def Race.step (regSeq : Nat) (folds : List Nat) (s : Race) : Turn → Option Race
  | .load => s.load regSeq folds
  | .store =>
    match s.stores with
    | [] => none
    | w :: ws => some { s with mem := s.mem.store w, stores := ws }

/-- A prune about to store its results, and a probe about to begin. -/
def Race.start (g : Gate) (pm : Map) (ws : List Store) : Race := ⟨⟨pm, g⟩, ws, .nentry⟩

/-- What the map before the prune said still holds of a verdict. -/
def Fresh (pm : Map) (regSeq : Nat) (folds : List Nat) (v : ProbeResult) : Prop :=
  (probe pm regSeq folds = some .hard → v = .hard) ∧ (probe pm regSeq folds = some .soft → v ≠ .none)

/-- An entry is newer than as many others as the prune has to remove. -/
def Outlives (cfg : Config) (pm : Map) (e : Entry) : Prop :=
  pruneNeed cfg pm.nentry ≤ (pm.live.map Entry.newest).countP (· < e.newest)

/-- The verdict of a map rests on its floors or on an entry that outlives a prune. -/
def Carried (cfg : Config) (pm : Map) (regSeq : Nat) (folds : List Nat) : Prop :=
  (probe pm regSeq folds = some .hard → regSeq < pm.hardFloor ∨
    ∃ e ∈ pm.live, Outlives cfg pm e ∧ e.fold ∈ folds ∧ regSeq < e.hardSeq) ∧
  (probe pm regSeq folds = some .soft → regSeq < pm.softFloor ∨
    ∃ e ∈ pm.live, Outlives cfg pm e ∧ e.fold ∈ folds ∧ regSeq < e.softSeq)

section Stores
variable {cfg : Config} {env : Env} {pm pm' : Map} {g : Gate} {n : Nat}

/-- All stores of a prune together make the pruned map. -/
theorem foldl_publish (hseq : pm'.seq = pm.seq) (hmemo : pm'.memoSeq = pm.memoSeq) :
    (publish pm').foldl Shared.store ⟨pm, g⟩ = ⟨pm', g.flip⟩ := by
  cases pm'
  cases hseq
  cases hmemo
  rfl

/-- Each field of the memory is that of one map or of the other. -/
structure Between (pm pm' m : Map) : Prop where
  table : m.table = pm.table ∨ m.table = pm'.table
  nentry : m.nentry = pm.nentry ∨ m.nentry = pm'.nentry
  hard : m.hardFloor = pm.hardFloor ∨ m.hardFloor = pm'.hardFloor
  soft : m.softFloor = pm.softFloor ∨ m.softFloor = pm'.softFloor

/-- A store that `publish` makes of one of two maps. -/
def Store.Of (pm pm' : Map) (w : Store) : Prop := w ∈ publish pm ∨ w ∈ publish pm'

theorem Between.init : Between pm pm' pm := ⟨.inl rfl, .inl rfl, .inl rfl, .inl rfl⟩

theorem Between.store {m : Shared} {w : Store} (h : Between pm pm' m.map) (hw : w.Of pm pm') :
    Between pm pm' (m.store w).map := by
  cases w with
  | table t =>
    refine ⟨?_, h.nentry, h.hard, h.soft⟩
    simpa [Store.Of, publish, Shared.store] using hw
  | phase => exact h
  | nentry n =>
    refine ⟨h.table, ?_, h.hard, h.soft⟩
    simpa [Store.Of, publish, Shared.store] using hw
  | ntombstone n => exact ⟨h.table, h.nentry, h.hard, h.soft⟩
  | hardFloor n =>
    refine ⟨h.table, h.nentry, ?_, h.soft⟩
    simpa [Store.Of, publish, Shared.store] using hw
  | softFloor n =>
    refine ⟨h.table, h.nentry, h.hard, ?_⟩
    simpa [Store.Of, publish, Shared.store] using hw

theorem writes_of {rollback : Bool} : ∀ w ∈ writes pm pm' rollback, w.Of pm pm' := by
  intro w hw
  rcases List.mem_append.mp hw with hw | hw
  · exact .inr hw
  · cases rollback with
    | true => exact .inl hw
    | false => cases hw

end Stores

/-! ### What a probe can see -/

/-- The verdict of a probe that read its table and its two floors from one map or the other. -/
def Mixed (pm pm' : Map) (regSeq : Nat) (folds : List Nat) (v : ProbeResult) : Prop :=
  ∃ l hard soft, (l = pm.live ∨ l = pm'.live) ∧ (hard = pm.hardFloor ∨ hard = pm'.hardFloor) ∧
    (soft = pm.softFloor ∨ soft = pm'.softFloor) ∧ v = mapVerdict l hard soft regSeq folds

/-- A prune that removed something. -/
structure Pruning (cfg : Config) (pm pm' : Map) : Prop where
  before : pm.WF
  after : pm'.WF
  busy : pm.nentry ≠ 0
  seq : pm'.seq = pm.seq
  memoSeq : pm'.memoSeq = pm.memoSeq
  keeps : ∀ e, e ∈ pm'.live ↔ e ∈ pm.live ∧ Outlives cfg pm e
  hard : pm.hardFloor ≤ pm'.hardFloor
  soft : pm.softFloor ≤ pm'.softFloor

section Mixed
variable {cfg : Config} {env : Env} {pm pm' : Map} {n regSeq : Nat} {folds : List Nat} {v : ProbeResult}

/-- The entries a prune keeps are those with enough older ones. -/
theorem outlives_iff {cutoff : Nat} {e : Entry} (hneed : 0 < pruneNeed cfg pm.nentry)
    (hk : Quickselect.IsKth (pm.live.map Entry.newest) (pruneNeed cfg pm.nentry - 1) cutoff) :
    cutoff < e.newest ↔ Outlives cfg pm e := by
  constructor
  · intro hlt
    have hmono : (pm.live.map Entry.newest).countP (· ≤ cutoff) ≤ (pm.live.map Entry.newest).countP (· < e.newest) :=
      List.countP_mono_left fun x _ hx => decide_eq_true (Nat.lt_of_le_of_lt (of_decide_eq_true hx) hlt)
    have := hk.2
    unfold Outlives
    omega
  · intro hout
    by_contra hle
    have hmono : (pm.live.map Entry.newest).countP (· < e.newest) ≤ (pm.live.map Entry.newest).countP (· < cutoff) :=
      List.countP_mono_left fun x _ hx =>
        decide_eq_true (Nat.lt_of_lt_of_le (of_decide_eq_true hx) (Nat.le_of_not_lt hle))
    have := hk.1
    unfold Outlives at hout
    omega

theorem Pruning.of_prune (h : pm.WF) (hp : prune cfg env pm = .ok (pm', n)) (hn : n ≠ 0) : Pruning cfg pm pm' := by
  rcases prune_spec cfg env h with ⟨-, hok⟩ | ⟨pm₁, n₁, cutoff, hok, -, hneed, hk, hwf, hto⟩ | ⟨f, herr, -⟩
  · rw [hp] at hok
    cases hok
    exact absurd rfl hn
  · rw [hp] at hok
    cases hok
    refine ⟨h, hwf, ?_, hto.seq, hto.memoSeq, fun e => ?_, ?_, ?_⟩
    · unfold pruneNeed at hneed
      split at hneed <;> omega
    · rw [hto.live.mem_iff, List.mem_filter, decide_eq_true_eq, outlives_iff hneed hk]
    · exact floor_le_raised.trans_eq hto.hard.symm
    · exact floor_le_raised.trans_eq hto.soft.symm
  · rw [hp] at herr
    cases herr

theorem mapVerdict_hard {l : List Entry} {hard soft : Nat} :
    mapVerdict l hard soft regSeq folds = .hard ↔ regSeq < hard ∨ ∃ e ∈ l, e.fold ∈ folds ∧ regSeq < e.hardSeq := by
  unfold mapVerdict
  split_ifs with hh hs <;> simp [hh]

theorem mapVerdict_soft {l : List Entry} {hard soft : Nat}
    (hs : regSeq < soft ∨ ∃ e ∈ l, e.fold ∈ folds ∧ regSeq < e.softSeq) :
    mapVerdict l hard soft regSeq folds ≠ .none := by
  unfold mapVerdict
  rw [if_pos hs]
  split <;> decide

theorem mapVerdict_ne_none {l : List Entry} {hard soft : Nat} (h : mapVerdict l hard soft regSeq folds ≠ .none) :
    mapVerdict l hard soft regSeq folds = .hard ∨
      regSeq < soft ∨ ∃ e ∈ l, e.fold ∈ folds ∧ regSeq < e.softSeq := by
  unfold mapVerdict at h ⊢
  split_ifs at h ⊢ with hh hs
  · exact .inl rfl
  · exact .inr hs
  · exact absurd rfl h

/-- What is carried over is seen whatever the probe reads from which map. -/
theorem Carried.fresh (hp : Pruning cfg pm pm') (hc : Carried cfg pm regSeq folds)
    (hv : Mixed pm pm' regSeq folds v) : Fresh pm regSeq folds v := by
  obtain ⟨l, hard, soft, hl, hhard, hsoft, rfl⟩ := hv
  have kept : ∀ e ∈ pm.live, Outlives cfg pm e → e ∈ l := by
    intro e he hout
    rcases hl with rfl | rfl
    · exact he
    · exact (hp.keeps e).mpr ⟨he, hout⟩
  have hhf : pm.hardFloor ≤ hard := by
    rcases hhard with rfl | rfl
    · exact Nat.le_refl _
    · exact hp.hard
  have hsf : pm.softFloor ≤ soft := by
    rcases hsoft with rfl | rfl
    · exact Nat.le_refl _
    · exact hp.soft
  constructor
  · intro hold
    refine mapVerdict_hard.mpr ?_
    rcases hc.1 hold with hlt | ⟨e, he, hout, hf, hlt⟩
    · exact .inl (Nat.lt_of_lt_of_le hlt hhf)
    · exact .inr ⟨e, kept e he hout, hf, hlt⟩
  · intro hold
    refine mapVerdict_soft ?_
    rcases hc.2 hold with hlt | ⟨e, he, hout, hf, hlt⟩
    · exact .inl (Nat.lt_of_lt_of_le hlt hsf)
    · exact .inr ⟨e, kept e he hout, hf, hlt⟩

/-- The new entries and the old floors tell no more than what is carried over. -/
theorem Carried.of_fresh {fs : List Fold} (hp : Pruning cfg pm pm')
    (h : Fresh pm regSeq (fs.map Fold.val) (mapVerdict pm'.live pm.hardFloor pm.softFloor regSeq (fs.map Fold.val))) :
    Carried cfg pm regSeq (fs.map Fold.val) := by
  constructor
  · intro hold
    rcases mapVerdict_hard.mp (h.1 hold) with hlt | ⟨e, he, hf, hlt⟩
    · exact .inl hlt
    · obtain ⟨he, hout⟩ := (hp.keeps e).mp he
      exact .inr ⟨e, he, hout, hf, hlt⟩
  · intro hold
    rcases mapVerdict_ne_none (h.2 hold) with hhard | hlt | ⟨e, he, hf, hlt⟩
    · -- A hard verdict of the kept entries would have been the old one.
      have hold' : mapVerdict pm.live pm.hardFloor pm.softFloor regSeq (fs.map Fold.val) = .hard := by
        refine mapVerdict_hard.mpr ((mapVerdict_hard.mp hhard).imp_right ?_)
        rintro ⟨e, he, hrest⟩
        exact ⟨e, ((hp.keeps e).mp he).1, hrest⟩
      rw [probe_spec hp.before, hold'] at hold
      cases hold
    · exact .inl hlt
    · obtain ⟨he, hout⟩ := (hp.keeps e).mp he
      exact .inr ⟨e, he, hout, hf, hlt⟩

end Mixed

/-! ### The probe during a prune -/

/-- What a probe has learned where it stands. -/
def PcOk (pm pm' : Map) (regSeq : Nat) (folds : List Nat) : Pc → Prop
  | .zeroHard => pm'.nentry = 0
  | .zeroSoft => pm'.nentry = 0 ∧ pm.hardFloor = 0
  | .folds _ tbl rest soft =>
    (tbl = pm.table ∨ tbl = pm'.table) ∧ probeFolds tbl regSeq rest soft = probeFolds tbl regSeq folds false
  | .softFloor _ soft hard =>
    (∃ tbl, (tbl = pm.table ∨ tbl = pm'.table) ∧
      probeFolds tbl regSeq folds false = some (if soft then .soft else .none)) ∧
    (hard = pm.hardFloor ∨ hard = pm'.hardFloor)
  | .exit _ v | .done v => Mixed pm pm' regSeq folds v
  | _ => True

structure Race.Inv (pm pm' : Map) (regSeq : Nat) (folds : List Nat) (s : Race) : Prop where
  mem : Between pm pm' s.mem.map
  stores : ∀ w ∈ s.stores, w.Of pm pm'
  pc : PcOk pm pm' regSeq folds s.pc

section Race
variable {cfg : Config} {pm pm' : Map} {regSeq : Nat} {fs : List Fold} {s t : Race} {tbl : Option Table}

variable (regSeq fs) in
/-- What the loop over the folds finds in either table is what its entries say. -/
theorem Pruning.tags (hp : Pruning cfg pm pm') (htbl : tbl = pm.table ∨ tbl = pm'.table) :
    ∃ l, (l = pm.live ∨ l = pm'.live) ∧
      probeFolds tbl regSeq (fs.map Fold.val) false = some (tagsVerdict l regSeq (fs.map Fold.val)) := by
  rcases htbl with rfl | rfl
  · exact ⟨_, .inl rfl, hp.before.probeFolds⟩
  · exact ⟨_, .inr rfl, hp.after.probeFolds⟩

/-- A table's verdict and two floors make a mixed verdict. -/
theorem Pruning.mixed {tags : ProbeResult} {hard soft : Nat} (hp : Pruning cfg pm pm')
    (htbl : tbl = pm.table ∨ tbl = pm'.table)
    (htags : probeFolds tbl regSeq (fs.map Fold.val) false = some tags)
    (hhard : hard = pm.hardFloor ∨ hard = pm'.hardFloor) (hsoft : soft = pm.softFloor ∨ soft = pm'.softFloor) :
    Mixed pm pm' regSeq (fs.map Fold.val) (withFloors tags hard soft regSeq) := by
  obtain ⟨l, hl, hfound⟩ := hp.tags regSeq fs htbl
  rw [hfound, Option.some.injEq] at htags
  exact ⟨l, hard, soft, hl, hhard, hsoft, htags ▸ withFloors_tags⟩

theorem Race.Inv.load (hp : Pruning cfg pm pm') (h : s.Inv pm pm' regSeq (fs.map Fold.val))
    (hs : s.load regSeq (fs.map Fold.val) = some t) : t.Inv pm pm' regSeq (fs.map Fold.val) := by
  obtain ⟨mem, ws, pc⟩ := s
  obtain ⟨hmem, hws, hpc⟩ := h
  cases pc with
  -- The map was not empty before the prune, so that a count of zero is that of the empty table.
  | nentry =>
    cases hs
    refine ⟨hmem, hws, ?_⟩
    dsimp only
    split
    · rename_i h0
      exact hmem.nentry.elim (fun heq => absurd (heq.symm.trans h0) hp.busy) fun heq => heq.symm.trans h0
    · trivial
  -- A floor only rises in a prune: a floor of zero was zero before it.
  | zeroHard =>
    cases hs
    refine ⟨hmem, hws, ?_⟩
    dsimp only
    split
    · rename_i h0
      have hle := hp.hard
      refine ⟨hpc, ?_⟩
      rcases hmem.hard with heq | heq <;> dsimp only at heq h0 <;> omega
    · trivial
  | zeroSoft =>
    cases hs
    refine ⟨hmem, hws, ?_⟩
    dsimp only
    split
    · -- The fast exit: what it read is what the new entries and the old floors say.
      rename_i h0
      have hle := hp.soft
      have hsoft : pm.softFloor = 0 := by
        rcases hmem.soft with heq | heq <;> dsimp only at heq h0 <;> omega
      have hnil : pm'.live = [] := List.eq_nil_of_length_eq_zero (hp.after.count ▸ hpc.1)
      exact ⟨_, _, _, .inr rfl, .inl rfl, .inl rfl, by simp [mapVerdict, hnil, hpc.2, hsoft]⟩
    · trivial
  | gatePhase =>
    cases hs
    exact ⟨hmem, hws, trivial⟩
  | gateEnter slot =>
    cases hs
    exact ⟨hmem, hws, trivial⟩
  | gateCheck slot =>
    cases hs
    refine ⟨hmem, hws, ?_⟩
    dsimp only
    split <;> trivial
  | gateLeave slot =>
    cases hs
    exact ⟨hmem, hws, trivial⟩
  | table slot =>
    cases hs
    exact ⟨hmem, hws, hmem.table, rfl⟩
  -- The verdict over the folds that are left is that over all of them, by the table that was loaded.
  | folds slot tbl rest soft =>
    obtain ⟨htbl, hrest⟩ := hpc
    cases rest with
    | nil =>
      cases hs
      exact ⟨hmem, hws, ⟨tbl, htbl, hrest.symm⟩, hmem.hard⟩
    | cons f rest =>
      rw [probeFolds] at hrest
      simp only [Race.load] at hs
      split at hs
      · cases hs
      · rename_i hone
        cases hs
        rw [hone] at hrest
        -- A hard hit ends the loop, with no floor read.
        exact ⟨hmem, hws, hp.mixed htbl hrest.symm (.inl rfl) (.inl rfl)⟩
      · rename_i hone
        cases hs
        rw [hone] at hrest
        exact ⟨hmem, hws, htbl, hrest⟩
      · rename_i hone
        cases hs
        rw [hone] at hrest
        exact ⟨hmem, hws, htbl, hrest⟩
  | softFloor slot soft hard =>
    obtain ⟨⟨tbl, htbl, htags⟩, hhard⟩ := hpc
    cases hs
    exact ⟨hmem, hws, hp.mixed htbl htags hhard hmem.soft⟩
  | exit slot v =>
    cases hs
    exact ⟨hmem, hws, hpc⟩
  | done v => cases hs

theorem Race.Inv.step {e : Turn} (hp : Pruning cfg pm pm') (h : s.Inv pm pm' regSeq (fs.map Fold.val))
    (hs : s.step regSeq (fs.map Fold.val) e = some t) : t.Inv pm pm' regSeq (fs.map Fold.val) := by
  cases e with
  | load => exact h.load hp hs
  | store =>
    simp only [Race.step] at hs
    split at hs
    · cases hs
    · rename_i w ws hw
      cases hs
      exact ⟨h.mem.store (h.stores w (by rw [hw]; exact List.mem_cons_self)),
        fun x hx => h.stores x (by rw [hw]; exact List.mem_cons_of_mem _ hx), h.pc⟩

/-- However a prune and its rollback are interleaved with a probe, the verdict mixes the two maps. -/
theorem Race.reach_mixed {g : Gate} {rollback : Bool} {v : ProbeResult} (hp : Pruning cfg pm pm')
    (h : Machine.Reach (Race.step regSeq (fs.map Fold.val)) Machine.always (Race.start g pm (writes pm pm' rollback)) s)
    (hv : s.pc = .done v) : Mixed pm pm' regSeq (fs.map Fold.val) v := by
  have hinv : s.Inv pm pm' regSeq (fs.map Fold.val) :=
    h.inv ⟨Between.init, writes_of, trivial⟩ fun _ hi _ hs => hi.step hp hs
  have hpc := hinv.pc
  rw [hv] at hpc
  exact hpc

/-- A probe is never stuck before it is done. -/
theorem Race.Inv.load_total (hp : Pruning cfg pm pm') (h : s.Inv pm pm' regSeq (fs.map Fold.val))
    (hv : ∀ v, s.pc ≠ .done v) : ∃ t, s.load regSeq (fs.map Fold.val) = some t := by
  obtain ⟨mem, ws, pc⟩ := s
  cases pc with
  | done v => exact absurd rfl (hv v)
  | folds slot tbl rest soft =>
    cases rest with
    | nil => exact ⟨_, rfl⟩
    | cons f rest =>
      obtain ⟨htbl, hrest⟩ := h.pc
      obtain ⟨l, -, hfound⟩ := hp.tags regSeq fs htbl
      rw [hfound, probeFolds] at hrest
      simp only [Race.load]
      cases hone : probeOne tbl regSeq f with
      | none =>
        simp only [hone] at hrest
        cases hrest
      | some v => cases v <;> exact ⟨_, rfl⟩
  | _ => exact ⟨_, rfl⟩

/-- A probe that is left alone with its table comes to the floors with the table's verdict. -/
theorem Race.reach_folds {mem : Shared} {ws : List Store} {slot soft : Bool} {rest folds : List Nat} {tags : ProbeResult}
    (htags : probeFolds tbl regSeq rest soft = some tags) :
    Machine.Reach (Race.step regSeq folds) Machine.always ⟨mem, ws, .folds slot tbl rest soft⟩
      ⟨{ mem with gate := mem.gate.leave slot }, ws,
        .done (withFloors tags mem.map.hardFloor mem.map.softFloor regSeq)⟩ := by
  induction rest generalizing soft with
  | nil =>
    cases htags
    exact .of_run (show Machine.run _ _ [.load, .load, .load] = _ from rfl)
  | cons f rest ih =>
    rw [probeFolds] at htags
    split at htags
    · cases htags
    · rename_i hone
      cases htags
      exact .of_run (show Machine.run _ _ [.load, .load] = _ by simp [Machine.run, Race.step, Race.load, hone, withFloors])
    · rename_i hone
      exact .trans (.of_run (show Machine.run _ _ [.load] = _ by simp [Machine.run, Race.step, Race.load, hone])) (ih htags)
    · rename_i hone
      exact .trans (.of_run (show Machine.run _ _ [.load] = _ by simp [Machine.run, Race.step, Race.load, hone])) (ih htags)

variable (regSeq fs) in
/-- Between the store of the table and that of the floors, a whole probe fits. -/
theorem Race.reach_gap (g : Gate) (rollback : Bool) (hp : Pruning cfg pm pm') :
    ∃ s, Machine.Reach (Race.step regSeq (fs.map Fold.val)) Machine.always
        (Race.start g pm (writes pm pm' rollback)) s ∧
      s.pc = .done (mapVerdict pm'.live pm.hardFloor pm.softFloor regSeq (fs.map Fold.val)) := by
  have hbegin : Machine.Reach (Race.step regSeq (fs.map Fold.val)) Machine.always
      (Race.start g pm (writes pm pm' rollback))
      ⟨⟨{ pm with table := pm'.table }, g.enter g.phase⟩, (writes pm pm' rollback).tail,
        .folds g.phase pm'.table (fs.map Fold.val) false⟩ :=
    .of_run (show Machine.run _ _ [.store, .load, .load, .load, .load, .load] = _ by
      simp [Machine.run, Race.step, Race.load, Race.start, writes, publish, Shared.store, hp.busy])
  refine ⟨_, hbegin.trans (Race.reach_folds hp.after.probeFolds), ?_⟩
  rw [withFloors_tags]

end Race

/-! ### The maps that are pruned -/

/-- The maps that a running namespace hands to `cachetag_purgemap_prune_locked`: that of a compaction, and
    that of a purge behind its upserts. -/
inductive Prunable (cfg : Config) : Map → Prop
  | compact {s : History} : Machine.Reach (History.step cfg) Machine.always History.init s → Prunable cfg s.map
  | purge {s : History} {env : Env} {prep mid : Map} (mode : PurgeMode) (d : Digest) :
    Machine.Reach (History.step cfg) Machine.always History.init s → prepareUpsert env s.map = .ok prep →
    applyAll (s.map.seq + 1) mode [foldDigest d] { prep with seq := s.map.seq + 1 } = .ok mid → Prunable cfg mid
  | purgeBatch {s : History} {env : Env} {prep mid : Map} (mode : PurgeMode) (ds : List Digest) :
    Machine.Reach (History.step cfg) Machine.always History.init s → prepareBatch env s.map ds.length = .ok prep →
    applyAll (s.map.seq + 1) mode (ds.map foldDigest) { prep with seq := s.map.seq + 1 } = .ok mid → Prunable cfg mid

theorem Prunable.wf {cfg : Config} {pm : Map} (h : Prunable cfg pm) : pm.WF := by
  cases h with
  | compact hreach => exact (History.reach_inv hreach).wf
  | @purge s env prep mid mode d hreach hprep hall =>
    rcases prepareUpsert_spec env (History.reach_inv hreach).wf with ⟨prep', hok, hwf, -, hroom⟩ | herr
    · rw [hprep] at hok
      cases hok
      obtain ⟨mid', hok', hmid, -⟩ := applyAll_spec (s.map.seq + 1) mode [foldDigest d]
        (hwf.with_seq (n := s.map.seq + 1)) fun _ => hroom
      rw [hall] at hok'
      cases hok'
      exact hmid
    · rw [hprep] at herr
      cases herr
  | @purgeBatch s env prep mid mode ds hreach hprep hall =>
    rcases prepareBatch_spec env ds.length (History.reach_inv hreach).wf with
      ⟨prep', hok, hwf, -, hroom⟩ | ⟨f, herr, -⟩
    · rw [hprep] at hok
      cases hok
      obtain ⟨mid', hok', hmid, -⟩ := applyAll_spec (s.map.seq + 1) mode (ds.map foldDigest)
        (hwf.with_seq (n := s.map.seq + 1)) fun hne => by
          rw [List.length_map]
          exact hroom (List.length_pos_of_ne_nil fun h0 => hne (by rw [h0]; rfl))
      rw [hall] at hok'
      cases hok'
      exact hmid
    · rw [hprep] at herr
      cases herr

/-- A prune that removes something, alone or with its rollback, never weakens the verdict of a concurrent
    probe if and only if that verdict rests on the floors before the prune or on entries that outlive it. -/
theorem prune_gap_iff {cfg : Config} {env : Env} {pm pm' : Map} {n : Nat} (h : Prunable cfg pm)
    (hp : prune cfg env pm = .ok (pm', n)) (hn : n ≠ 0) (rollback : Bool) (regSeq : Nat) (folds : List Fold) :
    (∀ g s v, Machine.Reach (Race.step regSeq (folds.map Fold.val)) Machine.always
        (Race.start g pm (writes pm pm' rollback)) s → s.pc = .done v → Fresh pm regSeq (folds.map Fold.val) v) ↔
      Carried cfg pm regSeq (folds.map Fold.val) := by
  have hpr := Pruning.of_prune h.wf hp hn
  constructor
  · intro hall
    obtain ⟨s, hreach, hv⟩ := Race.reach_gap regSeq folds Gate.init rollback hpr
    exact Carried.of_fresh hpr (hall _ s _ hreach hv)
  · intro hc g s v hreach hv
    exact hc.fresh hpr (Race.reach_mixed hpr hreach hv)

/-- A namespace with room for one entry of history, after a hard purge of one tag. -/
def onePurge : Option History :=
  Machine.run (History.step ⟨1, false⟩) History.init [.purge ⟨0, 5⟩ .hard .ok]

/-- Its map while a soft purge of a second tag is about to prune. -/
def twoTags : Option Map :=
  onePurge.bind fun s =>
    (applyAll (s.map.seq + 1) .soft [foldDigest ⟨0, 9⟩] { s.map with seq := s.map.seq + 1 }).toOption

theorem twoTags_prunable {pm : Map} (h : twoTags = some pm) : Prunable ⟨1, false⟩ pm := by
  obtain ⟨s, hs, hall⟩ := Option.bind_eq_some_iff.mp h
  have hprep : onePurge.all fun s => decide (prepareUpsert Env.ok s.map = .ok s.map) := by decide +kernel
  rw [hs, Option.all_some, decide_eq_true_eq] at hprep
  refine .purge .soft ⟨0, 9⟩ (.of_run hs) hprep ?_
  cases happly : applyAll (s.map.seq + 1) .soft [foldDigest ⟨0, 9⟩] { s.map with seq := s.map.seq + 1 } with
  | ok mid =>
    rw [happly] at hall
    cases hall
    rfl
  | error f =>
    rw [happly] at hall
    cases hall

theorem twoTags_pruned : ∃ pm pm' n, twoTags = some pm ∧ prune ⟨1, false⟩ Env.ok pm = .ok (pm', n) ∧ n ≠ 0 := by
  have hpm : twoTags.isSome := by decide +kernel
  obtain ⟨pm, hpm⟩ := Option.isSome_iff_exists.mp hpm
  have hpruned : twoTags.bind (fun pm => (prune ⟨1, false⟩ Env.ok pm).toOption.map Prod.snd) = some 2 := by
    decide +kernel
  rw [hpm, Option.bind_some] at hpruned
  cases hp : prune ⟨1, false⟩ Env.ok pm with
  | error f =>
    rw [hp] at hpruned
    cases hpruned
  | ok r =>
    rw [hp] at hpruned
    have htwo : r.2 = 2 := Option.some.inj hpruned
    exact ⟨pm, r.1, r.2, hpm, hp, by omega⟩

theorem prune_gap_iff_twoTags : ∃ pm pm' n, twoTags = some pm ∧ prune ⟨1, false⟩ Env.ok pm = .ok (pm', n) ∧
    ((∀ g s v, Machine.Reach (Race.step 0 [5]) Machine.always (Race.start g pm (writes pm pm' true)) s →
      s.pc = .done v → Fresh pm 0 [5] v) ↔ Carried ⟨1, false⟩ pm 0 [5]) := by
  obtain ⟨pm, pm', n, hpm, hp, hn⟩ := twoTags_pruned
  exact ⟨pm, pm', n, hpm, hp, prune_gap_iff (twoTags_prunable hpm) hp hn true 0 [foldDigest ⟨0, 5⟩]⟩

/-- The hard purge of the first tag is in the map, and a probe that runs between the prune's store of the
    table and its store of the floors misses it. -/
theorem prune_gap_misses : ∃ pm pm' n s, Prunable ⟨1, false⟩ pm ∧ prune ⟨1, false⟩ Env.ok pm = .ok (pm', n) ∧
    probe pm 0 [5] = some .hard ∧
    Machine.Reach (Race.step 0 [5]) Machine.always (Race.start Gate.init pm (writes pm pm' false)) s ∧
    s.pc = .done .none := by
  obtain ⟨pm, pm', n, hpm, hp, -⟩ := twoTags_pruned
  have hold : twoTags.bind (fun pm => probe pm 0 [5]) = some .hard := by decide +kernel
  have hgap : (twoTags.bind fun pm => (prune ⟨1, false⟩ Env.ok pm).toOption.bind fun r =>
      (Machine.run (Race.step 0 [5]) (Race.start Gate.init pm (writes pm r.1 false))
        (.store :: List.replicate 9 .load)).map Race.pc) = some (.done .none) := by decide +kernel
  rw [hpm, Option.bind_some] at hold hgap
  rw [hp] at hgap
  obtain ⟨s, hs, hv⟩ := Option.map_eq_some_iff.mp hgap
  exact ⟨pm, pm', n, s, twoTags_prunable hpm, hp, hold, .of_run hs, hv⟩

end Cachetag.Purgemap
