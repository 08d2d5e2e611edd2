import Cachetag.Lib.LinearProbe

/-! The table of the purge map: open addressing over the folded tag digests.

`Table.live` is what a table stands for: its entries, in slot order. The lemmas of this file say what each
table operation of `src/vmod_cachetag_purgemap.c` does to it, up to the order, which no caller can see. -/

namespace Cachetag

/-- `UINT64_MAX`. -/
def u64Max : Nat := 2 ^ 64 - 1

/-- `enum cachetag_purge_mode` -/
inductive PurgeMode where
  | hard
  | soft
deriving DecidableEq, Repr

/-- `enum cachetag_purgemap_probe_result` -/
inductive ProbeResult where
  | none
  | hard
  | soft
deriving DecidableEq, Repr

/-- A 128-bit tag digest, as the two halves of `XXH128_hash_t`. -/
structure Digest where
  hi : UInt64
  lo : UInt64
deriving DecidableEq, Repr

/-- A fold never collides with the table's markers for an empty slot and a tombstone. -/
structure Fold where
  val : Nat
  ne_zero : val ≠ 0
  lt_max : val < u64Max
deriving DecidableEq, Repr

/-- `cachetag_fold_digest` -/
def foldDigest (d : Digest) : Fold :=
  let fold := (d.hi ^^^ d.lo).toNat
  if h : fold = 0 ∨ fold = u64Max then ⟨1, by decide, by decide⟩
  else ⟨fold, by omega, by
    have : fold < 2 ^ 64 := (d.hi ^^^ d.lo).toNat_lt
    unfold u64Max at h ⊢
    omega⟩

namespace Purgemap
open LinearProbe

/-- `TAG_PURGEMAP_INITIAL_SLOTS` -/
def initialSlots : Nat := 16

theorem powTwo_initialSlots : PowTwo initialSlots := ⟨4, rfl⟩

/-- `TAG_PURGEMAP_MAX_LOAD_PERCENT` -/
def maxLoadPercent : Nat := 70

/-- `TAG_PURGEMAP_EMPTY_MIN_DIVISOR` -/
def emptyMinDivisor : Nat := 8

/-- `TAG_PURGEMAP_EMPTY` -/
def EMPTY : Nat := 0

/-- `TAG_PURGEMAP_TOMBSTONE` -/
def TOMBSTONE : Nat := u64Max

/-- `struct cachetag_purgemap_entry` -/
structure Entry where
  fold : Nat
  hardSeq : Nat
  softSeq : Nat
deriving DecidableEq, Repr

/-- A slot fresh from `calloc`. -/
def Entry.zero : Entry := ⟨EMPTY, 0, 0⟩

/-- A slot that holds an entry, as opposed to the two markers. -/
def Entry.Live (e : Entry) : Prop := e.fold ≠ EMPTY ∧ e.fold ≠ TOMBSTONE

instance (e : Entry) : Decidable e.Live := inferInstanceAs (Decidable (_ ∧ _))

/-- What an in-place purge does to the entry of its fold. -/
def Entry.bump (e : Entry) (seq : Nat) : PurgeMode → Entry
  | .hard => if e.hardSeq < seq then { e with hardSeq := seq } else e
  | .soft => if e.softSeq < seq then { e with softSeq := seq } else e

/-- The entry a purge of an unknown fold makes. -/
def Entry.fresh (fold seq : Nat) : PurgeMode → Entry
  | .hard => ⟨fold, seq, 0⟩
  | .soft => ⟨fold, 0, seq⟩

/-- `struct cachetag_purgemap_table`, less the retire slot, which `Cachetag/ReaderGate.lean` models. -/
structure Table where
  entries : List Entry
deriving DecidableEq, Repr

namespace Table

def nslot (t : Table) : Nat := t.entries.length

/-- The slot at a position. -/
def slot (t : Table) (i : Nat) : Entry := t.entries.getD i Entry.zero

def set (t : Table) (i : Nat) (e : Entry) : Table := ⟨t.entries.set i e⟩

/-- The entries a table stands for. -/
def live (t : Table) : List Entry := t.entries.filter fun e => e.Live

/-- `cachetag_purgemap_table_new`, when the allocation succeeds. -/
def new (nslot : Nat) : Table := ⟨List.replicate nslot Entry.zero⟩

/-- The slot a probe for a fold starts at: `fold & mask`. -/
def home (t : Table) (fold : Nat) : Nat := fold &&& (t.nslot - 1)

/-- `cachetag_purgemap_table_insert_existing`. `none`: the loop finds no empty slot and never ends. -/
def insertExisting (t : Table) (src : Entry) : Option Table :=
  (walk t.slot t.nslot (fun () pos (ent : Entry) => if ent.fold = EMPTY then .inr pos else .inl ())
    t.nslot (t.home src.fold) ()).map fun pos => t.set pos src

/-- Where the loop of `cachetag_purgemap_apply_upsert_locked` ends. -/
inductive UpsertAt where
  | found (pos : Nat)
  | insert (pos : Nat) (tombstone : Bool)
deriving DecidableEq, Repr

/-- One turn of that loop. The accumulator is `first_tombstone`. -/
def upsertVisit (fold : Nat) (firstTombstone : Option Nat) (pos : Nat) (ent : Entry) :
    Option Nat ⊕ UpsertAt :=
  if ent.fold = fold then .inr (.found pos)
  else if ent.fold = TOMBSTONE then .inl (firstTombstone.or (some pos))
  else if ent.fold = EMPTY then
    match firstTombstone with
    | some tomb => .inr (.insert tomb true)
    | none => .inr (.insert pos false)
  else .inl firstTombstone

/-- `cachetag_purgemap_probe_one`'s loop over a table. -/
def probeVisit (regSeq fold : Nat) : Unit → Nat → Entry → Unit ⊕ ProbeResult := fun () _ ent =>
  if ent.fold = EMPTY then .inr .none
  else if ent.fold = TOMBSTONE ∨ ent.fold ≠ fold then .inl ()
  else if ent.hardSeq > regSeq then .inr .hard
  else .inr (if ent.softSeq > regSeq then .soft else .none)

end Table

/-- `cachetag_purgemap_probe_one`. The outer `none`: the loop never ends. -/
def probeOne (tbl : Option Table) (regSeq fold : Nat) : Option ProbeResult :=
  match tbl with
  | none => some .none
  | some t => walk t.slot t.nslot (Table.probeVisit regSeq fold) t.nslot (t.home fold) ()

/-! ### What a table stands for -/

/-- The verdict of a list of entries on one fold. -/
def tagVerdict (l : List Entry) (regSeq fold : Nat) : ProbeResult :=
  if ∃ e ∈ l, e.fold = fold ∧ regSeq < e.hardSeq then .hard
  else if ∃ e ∈ l, e.fold = fold ∧ regSeq < e.softSeq then .soft
  else .none

namespace Table
variable {t : Table} {e : Entry} {i j p fold seq : Nat}

@[simp] theorem nslot_set : (t.set p e).nslot = t.nslot := by simp [nslot, set]

@[simp] theorem nslot_new {n : Nat} : (new n).nslot = n := by simp [nslot, new]

@[simp] theorem home_set : (t.set p e).home fold = t.home fold := by simp [home]

theorem slot_eq_getElem (hi : i < t.entries.length) : t.slot i = t.entries[i] := by
  rw [slot, List.getD_eq_getElem?_getD, List.getElem?_eq_getElem hi]
  rfl

theorem entries_split (hp : p < t.nslot) :
    t.entries = t.entries.take p ++ t.slot p :: t.entries.drop (p + 1) := by
  have hp : p < t.entries.length := hp
  rw [slot_eq_getElem hp, List.cons_getElem_drop_succ, List.take_append_drop]

theorem slot_set (hp : p < t.nslot) : (t.set p e).slot i = if i = p then e else t.slot i := by
  unfold nslot at hp
  by_cases h : i = p
  · subst h
    simp [slot, set, List.getD_eq_getElem?_getD, hp]
  · simp [slot, set, List.getD_eq_getElem?_getD, h, Ne.symm h]

@[simp] theorem slot_new {n : Nat} : (new n).slot i = Entry.zero := by
  by_cases h : i < n <;> simp [slot, new, List.getD_eq_getElem?_getD, h]

theorem mem_entries_iff : e ∈ t.entries ↔ ∃ i < t.nslot, t.slot i = e := by
  rw [List.mem_iff_getElem]
  constructor
  · rintro ⟨i, hi, rfl⟩
    exact ⟨i, hi, slot_eq_getElem hi⟩
  · rintro ⟨i, hi, rfl⟩
    exact ⟨i, hi, (slot_eq_getElem hi).symm⟩

theorem mem_live_iff : e ∈ t.live ↔ e.Live ∧ ∃ i < t.nslot, t.slot i = e := by
  simp only [live, List.mem_filter, mem_entries_iff, decide_eq_true_eq, and_comm]

theorem live_new {n : Nat} : (new n).live = [] := by
  simp [live, new, Entry.Live, Entry.zero]

/-- A table whose probes work: power-of-two size, no fold twice, and from the home of every entry a path
    without empty slots leads to it. No operation of the purge map leaves a tombstone. -/
structure WF (t : Table) : Prop where
  pow : PowTwo t.nslot
  big : initialSlots ≤ t.nslot
  noTomb : ∀ i < t.nslot, (t.slot i).fold ≠ TOMBSTONE
  uniq : ∀ i < t.nslot, ∀ j < t.nslot, (t.slot i).fold ≠ EMPTY → (t.slot i).fold = (t.slot j).fold → i = j
  path : ∀ i < t.nslot, (t.slot i).fold ≠ EMPTY →
    PathTo t.slot (fun e => e.fold = EMPTY) t.nslot (t.home (t.slot i).fold) i

namespace WF

theorem new {n : Nat} (hn : PowTwo n) (hbig : initialSlots ≤ n) : WF (Table.new n) where
  pow := by simpa using hn
  big := by simpa using hbig
  noTomb := by
    intro i _
    rw [slot_new]
    decide
  uniq := fun i _ j _ hne => by simp [Entry.zero] at hne
  path := fun i _ hne => by simp [Entry.zero] at hne

theorem home_lt (h : WF t) (fold : Nat) : t.home fold < t.nslot := by
  rw [home, and_mask h.pow]
  exact Nat.mod_lt _ h.pow.pos

theorem live_iff (h : WF t) (hi : i < t.nslot) : (t.slot i).Live ↔ (t.slot i).fold ≠ EMPTY :=
  ⟨fun hl => hl.1, fun hne => ⟨hne, h.noTomb i hi⟩⟩

/-- A table with fewer entries than slots has an empty slot. -/
theorem exists_empty (h : WF t) (hroom : t.live.length < t.nslot) : ∃ i < t.nslot, (t.slot i).fold = EMPTY := by
  by_contra hno
  push Not at hno
  have hall : t.live = t.entries := by
    refine List.filter_eq_self.mpr fun e he => ?_
    obtain ⟨i, hi, rfl⟩ := mem_entries_iff.mp he
    exact decide_eq_true ((h.live_iff hi).mpr (hno i hi))
  rw [hall] at hroom
  exact Nat.lt_irrefl _ hroom

/-- A fold that a probe does not find is not in the table. -/
theorem slot_of_mem_live (h : WF t) (he : e ∈ t.live) : ∃ i < t.nslot, t.slot i = e ∧ (t.slot i).fold ≠ EMPTY := by
  obtain ⟨hl, i, hi, rfl⟩ := mem_live_iff.mp he
  exact ⟨i, hi, rfl, (h.live_iff hi).mp hl⟩

theorem mem_live (h : WF t) (hi : i < t.nslot) (hne : (t.slot i).fold ≠ EMPTY) : t.slot i ∈ t.live :=
  mem_live_iff.mpr ⟨(h.live_iff hi).mpr hne, i, hi, rfl⟩

/-- The entries of a table have distinct folds. -/
theorem nodup (h : WF t) : (t.live.map (·.fold)).Nodup := by
  have hpair : t.entries.Pairwise fun a b => a.Live → a.fold ≠ b.fold := by
    rw [List.pairwise_iff_getElem]
    intro i j hi hj hij hl heq
    rw [← slot_eq_getElem hi] at hl heq
    rw [← slot_eq_getElem hj] at heq
    exact absurd (h.uniq i hi j hj hl.1 heq) (by omega)
  rw [List.Nodup, List.pairwise_map]
  refine (hpair.filter _).imp_of_mem fun {a b} ha _ hab => hab ?_
  exact (mem_live_iff.mp ha).1

/-- Two entries of a table with one fold are the same entry. -/
theorem eq_of_fold {a b : Entry} (h : WF t) (ha : a ∈ t.live) (hb : b ∈ t.live) (hf : a.fold = b.fold) : a = b := by
  obtain ⟨i, hi, rfl, hne⟩ := h.slot_of_mem_live ha
  obtain ⟨j, hj, rfl, -⟩ := h.slot_of_mem_live hb
  rw [h.uniq i hi j hj hne hf]

/-- Filling an empty slot that a probe for the new fold can reach. -/
theorem fill (h : WF t) (hp : p < t.nslot) (hempty : (t.slot p).fold = EMPTY) (hl : e.Live)
    (hnew : ∀ i < t.nslot, (t.slot i).fold ≠ e.fold)
    (hpath : PathTo t.slot (fun e => e.fold = EMPTY) t.nslot (t.home e.fold) p) : WF (t.set p e) where
  pow := by simpa using h.pow
  big := by simpa using h.big
  noTomb := by
    intro i hi
    rw [slot_set hp]
    split
    · exact hl.2
    · exact h.noTomb i (by simpa using hi)
  uniq := by
    intro i hi j hj
    rw [nslot_set] at hi hj
    rw [slot_set hp, slot_set hp]
    split <;> split <;> rename_i hip hjp
    · exact fun _ _ => hip.trans hjp.symm
    · exact fun _ heq => absurd heq.symm (hnew j hj)
    · exact fun _ heq => absurd heq (hnew i hi)
    · exact h.uniq i hi j hj
  path := by
    have keep : ∀ q, ¬(t.slot q).fold = EMPTY → ¬((t.set p e).slot q).fold = EMPTY := by
      intro q hq
      rw [slot_set hp]
      split
      · exact hl.1
      · exact hq
    intro i hi hne
    rw [nslot_set] at hi
    by_cases hip : i = p
    · subst hip
      simpa [slot_set hp] using hpath.of_nonempty _ keep
    · rw [slot_set hp, if_neg hip] at hne ⊢
      simpa using (h.path i hi hne).of_nonempty _ keep

theorem live_fill (hp : p < t.nslot) (hempty : (t.slot p).fold = EMPTY) (hl : e.Live) :
    (t.set p e).live.Perm (e :: t.live) := by
  have hdead : ¬(t.slot p).Live := fun hlive => hlive.1 hempty
  have hset : t.entries.set p e = t.entries.take p ++ e :: t.entries.drop (p + 1) :=
    List.set_eq_take_append_cons_drop.trans (if_pos hp)
  have hlive : t.live = (t.entries.take p).filter (fun e => e.Live) ++
      (t.entries.drop (p + 1)).filter (fun e => e.Live) := by
    rw [live, congrArg (List.filter _) (entries_split hp), List.filter_append, List.filter_cons,
      if_neg (by simpa using hdead)]
  rw [hlive, live, set, hset, List.filter_append, List.filter_cons, if_pos (decide_eq_true hl)]
  exact List.perm_middle

theorem fold_rewrite (hp : p < t.nslot) (hfold : e.fold = (t.slot p).fold) :
    ((t.set p e).slot i).fold = (t.slot i).fold := by
  rw [slot_set hp]
  split
  · rename_i hi
    rw [hfold, hi]
  · rfl

/-- Rewriting an entry under its own fold. -/
theorem rewrite (h : WF t) (hp : p < t.nslot) (hfold : e.fold = (t.slot p).fold) :
    WF (t.set p e) where
  pow := by simpa using h.pow
  big := by simpa using h.big
  noTomb := by
    intro i hi
    rw [slot_set hp]
    split
    · exact hfold ▸ h.noTomb p hp
    · exact h.noTomb i (by simpa using hi)
  uniq := by
    intro i hi j hj
    rw [fold_rewrite hp hfold, fold_rewrite hp hfold]
    exact h.uniq i (by simpa using hi) j (by simpa using hj)
  path := by
    intro i hi hne
    rw [fold_rewrite hp hfold] at hne ⊢
    simpa using (h.path i (by simpa using hi) hne).of_nonempty (t.set p e).slot
      fun q hq => by rwa [fold_rewrite hp hfold]

/-- The entries after a rewrite: the one of that fold is replaced. -/
theorem live_rewrite (h : WF t) (hp : p < t.nslot) (hl : e.Live) (hfold : e.fold = (t.slot p).fold) :
    (t.set p e).live = t.live.map fun x => if x.fold = e.fold then e else x := by
  have hset : t.entries.set p e = t.entries.map fun x => if x.fold = e.fold then e else x := by
    refine List.ext_getElem (by simp) fun i hi hi' => ?_
    have hi : i < t.entries.length := by simpa using hi
    rw [List.getElem_set, List.getElem_map, ← slot_eq_getElem hi]
    by_cases hip : p = i
    · subst hip
      rw [if_pos rfl, if_pos hfold.symm]
    · rw [if_neg hip, if_neg]
      intro heq
      exact hip (h.uniq p hp i hi (hfold ▸ hl.1) (hfold.symm.trans heq.symm))
  rw [live, live, set, hset, List.filter_map]
  congr 1
  refine List.filter_congr fun x _ => ?_
  by_cases hx : x.fold = e.fold
  · simp [hx, Entry.Live, show e.fold ≠ EMPTY from hl.1, show e.fold ≠ TOMBSTONE from hl.2]
  · simp [hx]

end WF
end Table
end Purgemap
end Cachetag
