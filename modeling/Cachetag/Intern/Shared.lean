import Cachetag.Intern.Registry
import Cachetag.Lib.LinearProbe

/-! What the registry of interned sets keeps while objects come to hold its nodes and let go of them.

`held` lists the nodes that the dense entries point to, one by one. The tables and the books are kept apart:
a migration moves nodes between the tables and leaves the books alone. -/

namespace Cachetag
open Chains LinearProbe

/-! ### Sorting -/

theorem internShift_perm (fold : Nat) (before : List Nat) : (internShift fold before).Perm (fold :: before) := by
  induction before with
  | nil => exact .refl _
  | cons prev before ih =>
    unfold internShift
    split
    · exact (ih.cons prev).trans (.swap fold prev before)
    · exact .refl _

theorem internShift_sorted {fold : Nat} {before : List Nat} (h : before.Pairwise (· ≥ ·)) :
    (internShift fold before).Pairwise (· ≥ ·) := by
  induction before with
  | nil => exact List.pairwise_singleton _ _
  | cons prev before ih =>
    obtain ⟨hprev, htail⟩ := List.pairwise_cons.mp h
    unfold internShift
    split
    · rename_i hlt
      refine List.pairwise_cons.mpr ⟨fun x hx => ?_, ih htail⟩
      rcases List.mem_cons.mp ((internShift_perm fold before).mem_iff.mp hx) with rfl | hx
      · exact Nat.le_of_lt hlt
      · exact hprev x hx
    · rename_i hle
      refine List.pairwise_cons.mpr ⟨fun x hx => ?_, h⟩
      rcases List.mem_cons.mp hx with rfl | hx
      · exact Nat.le_of_not_lt hle
      · exact Nat.le_trans (hprev x hx) (Nat.le_of_not_lt hle)

/-- The folds inserted so far, seen from the last one on. -/
theorem foldl_internShift (folds before : List Nat) (h : before.Pairwise (· ≥ ·)) :
    (folds.foldl (fun before fold => internShift fold before) before).Perm (folds ++ before) ∧
      (folds.foldl (fun before fold => internShift fold before) before).Pairwise (· ≥ ·) := by
  induction folds generalizing before with
  | nil => exact ⟨.refl _, h⟩
  | cons fold folds ih =>
    obtain ⟨hperm, hsorted⟩ := ih _ (@internShift_sorted fold _ h)
    refine ⟨hperm.trans (((internShift_perm fold before).append_left folds).trans ?_), hsorted⟩
    exact List.perm_middle

theorem internSort_perm (folds : List Nat) : (internSort folds).Perm folds := by
  unfold internSort
  split
  · exact List.mergeSort_perm folds _
  · have h := (foldl_internShift folds [] List.Pairwise.nil).1
    rw [List.append_nil] at h
    exact (List.reverse_perm _).trans h

theorem internSort_sorted (folds : List Nat) : (internSort folds).Pairwise (· ≤ ·) := by
  unfold internSort
  split
  · have h := @List.pairwise_mergeSort _ (fun a b : Nat => decide (a ≤ b))
      (fun a b c hab hbc => by simp at hab hbc ⊢; omega) (fun a b => by simp; omega) folds
    exact h.imp fun hab => by simpa using hab
  · exact List.pairwise_reverse.mpr (foldl_internShift folds [] List.Pairwise.nil).2

theorem length_internSort (folds : List Nat) : (internSort folds).length = folds.length :=
  (internSort_perm folds).length_eq

namespace Registry

variable {hash : List Nat → Nat} {r r' : Registry} {held held' : List Nat} {n m : Nat} {folds : List Nat}

/-! ### Nodes -/

/-- The node `n`; an empty one where no node has been published under this number. -/
def setAt (r : Registry) (n : Nat) : InternedSet := r.nodes.getD n ⟨0, 0, 0, []⟩

/-- One of the two tables. -/
def table (r : Registry) (old : Bool) : List (List Nat) := if old then r.oldBuckets else r.buckets

/-- The chain of a table with `nbuckets` buckets that the hash of a node selects. -/
def place (r : Registry) (nbuckets n : Nat) : Nat := internBucketFor nbuckets (r.setAt n).hash

theorem getElem?_of_lt (h : n < r.nodes.length) : r.nodes[n]? = some (r.setAt n) := by
  rw [setAt, List.getD_eq_getElem _ _ h]
  exact List.getElem?_eq_getElem h

theorem setAt_of_getElem? {set : InternedSet} (h : r.nodes[n]? = some set) : r.setAt n = set := by
  rw [setAt, List.getD_eq_getElem?_getD, h, Option.getD_some]

theorem setAt_setRefs {k : Nat} : (r.setRefs n k).setAt m =
    if m = n ∧ n < r.nodes.length then { r.setAt n with refs := k } else r.setAt m := by
  unfold setAt setRefs
  dsimp only
  rw [List.getD_eq_getElem?_getD, List.getElem?_modify]
  by_cases hm : m = n
  · subst hm
    by_cases hlt : m < r.nodes.length
    · simp [hlt]
    · simp [hlt]
  · have : ¬n = m := fun h => hm h.symm
    simp [this, hm]

/-- What a node is, whatever its count. -/
structure Canonical (hash : List Nat → Nat) (set : InternedSet) : Prop where
  nfolds : set.nfolds = set.folds.length
  hash : set.hash = hash set.folds
  multi : 2 ≤ set.folds.length
  sorted : set.folds.Pairwise (· ≤ ·)

/-! ### Tables -/

/-- The shape of the two tables. -/
structure Tables (r : Registry) : Prop where
  pow : ∀ old, (r.table old).length ≠ 0 → PowTwo (r.table old).length
  active : r.migrationActive = true ↔ r.oldBuckets.length ≠ 0
  both : r.oldBuckets.length ≠ 0 → r.buckets.length ≠ 0
  cursor : r.migrateCursor ≤ r.oldBuckets.length
  passed : ∀ b < r.migrateCursor, chain r.oldBuckets b = []
  keyed : ∀ old, Keyed (r.place (r.table old).length) (r.table old)

/-! ### Books -/

/-- The books of a registry that has the nodes of `l` in its tables. -/
structure Books (hash : List Nat → Nat) (r : Registry) (l held : List Nat) : Prop where
  valid : ∀ n ∈ held, n < r.nodes.length
  node : ∀ n < r.nodes.length, Canonical hash (r.setAt n)
  counted : ∀ n ∈ held, (r.setAt n).refs = held.count n
  once : l.Nodup
  live : ∀ n, n ∈ l ↔ n ∈ held
  unique : ∀ n ∈ held, ∀ m ∈ held, (r.setAt n).folds = (r.setAt m).folds → n = m
  sets : r.sets = l.length
  refs : r.refs = held.length
  bytes : r.bytes = (l.map fun n => (r.setAt n).bytes).sum
  overflow : r.overflowSets = l.countP fun n => objcountOverflow ≤ (r.setAt n).nfolds
  detached : ∀ n, n ∈ r.detached ↔ n < r.nodes.length ∧ n ∉ held
  detachedOnce : r.detached.Nodup

/-- The invariant of the registry. -/
structure Shared (hash : List Nat → Nat) (r : Registry) (held : List Nat) : Prop where
  tables : Tables r
  books : Books hash r r.linked held

theorem Tables.lt (h : Tables r) {old : Bool} (hne : (r.table old).length ≠ 0) (n : Nat) :
    r.place (r.table old).length n < (r.table old).length := by
  rw [place, internBucketFor, and_mask (h.pow old hne)]
  exact Nat.mod_lt _ (h.pow old hne).pos

theorem mem_linked {old : Bool} (hn : n ∈ (r.table old).flatten) : n ∈ r.linked := by
  cases old with
  | false => exact List.mem_append_left _ hn
  | true => exact List.mem_append_right _ hn

/-- The tables, of which only the nodes matter that are in them. -/
theorem Tables.of_hash (h : Tables r) (hb : r'.buckets = r.buckets) (ho : r'.oldBuckets = r.oldBuckets)
    (hc : r'.migrateCursor = r.migrateCursor) (ha : r'.migrationActive = r.migrationActive)
    (hs : ∀ n ∈ r.linked, (r'.setAt n).hash = (r.setAt n).hash) : Tables r' := by
  have ht : ∀ old, r'.table old = r.table old := fun old => by cases old <;> simp [table, hb, ho]
  refine ⟨fun old => ht old ▸ h.pow old, ?_, ?_, ?_, ?_, fun old => ?_⟩
  · rw [ha, ho]
    exact h.active
  · rw [ho, hb]
    exact h.both
  · rw [hc, ho]
    exact h.cursor
  · rw [hc, ho]
    exact h.passed
  · rw [ht]
    refine (h.keyed old).congr fun n hn => ?_
    rw [place, place, hs n (mem_linked hn)]

theorem Books.perm {l l' : List Nat} (h : Books hash r l held) (hl : l'.Perm l) (hh : held'.Perm held) :
    Books hash r l' held' where
  valid n hn := h.valid n (hh.mem_iff.mp hn)
  node := h.node
  counted n hn := (h.counted n (hh.mem_iff.mp hn)).trans (hh.count_eq n).symm
  once := hl.nodup_iff.mpr h.once
  live n := by rw [hl.mem_iff, hh.mem_iff, h.live]
  unique n hn m hm := h.unique n (hh.mem_iff.mp hn) m (hh.mem_iff.mp hm)
  sets := h.sets.trans hl.length_eq.symm
  refs := h.refs.trans hh.length_eq.symm
  bytes := h.bytes.trans (hl.map _).sum_eq.symm
  overflow := h.overflow.trans (hl.countP_eq _).symm
  detached n := by rw [h.detached, hh.mem_iff]
  detachedOnce := h.detachedOnce

/-- The same books in a registry that differs in its tables only. -/
theorem Books.moved {l : List Nat} (h : Books hash r l held) (hn : r'.nodes = r.nodes) (hs : r'.sets = r.sets)
    (hr : r'.refs = r.refs) (hb : r'.bytes = r.bytes) (ho : r'.overflowSets = r.overflowSets)
    (hd : r'.detached = r.detached) : Books hash r' l held := by
  have hset : ∀ n, r'.setAt n = r.setAt n := fun n => by rw [setAt, hn, setAt]
  exact
    { valid := hn ▸ h.valid
      node := fun n hlt => by
        rw [hset]
        exact h.node n (hn ▸ hlt)
      counted := fun n hmem => by
        rw [hset]
        exact h.counted n hmem
      once := h.once
      live := h.live
      unique := fun n hmem m hmem' => by
        rw [hset, hset]
        exact h.unique n hmem m hmem'
      sets := hs.trans h.sets
      refs := hr.trans h.refs
      bytes := by
        simp only [hset]
        exact hb.trans h.bytes
      overflow := by
        simp only [hset]
        exact ho.trans h.overflow
      detached := by
        rw [hd, hn]
        exact h.detached
      detachedOnce := hd ▸ h.detachedOnce }

theorem Shared.perm (h : Shared hash r held) (hh : held'.Perm held) : Shared hash r held' :=
  ⟨h.tables, h.books.perm (.refl _) hh⟩

theorem Shared.new : Shared hash Registry.new [] where
  tables :=
    { pow := fun old => by cases old <;> simp [table, Registry.new]
      active := by simp [Registry.new]
      both := by simp [Registry.new]
      cursor := Nat.le_refl _
      passed := fun b hb => absurd hb (Nat.not_lt_zero b)
      keyed := fun old b n hn => by cases old <;> simp [table, Registry.new, chain] at hn }
  books :=
    { valid := by simp
      node := by simp [Registry.new]
      counted := by simp
      once := List.nodup_nil
      live := by simp [linked, Registry.new]
      unique := by simp
      sets := rfl
      refs := rfl
      bytes := rfl
      overflow := rfl
      detached := by simp [Registry.new]
      detachedOnce := List.nodup_nil }

/-! ### Migration and growth -/

/-- What a step leaves that moves nodes between the tables or exchanges a table. -/
structure Moves (r r' : Registry) : Prop where
  nodes : r'.nodes = r.nodes
  detached : r'.detached = r.detached

theorem Moves.trans {r'' : Registry} (h₁ : Moves r r') (h₂ : Moves r' r'') : Moves r r'' :=
  ⟨h₂.nodes.trans h₁.nodes, h₂.detached.trans h₁.detached⟩

theorem Shared.endMigration (h : Shared hash r held) (hend : r.migrateCursor = r.oldBuckets.length) :
    Shared hash r.endMigration held := by
  have hold : r.oldBuckets.flatten = [] := by
    rw [List.eq_nil_iff_forall_not_mem]
    intro n hn
    obtain ⟨b, hb⟩ := mem_flatten_iff.mp hn
    have := chain_lt hb
    rw [h.tables.passed b (by omega)] at hb
    cases hb
  refine ⟨?_, ?_⟩
  · have ht := h.tables
    exact
      { pow := fun old => by
          cases old with
          | false => exact ht.pow false
          | true => exact fun hne => absurd rfl hne
        active := by simp [Registry.endMigration]
        both := fun hne => absurd rfl hne
        cursor := Nat.le_refl _
        passed := fun b hb => absurd hb (Nat.not_lt_zero b)
        keyed := fun old => by
          cases old with
          | false => exact ht.keyed false
          | true => exact fun b n hn => by simp [table, Registry.endMigration, chain] at hn }
  · have hl : r.endMigration.linked = r.linked := by
      rw [linked, linked, hold]
      rfl
    rw [hl]
    exact h.books.moved rfl rfl rfl rfl rfl rfl

theorem Shared.migrateStep (h : Shared hash r held) (hactive : r.migrationActive = true) :
    Shared hash r.migrateStep held ∧ Moves r r.migrateStep := by
  have ht := h.tables
  have hold := ht.active.mp hactive
  have hnew := ht.both hold
  unfold Registry.migrateStep
  split
  · rename_i hend
    exact ⟨h.endMigration hend, rfl, rfl⟩
  · rename_i hend
    cases hc : chain r.oldBuckets r.migrateCursor with
    -- An empty chain is passed, and the cursor moves on.
    | nil =>
      refine ⟨⟨?_, h.books.moved rfl rfl rfl rfl rfl rfl⟩, rfl, rfl⟩
      exact
        { pow := ht.pow
          active := ht.active
          both := ht.both
          cursor := Nat.lt_of_le_of_ne ht.cursor hend
          passed := fun b hb => by
            rcases Nat.lt_succ_iff_lt_or_eq.mp hb with hb | rfl
            · exact ht.passed b hb
            · exact hc
          keyed := ht.keyed }
    -- The first node of the chain moves, and the cursor stays.
    | cons n rest =>
      have hmem : n ∈ chain r.oldBuckets r.migrateCursor := by
        rw [hc]
        exact List.mem_cons_self
      have hlinked : n ∈ r.linked := List.mem_append_right _ (mem_flatten_iff.mpr ⟨_, hmem⟩)
      have hvalid := h.books.valid n ((h.books.live n).mp hlinked)
      simp only [getElem?_of_lt hvalid]
      have hb : r.place r.buckets.length n < r.buckets.length := @Tables.lt _ ht false hnew n
      refine ⟨⟨?_, ?_⟩, rfl, rfl⟩
      · exact
          { pow := fun old => by
              cases old with
              | false => simpa [table] using ht.pow false
              | true => simpa [table] using ht.pow true
            active := by simpa using ht.active
            both := by simpa using ht.both
            cursor := by simpa using ht.cursor
            passed := fun b hb => by
              rw [chain_unlink, if_neg (Nat.ne_of_lt hb)]
              exact ht.passed b hb
            keyed := fun old => by
              cases old with
              | false =>
                show Keyed (r.place (push r.buckets (r.place r.buckets.length n) n).length) _
                rw [length_push]
                exact (ht.keyed false).push hb rfl
              | true =>
                show Keyed (r.place (unlink r.oldBuckets r.migrateCursor n).length) _
                rw [length_unlink]
                exact (ht.keyed true).unlink }
      · refine (h.books.perm ?_ (.refl _)).moved rfl rfl rfl rfl rfl rfl
        have hpush := flatten_push hb (x := n)
        have hpop := flatten_unlink hmem
        show ((push r.buckets (r.place r.buckets.length n) n).flatten ++
          (unlink r.oldBuckets r.migrateCursor n).flatten).Perm (r.buckets.flatten ++ r.oldBuckets.flatten)
        refine (hpush.append_right _).trans (List.perm_middle.symm.trans ?_)
        exact hpop.symm.append_left _

theorem Shared.migrateLoop (h : Shared hash r held) (steps : Nat) :
    Shared hash (migrateLoop steps r) held ∧ Moves r (migrateLoop steps r) := by
  induction steps generalizing r with
  | zero => exact ⟨h, rfl, rfl⟩
  | succ steps ih =>
    unfold Registry.migrateLoop
    split
    · rename_i hactive
      obtain ⟨hs, hm⟩ := h.migrateStep hactive
      obtain ⟨hs', hm'⟩ := ih hs
      exact ⟨hs', hm.trans hm'⟩
    · exact ⟨h, rfl, rfl⟩

theorem Shared.migrate (h : Shared hash r held) (steps : Nat) :
    Shared hash (r.migrate steps) held ∧ Moves r (r.migrate steps) := by
  obtain ⟨hs, hm⟩ := h.migrateLoop steps
  unfold Registry.migrate
  dsimp only
  split
  · rename_i hend
    exact ⟨hs.endMigration hend.2, hm.trans ⟨rfl, rfl⟩⟩
  · exact ⟨hs, hm⟩

/-- A new table takes the place of the old one, which keeps its nodes. -/
theorem Shared.publishTable (h : Shared hash r held) {nbuckets generation : Nat}
    (hr : r.publishTable nbuckets generation = some r') : Shared hash r' held ∧ Moves r r' := by
  have ht := h.tables
  unfold Registry.publishTable at hr
  split_ifs at hr with hbad hnull hinit hstale
  · cases hr
    have hnone : r.oldBuckets = [] := by
      by_contra hne
      exact ht.both (by simpa using hne) hnull
    obtain ⟨-, -, hidle, -⟩ : nbuckets ≠ 0 ∧ _ ∧ ¬r.migrationActive = true ∧ _ := by simpa [not_or] using hbad
    rw [not_not.mp hinit]
    refine ⟨⟨?_, ?_⟩, rfl, rfl⟩
    · exact
        { pow := fun old => by
            cases old with
            | false => exact fun _ => ⟨6, by simp [table, internInitialBuckets]⟩
            | true => simp [table, hnone]
          active := ht.active
          both := by simp [hnone]
          cursor := ht.cursor
          passed := ht.passed
          keyed := fun old => by
            cases old with
            | false => exact Keyed.replicate _
            | true => exact ht.keyed true }
    -- The first table: there is nothing to be found yet.
    · have hl : r.buckets.flatten = [] := by
        rw [List.length_eq_zero_iff.mp hnull]
        rfl
      refine (h.books.perm ?_ (.refl _)).moved rfl rfl rfl rfl rfl rfl
      simp [linked, hl]
  · cases hr
    obtain ⟨hdouble, -⟩ := not_or.mp hstale
    obtain ⟨-, -, hidle, -⟩ : nbuckets ≠ 0 ∧ _ ∧ ¬r.migrationActive = true ∧ _ := by simpa [not_or] using hbad
    have hnone : r.oldBuckets = [] := by
      by_contra hne
      exact hidle (ht.active.mpr (by simpa using hne))
    rw [not_not.mp hdouble]
    refine ⟨⟨?_, ?_⟩, rfl, rfl⟩
    · exact
        { pow := fun old => by
            cases old with
            | false =>
              intro _
              simpa only [table, Bool.false_eq_true, if_false, List.length_replicate] using (ht.pow false hnull).double
            | true => exact ht.pow false
          active := by simpa using hnull
          both := by simp
          cursor := Nat.zero_le _
          passed := fun b hb => absurd hb (Nat.not_lt_zero b)
          keyed := fun old => by
            cases old with
            | false => exact Keyed.replicate _
            | true => exact ht.keyed false }
    -- The table of before is the old one now, so that every node stays linked.
    · refine (h.books.perm ?_ (.refl _)).moved rfl rfl rfl rfl rfl rfl
      simp [linked, hnone]

/-! ### References -/

theorem lookupTable_some {old : Bool} (hl : r.lookupTable (r.table old) folds (hash folds) = some n) :
    n ∈ r.linked ∧ n < r.nodes.length ∧ (r.setAt n).folds = folds := by
  unfold lookupTable at hl
  split at hl
  · cases hl
  · have hmem := List.mem_of_find?_eq_some hl
    have hmatch := List.find?_some hl
    cases hn : r.nodes[n]? with
    | none => simp [hn] at hmatch
    | some set =>
      simp only [hn, Bool.decide_and, Bool.and_eq_true, decide_eq_true_eq] at hmatch
      have hset := setAt_of_getElem? hn
      refine ⟨?_, (List.getElem?_eq_some_iff.mp hn).1, by rw [hset]; exact hmatch.2.2⟩
      have := mem_flatten_iff.mpr ⟨_, hmem⟩
      cases old with
      | false => exact List.mem_append_left _ this
      | true => exact List.mem_append_right _ this

theorem Shared.lookupTable_none (h : Shared hash r held) {old : Bool}
    (hl : r.lookupTable (r.table old) folds (hash folds) = none) (hn : n ∈ (r.table old).flatten) :
    (r.setAt n).folds ≠ folds := by
  intro hfolds
  have hlinked : n ∈ r.linked := by
    cases old with
    | false => exact List.mem_append_left _ hn
    | true => exact List.mem_append_right _ hn
  have hvalid := h.books.valid n ((h.books.live n).mp hlinked)
  have hnode := h.books.node n hvalid
  have hplace := (h.tables.keyed old).mem hn
  unfold lookupTable at hl
  rw [if_neg (by have := chain_lt hplace; omega)] at hl
  unfold place at hplace
  rw [hnode.hash, hfolds] at hplace
  have := List.find?_eq_none.mp hl n hplace
  simp [getElem?_of_lt hvalid, hnode.hash, hnode.nfolds, hfolds] at this

theorem folds_setRefs {k : Nat} : ((r.setRefs n k).setAt m).folds = (r.setAt m).folds := by
  rw [setAt_setRefs]
  split
  · rename_i h
    rw [h.1]
  · rfl

theorem nfolds_setRefs {k : Nat} : ((r.setRefs n k).setAt m).nfolds = (r.setAt m).nfolds := by
  rw [setAt_setRefs]
  split
  · rename_i h
    rw [h.1]
  · rfl

theorem hash_setRefs {k : Nat} : ((r.setRefs n k).setAt m).hash = (r.setAt m).hash := by
  rw [setAt_setRefs]
  split
  · rename_i h
    rw [h.1]
  · rfl

@[simp] theorem length_setRefs {k : Nat} : (r.setRefs n k).nodes.length = r.nodes.length := List.length_modify ..

theorem Canonical.setRefs {k : Nat} (h : Canonical hash (r.setAt m)) : Canonical hash ((r.setRefs n k).setAt m) where
  nfolds := by rw [nfolds_setRefs, folds_setRefs, h.nfolds]
  hash := by rw [hash_setRefs, folds_setRefs, h.hash]
  multi := by rw [folds_setRefs]; exact h.multi
  sorted := by rw [folds_setRefs]; exact h.sorted

/-- What a published node says stays as it is. -/
structure Extends (r r' : Registry) : Prop where
  length : r.nodes.length ≤ r'.nodes.length
  folds : ∀ n < r.nodes.length, (r'.setAt n).folds = (r.setAt n).folds
  nfolds : ∀ n < r.nodes.length, (r'.setAt n).nfolds = (r.setAt n).nfolds

theorem Extends.refl : Extends r r := ⟨Nat.le_refl _, fun _ _ => rfl, fun _ _ => rfl⟩

theorem Extends.trans {r'' : Registry} (h₁ : Extends r r') (h₂ : Extends r' r'') : Extends r r'' where
  length := Nat.le_trans h₁.length h₂.length
  folds n hn := (h₂.folds n (Nat.lt_of_lt_of_le hn h₁.length)).trans (h₁.folds n hn)
  nfolds n hn := (h₂.nfolds n (Nat.lt_of_lt_of_le hn h₁.length)).trans (h₁.nfolds n hn)

theorem Moves.extends (h : Moves r r') : Extends r r' := by
  have hset : ∀ n, r'.setAt n = r.setAt n := fun n => by rw [setAt, h.nodes, setAt]
  exact ⟨Nat.le_of_eq (by rw [h.nodes]), fun n _ => by rw [hset], fun n _ => by rw [hset]⟩

theorem Extends.setRefs {k : Nat} (hn : r'.nodes = (r.setRefs n k).nodes) : Extends r r' := by
  have hset : ∀ m, r'.setAt m = (r.setRefs n k).setAt m := fun m => by rw [setAt, hn, setAt]
  exact ⟨Nat.le_of_eq (by rw [hn, length_setRefs]), fun m _ => by rw [hset, folds_setRefs],
    fun m _ => by rw [hset, nfolds_setRefs]⟩

/-- The books after a change of one count. -/
theorem Books.setRefs {l : List Nat} {k refs : Nat} (h : Books hash r l held) (hn : n ∈ l)
    (hheld : ∀ m, m ∈ held' ↔ m ∈ held) (hk : k = held'.count n) (hcount : ∀ m ≠ n, held'.count m = held.count m)
    (hrefs : refs = held'.length) : Books hash { r.setRefs n k with refs } l held' := by
  have hset : ∀ m, Registry.setAt { r.setRefs n k with refs } m = (r.setRefs n k).setAt m := fun _ => rfl
  have hvalid := h.valid n ((h.live n).mp hn)
  exact
    { valid := fun m hm => by
        have := h.valid m ((hheld m).mp hm)
        rwa [← length_setRefs (n := n) (k := k)] at this
      node := fun m hm => by
        rw [hset]
        exact (h.node m (by rwa [← length_setRefs (n := n) (k := k)])).setRefs
      counted := fun m hm => by
        rw [hset, setAt_setRefs]
        by_cases hmn : m = n
        · rw [if_pos ⟨hmn, hvalid⟩, hmn, hk]
        · rw [if_neg (fun hc => hmn hc.1), hcount m hmn]
          exact h.counted m ((hheld m).mp hm)
      once := h.once
      live := fun m => by rw [h.live, hheld]
      unique := fun m hm m' hm' => by
        rw [hset, hset, folds_setRefs, folds_setRefs]
        exact h.unique m ((hheld m).mp hm) m' ((hheld m').mp hm')
      sets := h.sets
      refs := hrefs
      bytes := by
        have : ∀ m, (Registry.setAt { r.setRefs n k with refs } m).bytes = (r.setAt m).bytes := fun m => by
          rw [hset, InternedSet.bytes, nfolds_setRefs, InternedSet.bytes]
        simp only [this]
        exact h.bytes
      overflow := by
        simp only [hset, nfolds_setRefs]
        exact h.overflow
      detached := fun m => by
        rw [hheld]
        have := h.detached m
        rwa [← length_setRefs (n := n) (k := k)] at this
      detachedOnce := h.detachedOnce }

theorem Shared.lookup_some (h : Shared hash r held) (hl : r.lookup folds (hash folds) = (some n, r')) :
    Shared hash r' (n :: held) ∧ Extends r r' ∧ n < r.nodes.length ∧ (r.setAt n).folds = folds := by
  unfold Registry.lookup at hl
  cases hf : (r.lookupTable r.buckets folds (hash folds)).or (r.lookupTable r.oldBuckets folds (hash folds)) with
  | none =>
    rw [hf] at hl
    cases hl
  | some m =>
    rw [hf] at hl
    cases hl
    have hfound : n ∈ r.linked ∧ n < r.nodes.length ∧ (r.setAt n).folds = folds := by
      rcases Option.or_eq_some_iff.mp hf with hf | ⟨-, hf⟩
      · exact @lookupTable_some _ _ _ _ false hf
      · exact @lookupTable_some _ _ _ _ true hf
    obtain ⟨hlinked, hvalid, hfolds⟩ := hfound
    have hheld := (h.books.live n).mp hlinked
    refine ⟨⟨?_, ?_⟩, .setRefs rfl, hvalid, hfolds⟩
    · exact h.tables.of_hash rfl rfl rfl rfl fun m _ => hash_setRefs
    · refine h.books.setRefs hlinked (fun m => ?_) ?_ (fun m hm => ?_) ?_
      · rw [List.mem_cons]
        exact ⟨fun hm => hm.elim (fun heq => heq ▸ hheld) id, Or.inr⟩
      · rw [List.count_cons_self, ← h.books.counted n hheld, refsOf, getElem?_of_lt hvalid]
      · exact List.count_cons_of_ne (Ne.symm hm)
      · rw [List.length_cons, h.books.refs]

theorem Shared.lookup_none (h : Shared hash r held) (hl : r.lookup folds (hash folds) = (none, r')) :
    r' = r ∧ ∀ n ∈ held, (r.setAt n).folds ≠ folds := by
  unfold Registry.lookup at hl
  cases hf : (r.lookupTable r.buckets folds (hash folds)).or (r.lookupTable r.oldBuckets folds (hash folds)) with
  | some m =>
    rw [hf] at hl
    cases hl
  | none =>
    rw [hf] at hl
    cases hl
    obtain ⟨hnew, hold⟩ := Option.or_eq_none_iff.mp hf
    refine ⟨rfl, fun n hn => ?_⟩
    rcases List.mem_append.mp ((h.books.live n).mpr hn) with hmem | hmem
    · exact @Shared.lookupTable_none _ _ _ _ _ h false hnew hmem
    · exact @Shared.lookupTable_none _ _ _ _ _ h true hold hmem

theorem setAt_append {set : InternedSet} (hn : r'.nodes = r.nodes ++ [set]) :
    r'.setAt m = if m = r.nodes.length then set else r.setAt m := by
  rw [setAt, hn, List.getD_eq_getElem?_getD, List.getElem?_append]
  split_ifs with hlt heq heq
  · omega
  · rw [setAt, List.getD_eq_getElem?_getD]
  · simp [heq]
  · rw [setAt, List.getD_eq_getElem?_getD, List.getElem?_eq_none (by simp; omega), List.getElem?_eq_none (by omega)]

/-! ### A new node -/

theorem setAt_publish {candidate : InternedSet} : (r.publish candidate).2.setAt m =
    if m = r.nodes.length then { candidate with refs := 1 } else r.setAt m :=
  setAt_append rfl

/-- The new node is in the chain that its hash selects, the others are where they were. -/
theorem Tables.publish (h : Tables r) {candidate : InternedSet} (hnew : r.buckets.length ≠ 0)
    (hvalid : ∀ n ∈ r.linked, n < r.nodes.length) : Tables (r.publish candidate).2 := by
  have hplace : internBucketFor r.buckets.length candidate.hash < r.buckets.length := by
    rw [internBucketFor, and_mask (show PowTwo r.buckets.length from h.pow false hnew)]
    exact Nat.mod_lt _ (Nat.pos_of_ne_zero hnew)
  -- a node that is linked is not the new one, and keeps its hash
  have hkeyed : ∀ old, Keyed ((r.publish candidate).2.place (r.table old).length) (r.table old) := fun old => by
    refine (h.keyed old).congr fun m hm => ?_
    have hne : m ≠ r.nodes.length := Nat.ne_of_lt (hvalid m (mem_linked hm))
    rw [place, place, setAt_publish, if_neg hne]
  exact
    { pow := fun old => by
        cases old with
        | false => simpa [table, Registry.publish] using h.pow false
        | true => exact h.pow true
      active := h.active
      both := by simpa [Registry.publish] using h.both
      cursor := h.cursor
      passed := h.passed
      keyed := fun old => by
        cases old with
        | false =>
          show Keyed ((r.publish candidate).2.place (push r.buckets _ r.nodes.length).length) _
          rw [length_push]
          refine (hkeyed false).push hplace ?_
          rw [place, setAt_publish, if_pos rfl]
          rfl
        | true => exact hkeyed true }

/-- The books with a new node, which one reference holds. -/
theorem Books.publish {l : List Nat} (h : Books hash r l held) {candidate : InternedSet}
    (hgood : Canonical hash candidate) (hfresh : ∀ n ∈ held, (r.setAt n).folds ≠ candidate.folds) :
    Books hash (r.publish candidate).2 (r.nodes.length :: l) (r.nodes.length :: held) := by
  have hlen : (r.publish candidate).2.nodes.length = r.nodes.length + 1 := List.length_append
  have hne : ∀ m ∈ held, m ≠ r.nodes.length := fun m hm => Nat.ne_of_lt (h.valid m hm)
  have hnotin : r.nodes.length ∉ held := fun hm => hne _ hm rfl
  have hat : ∀ m ∈ held, (r.publish candidate).2.setAt m = r.setAt m := fun m hm => by
    rw [setAt_publish, if_neg (hne m hm)]
  have hatNew : (r.publish candidate).2.setAt r.nodes.length = { candidate with refs := 1 } := by
    rw [setAt_publish, if_pos rfl]
  exact
    { valid := fun m hm => by
        rw [hlen]
        rcases List.mem_cons.mp hm with rfl | hm
        · exact Nat.lt_succ_self _
        · exact Nat.lt_succ_of_lt (h.valid m hm)
      node := fun m hm => by
        rw [setAt_publish]
        split
        · exact ⟨hgood.nfolds, hgood.hash, hgood.multi, hgood.sorted⟩
        · exact h.node m (by omega)
      counted := fun m hm => by
        rcases List.mem_cons.mp hm with rfl | hm
        · rw [hatNew, List.count_cons_self, List.count_eq_zero_of_not_mem hnotin]
        · rw [hat m hm, List.count_cons_of_ne (Ne.symm (hne m hm))]
          exact h.counted m hm
      once := List.nodup_cons.mpr ⟨fun hm => hnotin ((h.live _).mp hm), h.once⟩
      live := fun m => by rw [List.mem_cons, List.mem_cons, h.live]
      unique := fun m hm m' hm' => by
        -- two nodes that were held keep their folds, and the new one has folds that no other has
        rcases List.mem_cons.mp hm with heq | hold <;> rcases List.mem_cons.mp hm' with heq' | hold'
        · exact fun _ => heq.trans heq'.symm
        · rw [heq, hatNew, hat m' hold']
          exact fun hf => absurd hf.symm (hfresh m' hold')
        · rw [heq', hatNew, hat m hold]
          exact fun hf => absurd hf (hfresh m hold)
        · rw [hat m hold, hat m' hold']
          exact h.unique m hold m' hold'
      sets := by
        rw [List.length_cons, ← h.sets]
        rfl
      refs := by
        rw [List.length_cons, ← h.refs]
        rfl
      bytes := by
        have hmap : l.map (fun m => ((r.publish candidate).2.setAt m).bytes) = l.map fun m => (r.setAt m).bytes :=
          List.map_congr_left fun m hm => by rw [hat m ((h.live m).mp hm)]
        rw [List.map_cons, List.sum_cons, hmap, ← h.bytes, hatNew]
        exact Nat.add_comm _ _
      overflow := by
        have hcount : l.countP (fun m => decide (objcountOverflow ≤ ((r.publish candidate).2.setAt m).nfolds)) =
            l.countP fun m => decide (objcountOverflow ≤ (r.setAt m).nfolds) :=
          List.countP_congr fun m hm => by rw [hat m ((h.live m).mp hm)]
        rw [List.countP_cons, hatNew, hcount, ← h.overflow]
        show r.overflowSets + _ = r.overflowSets + _
        simp
      detached := fun m => by
        show m ∈ r.detached ↔ _
        rw [h.detached, hlen, List.mem_cons, not_or]
        exact ⟨fun hm => ⟨by omega, by omega, hm.2⟩, fun hm => ⟨by omega, hm.2.2⟩⟩
      detachedOnce := h.detachedOnce }

/-- A new node, for folds that no node has. -/
theorem Shared.publish (h : Shared hash r held) {candidate : InternedSet} (hnew : r.buckets.length ≠ 0)
    (hgood : Canonical hash candidate) (hfresh : ∀ n ∈ held, (r.setAt n).folds ≠ candidate.folds) :
    Shared hash (r.publish candidate).2 ((r.publish candidate).1 :: held) ∧ Extends r (r.publish candidate).2 ∧
      (r.publish candidate).1 < (r.publish candidate).2.nodes.length ∧
      ((r.publish candidate).2.setAt (r.publish candidate).1).folds = candidate.folds := by
  have hvalid : ∀ n ∈ r.linked, n < r.nodes.length := fun n hn => h.books.valid n ((h.books.live n).mp hn)
  have htables : Tables (r.publish candidate).2 := h.tables.publish hnew hvalid
  have hlen : (r.publish candidate).2.nodes.length = r.nodes.length + 1 := List.length_append
  have hplace : internBucketFor r.buckets.length candidate.hash < r.buckets.length := by
    rw [internBucketFor, and_mask (show PowTwo r.buckets.length from h.tables.pow false hnew)]
    exact Nat.mod_lt _ (Nat.pos_of_ne_zero hnew)
  have hlinked : (r.publish candidate).2.linked.Perm (r.nodes.length :: r.linked) := (flatten_push hplace).append_right _
  refine ⟨⟨htables, (h.books.publish hgood hfresh).perm hlinked (.refl _)⟩, ⟨by omega, fun m hm => ?_, fun m hm => ?_⟩,
    ?_, ?_⟩
  · rw [setAt_publish, if_neg (Nat.ne_of_lt hm)]
  · rw [setAt_publish, if_neg (Nat.ne_of_lt hm)]
  · rw [hlen]
    exact Nat.lt_succ_self _
  · rw [setAt_publish, if_pos (show (r.publish candidate).1 = r.nodes.length from rfl)]

/-! ### The end of a node -/

/-- What the end of the node `n` does to the tables: it leaves its chain, and nothing else moves. -/
structure Unlinked (n : Nat) (r r' : Registry) : Prop where
  linked : r.linked.Perm (n :: r'.linked)
  length : ∀ old, (r'.table old).length = (r.table old).length
  chain : ∀ old b, ∀ m ∈ chain (r'.table old) b, m ∈ chain (r.table old) b
  cursor : r'.migrateCursor = r.migrateCursor
  active : r'.migrationActive = r.migrationActive

theorem Tables.unlinked (h : Tables r) (hu : Unlinked n r r') (hhash : ∀ m, (r'.setAt m).hash = (r.setAt m).hash) :
    Tables r' := by
  have hnew : r'.buckets.length = r.buckets.length := hu.length false
  have hold : r'.oldBuckets.length = r.oldBuckets.length := hu.length true
  exact
    { pow := fun old => by
        rw [hu.length]
        exact h.pow old
      active := by
        rw [hu.active, hold]
        exact h.active
      both := by
        rw [hnew, hold]
        exact h.both
      cursor := by
        rw [hu.cursor, hold]
        exact h.cursor
      passed := fun b hb => by
        rw [hu.cursor] at hb
        rw [List.eq_nil_iff_forall_not_mem]
        intro m hm
        have hm' : m ∈ Chains.chain r.oldBuckets b := hu.chain true b m hm
        rw [h.passed b hb] at hm'
        cases hm'
      keyed := fun old b m hm => by
        rw [place, hu.length, hhash]
        exact h.keyed old b m (hu.chain old b m hm) }

/-- A node that is linked is in one of the two chains that are searched for it. -/
theorem Tables.discard (h : Tables r) (hlinked : n ∈ r.linked) :
    Unlinked n r (r.discard n (r.setAt n)) := by
  by_cases hnew : n ∈ chain r.buckets (internBucketFor r.buckets.length (r.setAt n).hash)
  · have hb : (r.discard n (r.setAt n)).buckets = unlink r.buckets (r.place r.buckets.length n) n :=
      congrArg Prod.fst (if_pos hnew)
    -- In the new table: the old one is not looked at.
    have ho : (r.discard n (r.setAt n)).oldBuckets = r.oldBuckets := congrArg Prod.snd (if_pos hnew)
    refine ⟨?_, fun old => ?_, fun old b m hm => ?_, rfl, rfl⟩
    · rw [linked, linked, hb, ho]
      exact (flatten_unlink hnew).append_right _
    · cases old with
      | false => exact (congrArg List.length hb).trans length_unlink
      | true => exact congrArg List.length ho
    · cases old with
      | false =>
        replace hm : m ∈ chain (r.discard n (r.setAt n)).buckets b := hm
        rw [hb] at hm
        exact mem_chain_unlink hm
      | true =>
        replace hm : m ∈ chain (r.discard n (r.setAt n)).oldBuckets b := hm
        rw [ho] at hm
        exact hm
  · have hold : n ∈ chain r.oldBuckets (r.place r.oldBuckets.length n) := by
      rcases List.mem_append.mp hlinked with hm | hm
      · exact absurd ((h.keyed false).mem hm) hnew
      · exact (h.keyed true).mem hm
    have hb : (r.discard n (r.setAt n)).buckets = r.buckets := congrArg Prod.fst (if_neg hnew)
    have ho : (r.discard n (r.setAt n)).oldBuckets = unlink r.oldBuckets (r.place r.oldBuckets.length n) n :=
      congrArg Prod.snd (if_neg hnew)
    refine ⟨?_, fun old => ?_, fun old b m hm => ?_, rfl, rfl⟩
    · rw [linked, linked, hb, ho]
      exact ((flatten_unlink hold).append_left _).trans List.perm_middle
    · cases old with
      | false => exact congrArg List.length hb
      | true => exact (congrArg List.length ho).trans length_unlink
    · cases old with
      | false =>
        replace hm : m ∈ chain (r.discard n (r.setAt n)).buckets b := hm
        rw [hb] at hm
        exact hm
      | true =>
        replace hm : m ∈ chain (r.discard n (r.setAt n)).oldBuckets b := hm
        rw [ho] at hm
        exact mem_chain_unlink hm

/-- The books without a node that nobody holds any more. -/
theorem Books.discard {l : List Nat} (h : Books hash r (n :: l) (n :: held)) (hlast : n ∉ held) {k refs : Nat}
    (hrefs : refs = held.length) :
    Books hash (({ r.setRefs n k with refs } : Registry).discard n (r.setAt n)) l held := by
  obtain ⟨r₁, hr₁⟩ : ∃ r₁ : Registry, r₁ = ({ r.setRefs n k with refs } : Registry).discard n (r.setAt n) := ⟨_, rfl⟩
  rw [← hr₁]
  have hmem : n ∈ n :: held := List.mem_cons_self
  have hn := h.valid n hmem
  have hlen : r₁.nodes.length = r.nodes.length := by
    rw [hr₁]
    exact length_setRefs
  have hsetAt : ∀ m, r₁.setAt m = (r.setRefs n k).setAt m := fun m => by rw [hr₁]; rfl
  -- only the count of `n` has changed, and `n` is not held any more
  have hsame : ∀ m ≠ n, r₁.setAt m = r.setAt m := fun m hm => by rw [hsetAt, setAt_setRefs, if_neg (fun hc => hm hc.1)]
  have hne : ∀ m ∈ held, m ≠ n := fun m hm heq => hlast (heq ▸ hm)
  have hnfolds : ∀ m, (r₁.setAt m).nfolds = (r.setAt m).nfolds := fun m => by rw [hsetAt, nfolds_setRefs]
  have hd : r₁.detached = n :: r.detached := by rw [hr₁]; rfl
  exact
    { valid := fun m hm => hlen ▸ h.valid m (List.mem_cons_of_mem n hm)
      node := fun m hm => by
        rw [hsetAt]
        exact (h.node m (hlen ▸ hm)).setRefs
      counted := fun m hm => by
        rw [hsame m (hne m hm), h.counted m (List.mem_cons_of_mem n hm), List.count_cons_of_ne (Ne.symm (hne m hm))]
      once := (List.nodup_cons.mp h.once).2
      live := fun m => by
        have hnotin : n ∉ l := (List.nodup_cons.mp h.once).1
        constructor
        · intro hm
          have hheld := (h.live m).mp (List.mem_cons_of_mem n hm)
          exact (List.mem_cons.mp hheld).resolve_left fun heq => hnotin (heq ▸ hm)
        · intro hm
          have hlive := (h.live m).mpr (List.mem_cons_of_mem n hm)
          exact (List.mem_cons.mp hlive).resolve_left (hne m hm)
      unique := fun m hm m' hm' => by
        rw [hsame m (hne m hm), hsame m' (hne m' hm')]
        exact h.unique m (List.mem_cons_of_mem n hm) m' (List.mem_cons_of_mem n hm')
      sets := by
        have h₁ := h.sets
        rw [List.length_cons] at h₁
        have h₂ : r₁.sets = r.sets - 1 := by rw [hr₁]; rfl
        omega
      refs := by
        rw [hr₁]
        exact hrefs
      bytes := by
        have hbytes : ∀ m, (r₁.setAt m).bytes = (r.setAt m).bytes := fun m => by
          rw [InternedSet.bytes, InternedSet.bytes, hnfolds]
        simp only [hbytes]
        have h₁ := h.bytes
        rw [List.map_cons, List.sum_cons] at h₁
        have h₂ : r₁.bytes = r.bytes - (r.setAt n).bytes := by rw [hr₁]; rfl
        omega
      overflow := by
        simp only [hnfolds]
        have h₁ := h.overflow
        rw [List.countP_cons] at h₁
        have h₂ : r₁.overflowSets = r.overflowSets - if objcountOverflow ≤ (r.setAt n).nfolds then 1 else 0 := by
          rw [hr₁]
          rfl
        simp only [decide_eq_true_eq] at h₁
        omega
      detached := fun m => by
        rw [hd, hlen, List.mem_cons, h.detached, List.mem_cons, not_or]
        constructor
        · rintro (rfl | ⟨hm, -, hm'⟩)
          · exact ⟨hn, hlast⟩
          · exact ⟨hm, hm'⟩
        · rintro ⟨hm, hm'⟩
          by_cases hmn : m = n
          · exact .inl hmn
          · exact .inr ⟨hm, hmn, hm'⟩
      detachedOnce := by
        rw [hd]
        exact List.nodup_cons.mpr ⟨fun hm => ((h.detached n).mp hm).2 hmem, h.detachedOnce⟩ }

/-- A node that nobody holds any more leaves its chain. -/
theorem Shared.discard (h : Shared hash r (n :: held)) (hlast : n ∉ held) {k refs : Nat} (hrefs : refs = held.length) :
    Shared hash (({ r.setRefs n k with refs } : Registry).discard n (r.setAt n)) held := by
  have hlinked := (h.books.live n).mpr List.mem_cons_self
  have hu : Unlinked n r (({ r.setRefs n k with refs } : Registry).discard n (r.setAt n)) :=
    have hd := h.tables.discard hlinked
    ⟨hd.linked, hd.length, hd.chain, hd.cursor, hd.active⟩
  exact ⟨h.tables.unlinked hu fun m => hash_setRefs, (h.books.perm hu.linked.symm (.refl _)).discard hlast hrefs⟩

/-- A reference goes, and with the last one the node. -/
theorem Shared.release (h : Shared hash r (n :: held)) :
    Shared hash (r.release n) held ∧ Extends r (r.release n) := by
  have hmem : n ∈ n :: held := List.mem_cons_self
  have hn := h.books.valid n hmem
  have hcount := h.books.counted n hmem
  rw [List.count_cons_self] at hcount
  have hrefs : r.refs - 1 = held.length := by
    rw [h.books.refs, List.length_cons]
    rfl
  unfold Registry.release
  rw [getElem?_of_lt hn]
  dsimp only
  split
  · rename_i hpos
    have hheld : n ∈ held := List.count_pos_iff.mp (by omega)
    refine ⟨⟨h.tables.of_hash rfl rfl rfl rfl fun m _ => hash_setRefs, ?_⟩, .setRefs rfl⟩
    refine h.books.setRefs ((h.books.live n).mpr hmem) (fun m => ?_) (by omega) (fun m hm => ?_) hrefs
    · rw [List.mem_cons]
      exact ⟨Or.inr, fun hm => hm.elim (fun heq => heq ▸ hheld) id⟩
    · exact (List.count_cons_of_ne (Ne.symm hm)).symm
  · have hlast : n ∉ held := fun hm => by
      have := List.count_pos_iff.mpr hm
      omega
    exact ⟨h.discard hlast hrefs, .setRefs rfl⟩

theorem Shared.detachAll (h : Shared hash r held) : Shared hash r.detachAll [] ∧ Extends r r.detachAll := by
  refine ⟨⟨?_, ?_⟩, Nat.le_refl _, fun _ _ => rfl, fun _ _ => rfl⟩
  · exact
      { pow := fun old => by cases old <;> simp [table, Registry.detachAll]
        active := by simp [Registry.detachAll]
        both := by simp [Registry.detachAll]
        cursor := Nat.le_refl _
        passed := fun b hb => absurd hb (Nat.not_lt_zero b)
        keyed := fun old b m hm => by cases old <;> simp [table, Registry.detachAll, chain] at hm }
  · exact
      { valid := by simp
        node := h.books.node
        counted := by simp
        once := List.nodup_nil
        live := by simp [linked, Registry.detachAll]
        unique := by simp
        sets := rfl
        refs := rfl
        bytes := rfl
        overflow := rfl
        detached := fun m => by
          show m ∈ r.linked ++ r.detached ↔ m < r.nodes.length ∧ m ∉ []
          rw [List.mem_append, h.books.live, h.books.detached]
          constructor
          · rintro (hm | ⟨hm, -⟩)
            · exact ⟨h.books.valid m hm, List.not_mem_nil⟩
            · exact ⟨hm, List.not_mem_nil⟩
          · rintro ⟨hm, -⟩
            by_cases hheld : m ∈ held
            · exact .inl hheld
            · exact .inr ⟨hm, hheld⟩
        detachedOnce := by
          show (r.linked ++ r.detached).Nodup
          refine List.Nodup.append h.books.once h.books.detachedOnce fun m hm hm' => ?_
          exact ((h.books.detached m).mp hm').2 ((h.books.live m).mp hm) }

end Registry
end Cachetag
