import Cachetag.SideTable.Room
import Cachetag.Volatile.Sections

/-! The volatile index is a finite map.

What it is for is to know each attached object with the number of its registration and its folds. The map
below says that and nothing else; the index with its side tables, encodings, segments and half-finished
attaches computes it, as long as no side table has become full. -/

namespace Cachetag

/-- The attached objects, each with its registration and its folds. -/
abbrev TagMap (α : Type*) := α → Option (Nat × Multiset Nat)

namespace TagMap
variable {α : Type*} [DecidableEq α]

/-- What can happen to the map. -/
inductive Op (α : Type*) where
  | keep
  | put (oc : α) (regSeq : Nat) (folds : Multiset Nat)
  | drop (oc : α)
  | clear

def apply (m : TagMap α) : Op α → TagMap α
  | .keep => m
  | .put oc regSeq folds => Function.update m oc (some (regSeq, folds))
  | .drop oc => Function.update m oc none
  | .clear => fun _ => none

end TagMap

namespace Index
open Registry SideIndex TagMap

variable {α : Type*} {cfg : Config α} {s s' : Index α} {ent : ObjEnt α ObjVal} {a : Nat}

/-- What an entry says of its object. -/
def record (cfg : Config α) (r : Registry) (e : ObjEnt α ObjVal) : Nat × Multiset Nat :=
  (e.val.regSeq, ((membershipView cfg r e.val).folds : Multiset Nat))

section Map
variable [DecidableEq α]

/-- The map that an index stands for. -/
def toMap (cfg : Config α) (s : Index α) : TagMap α := fun oc =>
  (s.side.objects.find? fun e => e.oc = oc).map (record cfg s.registry)

/-- What a section from `s` to `s'` does to the map. -/
def op (s s' : Index α) : IndexEvent α → Op α
  | .attach i _ =>
    match s.calls[i]?, s'.calls[i]? with
    | some c, some d => if d.point = .done none then .put c.oc c.regSeq c.given else .keep
    | _, _ => .keep
  | .invalidate oc => .drop oc
  | .sweepProbe verdict =>
    match s.side.objects[s.side.sweepRemaining - 1]? with
    | some ent => if verdict = .hard then .drop ent.oc else .keep
    | none => .keep
  | .killAll => .clear
  | .retire => .clear
  | .detachAll => .clear
  | _ => .keep

omit [DecidableEq α] in
theorem Inv.oc_unique (h : Inv cfg s) {e e' : ObjEnt α ObjVal} (he : e ∈ s.side.objects) (he' : e' ∈ s.side.objects)
    (heq : e.oc = e'.oc) : e = e' := List.inj_on_of_nodup_map h.sound.filed.nodup he he' heq

theorem Inv.toMap_eq_some (h : Inv cfg s) {oc : α} {x : Nat × Multiset Nat} :
    toMap cfg s oc = some x ↔ ∃ e ∈ s.side.objects, e.oc = oc ∧ record cfg s.registry e = x := by
  unfold toMap
  rw [Option.map_eq_some_iff]
  constructor
  · rintro ⟨e, he, rfl⟩
    exact ⟨e, List.mem_of_find?_eq_some he, by simpa using List.find?_some he, rfl⟩
  · rintro ⟨e, he, rfl, rfl⟩
    refine ⟨e, ?_, rfl⟩
    cases hf : s.side.objects.find? fun e' => e'.oc = e.oc with
    | none => exact absurd (List.find?_eq_none.mp hf e he) (by simp)
    | some e' =>
      rw [h.oc_unique (List.mem_of_find?_eq_some hf) he (by simpa using List.find?_some hf)]

theorem Inv.toMap_eq_none (h : Inv cfg s) {oc : α} : toMap cfg s oc = none ↔ oc ∉ s.side.ocs := by
  rw [Option.eq_none_iff_forall_ne_some]
  constructor
  · intro hnone hoc
    obtain ⟨e, he, rfl⟩ := List.mem_map.mp hoc
    exact hnone _ (h.toMap_eq_some.mpr ⟨e, he, rfl, rfl⟩)
  · intro hoc x hx
    obtain ⟨e, he, rfl, -⟩ := h.toMap_eq_some.mp hx
    exact hoc (List.mem_map_of_mem he)

omit [DecidableEq α] in
theorem Inv.record_extends (h : Inv cfg s) {r : Registry} (he : ent ∈ s.side.objects) (hext : Extends s.registry r) :
    record cfg r ent = record cfg s.registry ent := by
  unfold record
  rw [h.view_extends he hext]

/-! ### What the sections do to the map -/

theorem Inv.toMap_same (h : Inv cfg s) (hobj : s'.side.objects = s.side.objects) (hext : Extends s.registry s'.registry) :
    toMap cfg s' = toMap cfg s := by
  funext oc
  unfold toMap
  rw [hobj]
  cases hf : s.side.objects.find? fun e => e.oc = oc with
  | none => rfl
  | some e => exact congrArg some (h.record_extends (List.mem_of_find?_eq_some hf) hext)

theorem Inv.toMap_takesOut (h : Inv cfg s) (h' : Inv cfg s') (ha : s.side.objects[a]? = some ent)
    (ht : TakesOut cfg s s' a) : toMap cfg s' = (toMap cfg s).apply (.drop ent.oc) := by
  have hperm := ht.removes.perm h.sound ha
  have hent := List.mem_of_getElem? ha
  have hmem : ∀ e, e ∈ s.side.objects ↔ e = ent ∨ e ∈ s'.side.objects := fun e => by
    rw [← hperm.mem_iff, List.mem_cons]
  have hnodup : ent.oc ∉ s'.side.ocs := by
    have hocs : (ent.oc :: s'.side.ocs).Perm s.side.ocs := hperm.map ObjEnt.oc
    exact (List.nodup_cons.mp (hocs.nodup_iff.mpr h.sound.filed.nodup)).1
  funext oc
  show _ = Function.update (toMap cfg s) ent.oc none oc
  by_cases hoc : oc = ent.oc
  · rw [hoc, Function.update_self]
    exact h'.toMap_eq_none.mpr hnodup
  · rw [Function.update_of_ne hoc]
    refine Option.ext fun x => ?_
    rw [h'.toMap_eq_some, h.toMap_eq_some]
    constructor
    · rintro ⟨e, he, rfl, rfl⟩
      have he' := (hmem e).mpr (.inr he)
      exact ⟨e, he', rfl, (h.record_extends he' ht.extends').symm⟩
    · rintro ⟨e, he, rfl, rfl⟩
      rcases (hmem e).mp he with rfl | he'
      · exact absurd rfl hoc
      · exact ⟨e, he', rfl, h.record_extends he ht.extends'⟩

theorem Inv.toMap_attached (h : Inv cfg s) (h' : Inv cfg s') {i : Nat} {c : AttachCall α} (hperm : c.folds.Perm c.given)
    (ha : Attached cfg s s' i c) : toMap cfg s' = (toMap cfg s).apply (.put c.oc c.regSeq c.given) := by
  obtain ⟨ent, hobj, hoc, -, hreg, henc⟩ := ha.objects
  have hrecord : record cfg s'.registry ent = (c.regSeq, (c.given : Multiset Nat)) := by
    unfold record
    rw [henc.view, hreg, Multiset.coe_eq_coe.mpr hperm]
  have hmem : ∀ e, e ∈ s'.side.objects ↔ e ∈ s.side.objects ∨ e = ent := fun e => by
    rw [hobj, List.mem_append, List.mem_singleton]
  funext oc
  show _ = Function.update (toMap cfg s) c.oc (some (c.regSeq, (c.given : Multiset Nat))) oc
  by_cases heq : oc = c.oc
  · rw [heq, Function.update_self]
    exact h'.toMap_eq_some.mpr ⟨ent, (hmem ent).mpr (.inr rfl), hoc, hrecord⟩
  · rw [Function.update_of_ne heq]
    refine Option.ext fun x => ?_
    rw [h'.toMap_eq_some, h.toMap_eq_some]
    constructor
    · rintro ⟨e, he, rfl, rfl⟩
      rcases (hmem e).mp he with he' | rfl
      · exact ⟨e, he', rfl, (h.record_extends he' ha.extends').symm⟩
      · exact absurd hoc heq
    · rintro ⟨e, he, rfl, rfl⟩
      exact ⟨e, (hmem e).mpr (.inl he), rfl, h.record_extends he ha.extends'⟩

omit [DecidableEq α] in
theorem Clears.toMap [DecidableEq α] (h : Clears s s') : toMap cfg s' = fun _ => none := by
  funext oc
  unfold Index.toMap
  rw [h.objects]
  rfl

/-- Every section does to the map what `op` says. -/
theorem Inv.simulates (h : Inv cfg s) (h' : Inv cfg s') {e : IndexEvent α} (he : Effect cfg s s' e) :
    toMap cfg s' = (toMap cfg s).apply (op s s' e) := by
  cases e with
  -- An attach either waits, and the map stays, or is done, and the object is in the map with its tags.
  | attach i ok =>
    obtain ⟨c, hc, ⟨hrest, hnot⟩ | hatt⟩ := he
    · have hop : op s s' (.attach i ok) = .keep := by
        cases hd : s'.calls[i]? with
        | none => simp only [op, hc, hd]
        | some d =>
          simp only [op, hc, hd]
          exact if_neg (hnot d hd)
      rw [hop]
      exact h.toMap_same hrest.objects hrest.extends'
    · obtain ⟨d, hd, hdone⟩ := hatt.done
      have hfit := h.calls c (List.mem_of_getElem? hc) fun e => hatt.waiting (some e)
      have hop : op s s' (.attach i ok) = .put c.oc c.regSeq c.given := by
        simp only [op, hc, hd]
        exact if_pos hdone
      rw [hop]
      exact h.toMap_attached h' hfit.perm hatt
  | invalidate oc =>
    rcases he with ⟨hno, rfl⟩ | ⟨a, ent, ha, rfl, ht⟩
    · funext oc'
      show _ = Function.update (toMap cfg s') oc none oc'
      by_cases heq : oc' = oc
      · rw [heq, Function.update_self]
        exact h.toMap_eq_none.mpr hno
      · rw [Function.update_of_ne heq]
    · exact h.toMap_takesOut h' ha ht
  | sweepProbe verdict =>
    obtain ⟨hact, hpos, he⟩ := he
    have hle := h.sound.sweep hact
    have hent := List.getElem?_eq_getElem (show s.side.sweepRemaining - 1 < s.side.objects.length by omega)
    simp only [op, hent]
    split at he
    · rename_i hv
      rw [if_pos hv]
      exact h.toMap_takesOut h' hent he
    · rename_i hv
      rw [if_neg hv, he]
      exact h.toMap_same rfl .refl
  | sweepStart =>
    rw [he.2]
    exact h.toMap_same rfl .refl
  | sweepEnd =>
    rw [show s' = s.endSweep from he]
    exact h.toMap_same rfl .refl
  | sweepAbort =>
    rw [show s' = s.endSweep from he]
    exact h.toMap_same rfl .refl
  -- Everything goes.
  | killAll => exact Clears.toMap he
  | retire => exact Clears.toMap he
  | detachAll => exact Clears.toMap he
  -- Maintenance moves buckets, not objects.
  | begin oc given regSeq allocated => exact h.toMap_same he.objects he.extends'
  | migrateIntern => exact h.toMap_same he.objects he.extends'
  | migrateSideBatch overrun => exact h.toMap_same he.objects he.extends'
  | publishObjectSegment oldCapacity => exact h.toMap_same he.objects he.extends'
  | lowWater => exact h.toMap_same he.objects he.extends'
  | publishShrink n => exact h.toMap_same he.objects he.extends'
  | publishSideDestination n reason => exact h.toMap_same he.objects he.extends'

/-- How an index holds its map: what a lookup finds, and what its counts and its buckets amount to. -/
structure HoldsMap (cfg : Config α) (s : Index α) : Prop where
  absent : ∀ oc, s.lookup cfg oc = .absent ↔ toMap cfg s oc = none
  here : ∀ oc regSeq folds, toMap cfg s oc = some (regSeq, folds) →
    ∃ l : List Nat, s.lookup cfg oc = .here regSeq l ∧ (l : Multiset Nat) = folds
  size : ∃ keys : Finset α, (∀ oc, oc ∈ keys ↔ toMap cfg s oc ≠ none) ∧ keys.card = s.side.objects.length ∧
    s.edges = ∑ oc ∈ keys, (toMap cfg s oc).elim 0 fun x => x.2.card
  live : s.side.primary.live + s.side.retiring.live = s.side.objects.length
  slots : ∀ a < s.side.objects.length, ∃! p : Bool × Nat, ∃ f, s.side.bucketAt p.1 p.2 = .live f a
  segments : ∀ a < s.side.objects.length, s.directory.segments[(Directory.address a).1]? = some true ∧
    (Directory.address a).2 < objectSegmentSlots (Directory.address a).1

theorem Inv.lookup_here (h : Inv cfg s) (hopen : s.side.Open) (he : ent ∈ s.side.objects) :
    ∃ l : List Nat, s.lookup cfg ent.oc = .here ent.val.regSeq l ∧ record cfg s.registry ent = (ent.val.regSeq, ↑l) := by
  obtain ⟨a, ha⟩ := List.mem_iff_getElem?.mp he
  obtain ⟨r, b, hf, -⟩ := @SideIndex.Filed.find_found _ _ _ _ ent.oc a _ h.sound.filed hopen
    (by rw [getElem?_ocs, ha, Option.map_some])
  refine ⟨(membershipView cfg s.registry ent.val).folds, ?_, rfl⟩
  unfold lookup
  simp only [hf, ha]
  rw [if_neg (h.view_ne_zero ha)]

theorem Inv.holdsMap (h : Inv cfg s) (hopen : s.side.Open) : HoldsMap cfg s where
  absent oc := by
    rw [h.toMap_eq_none]
    constructor
    · intro hl hoc
      obtain ⟨e, he, rfl⟩ := List.mem_map.mp hoc
      obtain ⟨l, hl', -⟩ := h.lookup_here hopen he
      rw [hl] at hl'
      cases hl'
    · intro hoc
      unfold lookup
      rw [h.sound.filed.find_absent hopen hoc]
  here oc regSeq folds hm := by
    obtain ⟨e, he, rfl, hr⟩ := h.toMap_eq_some.mp hm
    obtain ⟨l, hl, hr'⟩ := h.lookup_here hopen he
    obtain ⟨rfl, rfl⟩ := Prod.mk.inj (hr'.symm.trans hr)
    exact ⟨l, hl, rfl⟩
  size := by
    refine ⟨⟨↑s.side.ocs, h.sound.filed.nodup⟩, fun oc => ?_, ?_, ?_⟩
    · rw [Ne, h.toMap_eq_none, not_not]
      rfl
    · exact length_ocs
    -- The edges of an entry are as many as the tags of its object.
    · have hsum : ∀ e ∈ s.side.objects, (membershipView cfg s.registry e.val).nfolds =
          (toMap cfg s e.oc).elim 0 fun x => x.2.card := by
        intro e he
        obtain ⟨c, -, -, -, hv⟩ := h.view he
        rw [h.toMap_eq_some.mpr ⟨e, he, rfl, rfl⟩, record, hv]
        rfl
      rw [h.edges, foldSum, List.map_congr_left hsum]
      show _ = ((s.side.objects.map fun e => e.oc).map fun oc => (toMap cfg s oc).elim 0 fun x => x.2.card).sum
      rw [List.map_map]
      rfl
  live := h.sound.filed.sum.symm
  slots a ha := by
    obtain ⟨r, b, f, hb⟩ := h.sound.filed.cover a ha
    refine ⟨(r, b), ⟨f, hb⟩, ?_⟩
    rintro p ⟨g, hg⟩
    obtain ⟨hr, hb'⟩ := h.sound.filed.uniq p.1 p.2 g r b f a hg hb
    exact Prod.ext hr hb'
  segments a ha := by
    obtain ⟨k, hk⟩ := h.directory
    exact hk.address ha

theorem Inv.put_fresh (h : Inv cfg s) {e : IndexEvent α} (he : Effect cfg s s' e) {oc : α} {regSeq : Nat}
    {folds : Multiset Nat} (hop : op s s' e = .put oc regSeq folds) : toMap cfg s oc = none := by
  cases e with
  | attach i ok =>
    obtain ⟨c, hc, ⟨-, hnot⟩ | hatt⟩ := he
    · simp only [op, hc] at hop
      cases hd : s'.calls[i]? with
      | none => simp [hd] at hop
      | some d => simp [hd, hnot d hd] at hop
    · obtain ⟨d, hd, hdone⟩ := hatt.done
      simp only [op, hc, hd, if_pos hdone] at hop
      cases hop
      exact h.toMap_eq_none.mpr hatt.fresh
  | sweepProbe verdict =>
    simp only [op] at hop
    split at hop
    · split at hop <;> cases hop
    · cases hop
  | _ => cases hop

/-- As long as no side table has become full, the index is the map that its sections make of it: lookups find
    what the map says, the counts and the buckets agree with it, an attach that succeeds puts its own entry
    where there was none, a removal drops its own object, and every other section keeps the map. -/
theorem index_refines_map (h : Machine.Reach (step cfg) NotFull Index.new s) (hopen : s.side.Open) :
    HoldsMap cfg s ∧ ∀ e s', step cfg s e = some s' → toMap cfg s' = (toMap cfg s).apply (op s s' e) ∧
      ∀ oc regSeq folds, op s s' e = .put oc regSeq folds → toMap cfg s oc = none := by
  have hinv := reach_inv h
  refine ⟨hinv.holdsMap hopen, fun e s' hs => ?_⟩
  obtain ⟨hinv', he⟩ := hinv.step hopen hs
  exact ⟨hinv.simulates hinv' he, fun oc regSeq folds => hinv.put_fresh he⟩

end Map

/-- An index that interns, over numbers as objects. -/
def plainConfig : Config Nat := ⟨true, 300, SideIndex.plainHash, List.sum⟩

/-- Two objects with the same two folds, the second of which goes again. -/
def twoAttaches : List (IndexEvent Nat) :=
  .begin 7 [20, 10] 1 true :: List.replicate 9 (.attach 0 true) ++
    [.begin 8 [10, 20] 2 true, .attach 1 true, .invalidate 8]

theorem index_refines_map_twice : ∃ s, Machine.run (step plainConfig) Index.new twoAttaches = some s ∧
    s.lookup plainConfig 7 = .here 1 [10, 20] ∧ HoldsMap plainConfig s ∧
    ∀ s', step plainConfig s (.invalidate 7) = some s' → toMap plainConfig s' = (toMap plainConfig s).apply (.drop 7) := by
  have hrun : (Machine.run (Machine.guarded (step plainConfig) NotFull) Index.new twoAttaches).map (fun s =>
      (s.lookup plainConfig 7, decide s.side.Open)) = some (.here 1 [10, 20], true) := by decide +kernel
  obtain ⟨s, hs, heq⟩ := Option.map_eq_some_iff.mp hrun
  obtain ⟨hl, hopen⟩ : s.lookup plainConfig 7 = .here 1 [10, 20] ∧ s.side.Open := by simpa using heq
  obtain ⟨hmap, hstep⟩ := index_refines_map (.of_guarded hs) hopen
  exact ⟨s, Machine.run_of_guarded hs, hl, hmap, fun s' hs' => (hstep _ s' hs').1⟩

end Index
end Cachetag
