import Cachetag.Volatile.Sweep

/-! The registry of interned sets against the dense entries that point to its nodes. -/

namespace Cachetag.Index
open Registry SideIndex Chains

variable {α : Type*} {cfg : Config α} {s s' : Index α} {ent : ObjEnt α ObjVal} {n : Nat}

/-- The dense entry points to the node `n`. -/
def PointsTo (n : Nat) (e : ObjEnt α ObjVal) : Prop := e.val.membership = .set n

instance (n : Nat) (e : ObjEnt α ObjVal) : Decidable (PointsTo n e) := inferInstanceAs (Decidable (_ = _))

/-- The registry is exact: one node for each set of two folds or more that an object has, in the one bucket
    that its hash selects, with as many references as entries point to it; a node without is with a cleanup;
    and the sums are the sums. -/
structure Exact (cfg : Config α) (s : Index α) : Prop where
  node : cfg.interned = true → ∀ e ∈ s.side.objects, 2 ≤ (membershipView cfg s.registry e.val).nfolds →
    ∃ n, PointsTo n e ∧ n ∈ s.registry.linked ∧ ∀ m ∈ s.registry.linked,
      (s.registry.setAt m).folds = (membershipView cfg s.registry e.val).folds ↔ m = n
  bucket : ∀ n ∈ s.registry.linked, (∃! p : Bool × Nat, n ∈ chain (s.registry.table p.1) p.2) ∧
    s.registry.linked.count n = 1 ∧ ∀ old b, n ∈ chain (s.registry.table old) b →
      b = internBucketFor (s.registry.table old).length (cfg.internHash (s.registry.setAt n).folds)
  refs : ∀ n ∈ s.registry.linked, (s.registry.setAt n).refs = s.side.objects.countP fun e => PointsTo n e
  linked : ∀ n, n ∈ s.registry.linked ↔ ∃ e ∈ s.side.objects, PointsTo n e
  detached : ∀ n, n ∈ s.registry.detached ↔ n < s.registry.nodes.length ∧ n ∉ s.registry.linked
  detachedOnce : s.registry.detached.Nodup
  sets : s.registry.sets = s.registry.linked.length
  allRefs : s.registry.refs = (s.registry.linked.map fun n => (s.registry.setAt n).refs).sum
  bytes : s.registry.bytes = (s.registry.linked.map fun n => (s.registry.setAt n).bytes).sum
  overflow : s.registry.overflowSets =
    s.registry.linked.countP fun n => objcountOverflow ≤ (s.registry.setAt n).folds.length
  views : ∀ e ∈ s.side.objects, ∃ c, s.calls[e.val.call]? = some c ∧ c.oc = e.oc ∧
    (membershipView cfg s.registry e.val).folds.Perm c.given ∧
    (cfg.interned = true → (membershipView cfg s.registry e.val).folds.Pairwise (· ≤ ·))

theorem mem_held {l : List (ObjEnt α ObjVal)} : n ∈ held l ↔ ∃ e ∈ l, PointsTo n e := by
  unfold held PointsTo ObjVal.node?
  rw [List.mem_filterMap]
  refine exists_congr fun e => and_congr_right fun _ => ?_
  cases hm : e.val.membership <;> simp

theorem count_held (l : List (ObjEnt α ObjVal)) : (held l).count n = l.countP fun e => PointsTo n e := by
  unfold held
  rw [List.count, List.countP_filterMap]
  refine List.countP_congr fun e _ => ?_
  have hnode : ∀ v : ObjVal, (v.node?.map (· == n)).getD false = true ↔ v.membership = .set n := by
    intro v
    unfold ObjVal.node?
    cases v.membership <;> simp
  rw [decide_eq_true_eq]
  exact hnode e.val

theorem sum_indicator (m : Nat) (l : List Nat) : (l.map fun n => if n = m then 1 else 0).sum = l.count m := by
  induction l with
  | nil => rfl
  | cons k l ih => simp [List.count_cons, ih, Nat.add_comm]

/-- The references of all nodes are the entries that point to one. -/
theorem sum_count {l held : List Nat} (hl : l.Nodup) (hall : ∀ n ∈ held, n ∈ l) :
    (l.map fun n => held.count n).sum = held.length := by
  induction held with
  | nil => simp
  | cons m held ih =>
    have hm := hall m List.mem_cons_self
    have ih := ih fun n hn => hall n (List.mem_cons_of_mem m hn)
    have hsplit : (l.map fun n => (m :: held).count n) = l.map fun n => held.count n + if n = m then 1 else 0 :=
      List.map_congr_left fun n _ => by
        rw [List.count_cons]
        by_cases h : n = m
        · simp [h]
        · have : ¬m = n := fun h' => h h'.symm
          simp [h, this]
    have hone : (l.map fun n => if n = m then 1 else 0).sum = 1 := by
      rw [sum_indicator, List.count_eq_one_of_mem hl hm]
    rw [hsplit, List.sum_map_add, ih, hone, List.length_cons]

theorem Inv.exact (h : Inv cfg s) : Exact cfg s where
  node hmode e he htwo := by
    obtain ⟨c, -, hw, -, hv⟩ := h.view he
    rw [hv] at htwo ⊢
    have hmem := hw.encodes.membership
    cases hm : e.val.membership with
    | inlineOne fold =>
      rw [hm] at hmem
      dsimp only at hmem htwo
      rw [hmem] at htwo
      exact absurd htwo (by simp)
    | vector v =>
      rw [hm] at hmem
      exact absurd (hmode.symm.trans hmem.1) (by simp)
    | set n =>
      rw [hm] at hmem
      obtain ⟨-, -, -, hfolds, -⟩ := hmem
      have hheld : n ∈ held s.side.objects := mem_held.mpr ⟨e, he, hm⟩
      refine ⟨n, hm, (h.shared.books.live n).mpr hheld, fun m hm' => ⟨fun heq => ?_, fun heq => by rw [heq]; exact hfolds⟩⟩
      exact h.shared.books.unique m ((h.shared.books.live m).mp hm') n hheld (heq.trans hfolds.symm)
  bucket n hn := by
    have hkeyed := h.shared.tables.keyed
    have hnode := h.shared.books.node n (h.shared.books.valid n ((h.shared.books.live n).mp hn))
    have honce := h.shared.books.once
    have hplace : ∀ old b, n ∈ chain (s.registry.table old) b →
        b = internBucketFor (s.registry.table old).length (cfg.internHash (s.registry.setAt n).folds) := by
      intro old b hb
      rw [← hkeyed old b n hb, place, hnode.hash]
    -- A node is in one of the two tables, as no node is linked twice.
    have hdisjoint : ¬(n ∈ (s.registry.table false).flatten ∧ n ∈ (s.registry.table true).flatten) :=
      fun h => List.disjoint_of_nodup_append honce h.1 h.2
    have hin : ∃ old, n ∈ (s.registry.table old).flatten := by
      rcases List.mem_append.mp hn with hm | hm
      · exact ⟨false, hm⟩
      · exact ⟨true, hm⟩
    obtain ⟨old, hold⟩ := hin
    obtain ⟨b, hb⟩ := mem_flatten_iff.mp hold
    refine ⟨⟨(old, b), hb, fun p hp => ?_⟩, List.count_eq_one_of_mem honce hn, hplace⟩
    obtain ⟨old', b'⟩ := p
    have hold' : n ∈ (s.registry.table old').flatten := mem_flatten_iff.mpr ⟨_, hp⟩
    have hsame : old' = old := by
      cases old' <;> cases old
      · rfl
      · exact absurd ⟨hold', hold⟩ hdisjoint
      · exact absurd ⟨hold, hold'⟩ hdisjoint
      · rfl
    subst hsame
    exact Prod.ext rfl ((hplace _ b' hp).trans (hplace _ b hb).symm)
  refs n hn := by rw [h.shared.books.counted n ((h.shared.books.live n).mp hn), count_held]
  linked n := by rw [h.shared.books.live, mem_held]
  detached n := by rw [h.shared.books.detached, h.shared.books.live]
  detachedOnce := h.shared.books.detachedOnce
  sets := h.shared.books.sets
  allRefs := by
    rw [h.shared.books.refs, ← sum_count h.shared.books.once fun n hn => (h.shared.books.live n).mpr hn]
    exact congrArg List.sum (List.map_congr_left fun n hn =>
      (h.shared.books.counted n ((h.shared.books.live n).mp hn)).symm)
  bytes := h.shared.books.bytes
  overflow := by
    rw [h.shared.books.overflow]
    refine List.countP_congr fun n hn => ?_
    rw [(h.shared.books.node n (h.shared.books.valid n ((h.shared.books.live n).mp hn))).nfolds]
  views e he := by
    obtain ⟨c, hc, hw, hfit, hv⟩ := h.view he
    rw [hv]
    exact ⟨c, hc, hw.oc, hfit.perm, hfit.sorted⟩

section Runs
variable [DecidableEq α]

omit [DecidableEq α] in
/-- A registry only grows and counts, in whatever section. -/
theorem Effect.extends' {e : IndexEvent α} (h : Effect cfg s s' e) : Extends s.registry s'.registry := by
  cases e with
  | attach i ok =>
    obtain ⟨c, -, ⟨hrest, -⟩ | hatt⟩ := h
    · exact hrest.extends'
    · exact hatt.extends'
  | invalidate oc =>
    rcases h with ⟨-, rfl⟩ | ⟨a, ent, -, -, htakes⟩
    · exact .refl
    · exact htakes.extends'
  | sweepStart =>
    rw [h.2]
    exact .refl
  | sweepProbe verdict =>
    obtain ⟨-, -, h⟩ := h
    split at h
    · exact h.extends'
    · rw [h]
      exact .refl
  | sweepEnd =>
    rw [show s' = s.endSweep from h]
    exact .refl
  | sweepAbort =>
    rw [show s' = s.endSweep from h]
    exact .refl
  | killAll => exact Clears.extends' h
  | retire => exact Clears.extends' h
  | detachAll => exact Clears.extends' h
  | _ => exact Rests.extends' h

/-- As long as no side table has become full, the registry is exact, and a section takes a node out of its
    table and hands it to a cleanup exactly when no entry points to it any more. -/
theorem interned_sets_exact (h : Machine.Reach (step cfg) NotFull Index.new s) :
    Exact cfg s ∧ ∀ e s', NotFull s e → step cfg s e = some s' → ∀ n ∈ s.registry.linked,
      (n ∉ s'.registry.linked ↔ ∀ ent ∈ s'.side.objects, ¬PointsTo n ent) ∧
      (n ∈ s'.registry.detached ↔ n ∉ s'.registry.linked) := by
  have hinv := reach_inv h
  refine ⟨hinv.exact, fun e s' hopen hs n hn => ?_⟩
  obtain ⟨hinv', he⟩ := hinv.step hopen hs
  have hexact := hinv'.exact
  have hvalid := hinv.shared.books.valid n ((hinv.shared.books.live n).mp hn)
  refine ⟨?_, ?_⟩
  · rw [hexact.linked]
    push Not
    rfl
  · rw [hexact.detached, and_iff_right (hvalid.trans_le he.extends'.length)]

end Runs

theorem interned_sets_exact_twice : ∃ s, Machine.run (step plainConfig) Index.new twoAttaches = some s ∧
    s.registry.linked = [0] ∧ Exact plainConfig s ∧ ∀ s', step plainConfig s (.invalidate 7) = some s' →
      (0 ∈ s'.registry.detached ↔ 0 ∉ s'.registry.linked) := by
  have hrun : (Machine.run (Machine.guarded (step plainConfig) NotFull) Index.new twoAttaches).map (fun s =>
      (s.registry.linked, decide s.side.Open)) = some ([0], true) := by decide +kernel
  obtain ⟨s, hs, heq⟩ := Option.map_eq_some_iff.mp hrun
  obtain ⟨hl, hopen⟩ : s.registry.linked = [0] ∧ s.side.Open := by simpa using heq
  obtain ⟨hexact, hstep⟩ := interned_sets_exact (.of_guarded hs)
  exact ⟨s, Machine.run_of_guarded hs, hl, hexact,
    fun s' hs' => (hstep _ s' hopen hs' 0 (by rw [hl]; exact List.mem_singleton_self 0)).2⟩

/-- Two entries of the same object point to one node, whose only reference is the one of its attach. -/
theorem interned_sets_torn :
    ¬∀ (cfg : Config Nat) (s : Index Nat), Machine.Reach (step cfg) Machine.always Index.new s → Exact cfg s := by
  intro h
  obtain ⟨x, hx, -, -, hlinked, hrefs, hcount⟩ := torn_run
  have hreach : Machine.Reach (sweepStep plainConfig) (fun x => Machine.always x.1) (Index.new, .none) x := .of_run hx
  have hexact := (h plainConfig x.1 hreach.unwatch).refs 1 hlinked
  rw [hrefs] at hexact
  exact absurd (hexact.trans hcount) (by decide)

end Cachetag.Index
