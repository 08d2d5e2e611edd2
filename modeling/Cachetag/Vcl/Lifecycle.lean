import Cachetag.Vcl.Tracked

/-! What every run of loads, warmups, coolings and discards leaves true, whatever fetches run beside it. -/

namespace Cachetag.Vcl
open Machine

variable {s t u : State} {n a vcl : Nat} {x y : Namespace} {idx : Index}

/-! ### The seal of a retired index -/

/-- Nothing that has been allocated changes its identity, and no index comes back into service. -/
structure Ages (s t : State) : Prop where
  created : s.created ≤ t.created
  indexes : s.indexes ≤ t.indexes
  nss : ∀ n < s.created, ∀ y, t.nss n = some y → ∃ x, s.nss n = some x ∧ y.index = x.index
  heap : ∀ a < s.indexes, ∀ idx', t.heap a = some idx' →
    ∃ idx, s.heap a = some idx ∧ (idx.retired = true → idx'.retired = true)

theorem Ages.refl (s : State) : Ages s s :=
  ⟨Nat.le_refl _, Nat.le_refl _, fun _ _ y hy => ⟨y, hy, rfl⟩, fun _ _ idx ha => ⟨idx, ha, id⟩⟩

theorem Ages.trans (h : Ages s t) (h' : Ages t u) : Ages s u where
  created := h.created.trans h'.created
  indexes := h.indexes.trans h'.indexes
  nss n hn z hz := by
    obtain ⟨y, hy, hzy⟩ := h'.nss n (hn.trans_le h.created) z hz
    obtain ⟨x, hx, hyx⟩ := h.nss n hn y hy
    exact ⟨x, hx, hzy.trans hyx⟩
  heap a ha i hi := by
    obtain ⟨j, hj, hr⟩ := h'.heap a (ha.trans_le h.indexes) i hi
    obtain ⟨k, hk, hr'⟩ := h.heap a ha j hj
    exact ⟨k, hk, hr ∘ hr'⟩

theorem Ages.of_eq (hc : t.created = s.created) (hi : t.indexes = s.indexes) (hnss : t.nss = s.nss)
    (hheap : t.heap = s.heap) : Ages s t :=
  ⟨hc.ge, hi.ge, fun _ _ y hy => ⟨y, hnss ▸ hy, rfl⟩, fun _ _ idx ha => ⟨idx, hheap ▸ ha, id⟩⟩

theorem Ages.setNs (hn : s.nss n = some x) (hnss : t.nss = Function.update s.nss n (some y)) (hx : y.index = x.index)
    (hc : t.created = s.created) (hi : t.indexes = s.indexes) (hheap : t.heap = s.heap) : Ages s t where
  created := hc.ge
  indexes := hi.ge
  nss m _ z hz := by
    rw [hnss] at hz
    rcases update_eq_some.mp hz with ⟨rfl, ⟨⟩⟩ | ⟨-, hz⟩
    · exact ⟨x, hn, hx⟩
    · exact ⟨z, hz, rfl⟩
  heap _ _ i hi := ⟨i, hheap ▸ hi, id⟩

theorem Ages.setIndex (ha : s.heap a = some idx) {idx' : Index} (hheap : t.heap = Function.update s.heap a (some idx'))
    (hr : idx.retired = true → idx'.retired = true) (hc : t.created = s.created) (hi : t.indexes = s.indexes)
    (hnss : t.nss = s.nss) : Ages s t where
  created := hc.ge
  indexes := hi.ge
  nss _ _ z hz := ⟨z, hnss ▸ hz, rfl⟩
  heap b _ i hi := by
    rw [hheap] at hi
    rcases update_eq_some.mp hi with ⟨rfl, ⟨⟩⟩ | ⟨-, hi⟩
    · exact ⟨idx, ha, hr⟩
    · exact ⟨i, hi, id⟩

/-- The rest of a section moves nothing. -/
theorem Ages.rest (h : Ages s t) (hc : u.created = t.created) (hi : u.indexes = t.indexes) (hnss : u.nss = t.nss)
    (hheap : u.heap = t.heap) : Ages s u :=
  h.trans (.of_eq hc hi hnss hheap)

theorem Ages.clear (s : State) (a : Nat) : Ages s { s with heap := Function.update s.heap a none } :=
  ⟨Nat.le_refl _, Nat.le_refl _, fun _ _ y hy => ⟨y, hy, rfl⟩, fun _ _ i hi => ⟨i, (of_cleared hi).2, id⟩⟩

theorem Ages.use {f : Index → State} (h : ∀ idx, s.heap a = some idx → Ages s (f idx)) : Ages s (s.use a f) := by
  unfold State.use
  split
  · rename_i idx ha
    exact h idx ha
  · exact .of_eq rfl rfl rfl rfl

theorem Ages.release (s : State) : Ages s s.providerReleaseIfIdle := by
  rw [release_eq]
  exact .of_eq rfl rfl rfl rfl

theorem Ages.warmReturn (s : State) (k : WarmCont) : Ages s (s.warmReturn k) := by
  cases k <;> exact .of_eq rfl rfl rfl rfl

theorem Ages.coldReturn (s : State) (n : Nat) (k : ColdCont) : Ages s (s.coldReturn n k) :=
  (Ages.release s).rest rfl rfl rfl rfl

theorem Ages.indexDelete (s : State) (a : Nat) : Ages s (s.indexDelete a) := .use fun _ _ => .clear s a

theorem Ages.death (s : State) (a oc : Nat) : Ages s (s.death a oc) := .use fun _ ha => .setIndex ha rfl id rfl rfl rfl

theorem Ages.start (s : State) (n : Nat) (x : Namespace) (k : WarmCont) (replayed : Bool) :
    Ages s (s.start n x k replayed) := by
  unfold State.start
  split
  · exact .warmReturn s k
  · refine .use fun idx ha => ?_
    split
    · exact .of_eq rfl rfl rfl rfl
    · exact .setIndex ha rfl id rfl rfl rfl

theorem Ages.ensure (hn : s.nss n = some x) (k : WarmCont) (found : Bool) : Ages s (s.ensure n x k found) := by
  unfold State.ensure
  refine .use fun idx ha => ?_
  split
  · split
    · cases k <;> exact .setNs hn rfl rfl rfl rfl rfl
    · exact .of_eq rfl rfl rfl rfl
  · cases k <;> exact .setNs hn rfl rfl rfl rfl rfl

theorem Ages.killAllLocked (ha : s.heap a = some idx) {retired : Bool} (hr : idx.retired = true → retired = true)
    (left : List Nat) : Ages s (s.killAllLocked a { idx with retired } left) :=
  .setIndex ha rfl hr rfl rfl rfl

theorem Ages.retireUnshared (s : State) (vcl m : Nat) (left : List Nat) : Ages s (s.retireUnshared vcl m left) := by
  unfold State.retireUnshared
  split
  · refine .use fun idx ha => ?_
    split
    · exact .refl s
    · exact .use fun idx ha => .killAllLocked ha (fun _ => rfl) left
  · exact .of_eq rfl rfl rfl rfl

theorem Ages.remove (s : State) (n : Nat) (x : Namespace) : Ages s (s.namespaceGlobalRemove n x).1 :=
  (Ages.of_eq rfl rfl rfl rfl : Ages s { s with global := s.global.erase n }).trans (.release _)

theorem Ages.delete (s : State) (n a : Nat) (last : Bool) :
    Ages s { (if last then s.indexDelete a else s) with nss := Function.update s.nss n none, cli := .idle } := by
  have hnss : ∀ m < s.created, ∀ y, Function.update s.nss n none m = some y → ∃ x, s.nss m = some x ∧ y.index = x.index :=
    fun m _ y hy => ⟨y, (of_cleared hy).2, rfl⟩
  unfold State.indexDelete State.use
  cases last
  · exact ⟨Nat.le_refl _, Nat.le_refl _, hnss, fun _ _ i hi => ⟨i, hi, id⟩⟩
  · rw [if_pos rfl]
    split
    · exact ⟨Nat.le_refl _, Nat.le_refl _, hnss, fun _ _ i hi => ⟨i, (of_cleared hi).2, id⟩⟩
    · exact ⟨Nat.le_refl _, Nat.le_refl _, hnss, fun _ _ i hi => ⟨i, hi, id⟩⟩

theorem Ages.load (s : State) (vcl : Nat) (config : Config) : Ages s (s.load vcl config) := by
  unfold State.load
  dsimp only
  split <;> refine ⟨Nat.le_succ _, Nat.le_succ _, fun n hn y hy => ?_, fun b hb i hi => ?_⟩
  · exact ⟨y, (Function.update_of_ne hn.ne ..).symm.trans hy, rfl⟩
  · exact ⟨i, (Function.update_of_ne hb.ne ..).symm.trans hi, id⟩
  · exact ⟨y, (Function.update_of_ne hn.ne ..).symm.trans hy, rfl⟩
  · exact ⟨i, (Function.update_of_ne hb.ne ..).symm.trans hi, id⟩

theorem Ages.attached (s : State) (i : Nat) (c : Call) (fails hard : Bool) : Ages s (s.attached i c fails hard) := by
  refine .use fun idx ha => ?_
  split
  · exact .of_eq rfl rfl rfl rfl
  · exact .setIndex ha rfl id rfl rfl rfl

theorem ages_cliStep {replayed found : Bool} {left : List Nat} (hs : s.cliStep replayed found left = some t) : Ages s t := by
  unfold State.cliStep at hs
  split at hs
  · cases hs
  · cases hs
    exact (Ages.indexDelete s _).rest rfl rfl rfl rfl
  · obtain ⟨x, hn, ⟨⟩⟩ := onNs_cases hs
    exact .start s _ x _ replayed
  · obtain ⟨x, hn, ⟨⟩⟩ := onNs_cases hs
    exact .setNs hn rfl rfl rfl rfl rfl
  · obtain ⟨x, hn, ⟨⟩⟩ := onNs_cases hs
    exact .ensure hn _ found
  · obtain ⟨x, hn, ⟨⟩⟩ := onNs_cases hs
    exact .setNs hn rfl rfl rfl rfl rfl
  · obtain ⟨x, hn, hs⟩ := onNs_cases hs
    obtain ⟨-, ⟨⟩⟩ := Option.ite_none_right_eq_some.mp hs
    exact .setNs hn rfl rfl rfl rfl rfl
  · obtain ⟨x, hn, ⟨⟩⟩ := onNs_cases hs
    split
    · exact .coldReturn s _ _
    · exact .of_eq rfl rfl rfl rfl
  · obtain ⟨x, hn, ⟨⟩⟩ := onNs_cases hs
    exact .use fun idx ha => .setIndex ha rfl id rfl rfl rfl
  · obtain ⟨x, hn, ⟨⟩⟩ := onNs_cases hs
    exact .use fun idx ha => (Ages.killAllLocked ha id left).rest rfl rfl rfl rfl
  · obtain ⟨x, hn, ⟨⟩⟩ := onNs_cases hs
    refine .use fun idx ha => ?_
    exact (Ages.setIndex (t := s.setIndex x.index { idx with objects := [] }) ha rfl id rfl rfl rfl).trans (.coldReturn _ _ _)
  · obtain ⟨x, hn, ⟨⟩⟩ := onNs_cases hs
    exact (Ages.remove s _ x).rest rfl rfl rfl rfl
  · obtain ⟨x, hn, ⟨⟩⟩ := onNs_cases hs
    exact .delete s _ _ _
  · cases hs
    exact .of_eq rfl rfl rfl rfl
  · cases hs
    exact (Ages.retireUnshared s _ _ left).rest rfl rfl rfl rfl

theorem ages_step {e : Event} (hs : s.step e = some t) : Ages s t := by
  cases e with
  | load vcl config =>
    obtain ⟨-, ⟨⟩⟩ := Option.ite_none_right_eq_some.mp hs
    exact .load s vcl config
  | warm vcl =>
    obtain ⟨-, ⟨⟩⟩ := Option.ite_none_right_eq_some.mp hs
    exact .of_eq rfl rfl rfl rfl
  | cold vcl =>
    obtain ⟨-, ⟨⟩⟩ := Option.ite_none_right_eq_some.mp hs
    exact .of_eq rfl rfl rfl rfl
  | fini n =>
    obtain ⟨x, hn, hs⟩ := onNs_cases hs
    obtain ⟨-, ⟨⟩⟩ := Option.ite_none_right_eq_some.mp hs
    exact .of_eq rfl rfl rfl rfl
  | cli replayed found left => exact ages_cliStep hs
  | register n oc =>
    obtain ⟨x, hn, hs⟩ := onNs_cases hs
    obtain ⟨-, ⟨⟩⟩ := Option.ite_none_right_eq_some.mp hs
    exact .of_eq rfl rfl rfl rfl
  | insert oc transient =>
    obtain ⟨-, hs⟩ := Option.ite_none_left_eq_some.mp hs
    cases transient <;> cases hs <;> exact .of_eq rfl rfl rfl rfl
  -- An attach writes its index, but only the objects of it.
  | attach i fails hard =>
    obtain ⟨c, hi, hs⟩ := Option.bind_eq_some_iff.mp hs
    obtain ⟨-, ⟨⟩⟩ := Option.ite_none_right_eq_some.mp hs
    exact .attached s i c fails hard
  | direct i hard =>
    obtain ⟨c, hi, hs⟩ := Option.bind_eq_some_iff.mp hs
    obtain ⟨-, ⟨⟩⟩ := Option.ite_none_right_eq_some.mp hs
    cases hard <;> exact .of_eq rfl rfl rfl rfl
  | advance i =>
    obtain ⟨c, hi, hs⟩ := Option.bind_eq_some_iff.mp hs
    cases hpc : c.pc with
    | attach =>
      rw [hpc] at hs
      cases hs
    | kill =>
      rw [hpc] at hs
      cases hs
      exact .of_eq rfl rfl rfl rfl
    | death =>
      rw [hpc] at hs
      cases hs
      exact (Ages.death s _ _).rest rfl rfl rfl rfl
  | stale n oc =>
    obtain ⟨x, hn, hs⟩ := onNs_cases hs
    obtain ⟨-, ⟨⟩⟩ := Option.ite_none_right_eq_some.mp hs
    exact (Ages.death s _ _).rest rfl rfl rfl rfl
  | staleKill oc =>
    obtain ⟨-, ⟨⟩⟩ := Option.ite_none_right_eq_some.mp hs
    exact .of_eq rfl rfl rfl rfl
  | sweep a oc =>
    obtain ⟨-, ⟨⟩⟩ := Option.ite_none_right_eq_some.mp hs
    exact (Ages.death s _ _).rest rfl rfl rfl rfl
  | death n oc =>
    obtain ⟨x, hn, hs⟩ := onNs_cases hs
    obtain ⟨-, ⟨⟩⟩ := Option.ite_none_right_eq_some.mp hs
    exact .death s _ _
  | abandon | kill | expire =>
    cases hs
    exact .of_eq rfl rfl rfl rfl

theorem ages_of_reach (h : Reach State.step always s t) : Ages s t := by
  induction h with
  | init => exact .refl s
  | step e _ _ hs ih => exact ih.trans (ages_step hs)

/-! ### Results -/

/-- A namespace without settings. -/
def memoryOnly : Config := ⟨[], false, ⟨64, 1024, 8192, 5, 0, 256, 1000, 0⟩, false⟩

/-- An event of the CLI thread with its next sections, none of which fails. -/
def through (e : Event) (k : Nat) : List Event := e :: List.replicate k (Event.cli true false [])

/-- VCL 1 is loaded and warmed, and caches the object 7; VCL 2 is loaded and warmed with a namespace of the
    configuration `c`. -/
def reload (c : Config) : List Event :=
  through (.load 1 memoryOnly) 3 ++ through (.warm 1) 3 ++ [.register 0 7, .insert 7 false, .attach 0 false false] ++
    through (.load 2 c) (if c = memoryOnly then 4 else 3) ++ through (.warm 2) 4

/-- VCL 1 is discarded. -/
def discard : List Event := through (.cold 1) 3 ++ through (.fini 0) 5

/-- VCL 1 is cooled, and warmed again for a fetch of the object 8. -/
def rollback : List Event := through (.cold 1) 6 ++ through (.warm 1) 6 ++ [.register 0 8, .insert 8 false]

/-- However VCLs are loaded, warmed, cooled and discarded: no index is used or freed that is not allocated, every index
    that is allocated has a namespace (but for one that is about to go), and each namespace finds the configuration
    that its VCL asked for, shared with no namespace of that VCL, and with another one's only where it is memory-only. -/
theorem index_of_namespace (h : Reach State.step always State.init s) :
    s.fault = false ∧
    (∀ n x, s.nss n = some x → ∃ idx, s.heap x.index = some idx ∧ idx.config = x.asked) ∧
    (∀ a idx, s.heap a = some idx → (∃ n x, s.nss n = some x ∧ x.index = a) ∨ ∃ n, s.cli = .dispose a n) ∧
    ∀ m n x y, s.nss m = some x → s.nss n = some y → x.index = y.index → m ≠ n →
      x.vcl ≠ y.vcl ∧ x.asked = y.asked ∧ x.asked.persist = false := by
  have hi := reach_inv h
  refine ⟨hi.fault, fun n x hn => hi.points hn, fun a idx ha => ?_, fun m n x y hm hn heq hne => ⟨fun hv => ?_, ?_, ?_⟩⟩
  · rcases hi.registry.held a _ (Option.map_eq_some_iff.mpr ⟨idx, ha, rfl⟩) with ⟨n, z, hz, hza⟩ | hd
    · obtain ⟨x, hn, rfl⟩ := names_eq.mp hz
      exact .inl ⟨n, x, hn, hza⟩
    · replace hd : s.cli.disposing = some a := hd
      cases hc : s.cli with
      | dispose b n =>
        rw [hc] at hd
        cases hd
        exact .inr ⟨n, rfl⟩
      | _ =>
        rw [hc] at hd
        cases hd
  · exact hne (hi.registry.apart m n _ _ (names_of hm) (names_of hn) heq hv)
  · obtain ⟨idx, ha, hx⟩ := hi.points hm
    obtain ⟨idx', ha', hy⟩ := hi.points hn
    rw [heq] at ha
    cases ha.symm.trans ha'
    exact hx.symm.trans hy
  · exact hi.registry.memory m n _ _ (names_of hm) (names_of hn) heq hne

theorem index_of_namespace_reload : ∃ s x y, run State.step State.init (reload memoryOnly) = some s ∧ s.fault = false ∧
    s.nss 0 = some x ∧ s.nss 1 = some y ∧ x.index = y.index ∧ x.vcl ≠ y.vcl ∧ x.asked = y.asked := by
  obtain ⟨s, hs, hshared⟩ := Option.map_eq_some_iff.mp (show (run State.step State.init (reload memoryOnly)).map
    (fun s => decide (∃ x ∈ s.nss 0, ∃ y ∈ s.nss 1, x.index = y.index)) = some true by decide +kernel)
  obtain ⟨x, hx, y, hy, heq⟩ := of_decide_eq_true hshared
  obtain ⟨hfault, -, -, hapart⟩ := index_of_namespace (.of_run hs)
  obtain ⟨hv, ha, -⟩ := hapart 0 1 x y hx hy heq (by decide)
  exact ⟨s, x, y, hs, hfault, hx, hy, heq, hv, ha⟩

/-- An object that was inserted with tags for a volatile index, and is not transient, is doomed, in the hands of its
    callback, or recorded by that index, which is not retired; and while the CLI thread is idle the index has its sweep
    thread and a warm, subscribed namespace. -/
theorem tracked (h : Reach State.step always State.init s) :
    ∀ o ∈ s.owed, s.Doomed o.2 ∨ (∃ c ∈ s.calls, c.index = o.1 ∧ c.oc = o.2) ∨
      ∃ idx, s.heap o.1 = some idx ∧ o.2 ∈ idx.objects ∧ idx.retired = false ∧
        (s.cli = .idle → idx.running = true ∧
          ∃ n ∈ s.global, ∃ x, s.nss n = some x ∧ x.index = o.1 ∧ x.warm = true ∧ x.subscribed = true) := by
  have hi := reach_inv h
  intro o ho
  rcases hi.kept.owed o ho with hdoomed | hcall | ⟨idx, ha, hm⟩
  · exact .inl hdoomed
  · exact .inr (.inl hcall)
  · cases hr : idx.retired with
    | true => exact .inl (.inl (hi.kept.retired o.1 idx ha hr o.2 hm))
    | false =>
      refine .inr (.inr ⟨idx, ha, hm, hr, fun hc => ?_⟩)
      obtain ⟨n, x, hn, hx, hsub | hd⟩ := hi.homed o.1 idx ha (List.ne_nil_of_mem hm)
      · have hw : x.warm = true := (hi.warm.flags_idle hc hn).symm.trans hsub
        obtain ⟨idx', ha', hrun⟩ := hi.warm.running n x hn (.inl hw)
        rw [hx] at ha'
        cases ha.symm.trans ha'
        exact ⟨hrun, n, hi.all_listed hc n x hn, x, hn, hx, hw, hsub⟩
      · rw [hc] at hd
        exact absurd hd id

theorem tracked_discard : ∃ s, run State.step State.init (reload memoryOnly ++ discard) = some s ∧ s.owed = [(0, 7)] ∧
    ∀ o ∈ s.owed, s.Doomed o.2 ∨ (∃ c ∈ s.calls, c.index = o.1 ∧ c.oc = o.2) ∨
      ∃ idx, s.heap o.1 = some idx ∧ o.2 ∈ idx.objects ∧ idx.retired = false ∧
        (s.cli = .idle → idx.running = true ∧
          ∃ n ∈ s.global, ∃ x, s.nss n = some x ∧ x.index = o.1 ∧ x.warm = true ∧ x.subscribed = true) := by
  obtain ⟨s, hs, howed⟩ := Option.map_eq_some_iff.mp (show (run State.step State.init (reload memoryOnly ++ discard)).map
    State.owed = some [(0, 7)] by decide +kernel)
  exact ⟨s, hs, howed, tracked (.of_run hs)⟩

/-- From the end of the WARM event of a VCL until the VCL is cooled or another namespace is made, whatever other VCLs
    are warmed, every such object that is not doomed and out of the hands of its callback is recorded by an index of
    that VCL. -/
theorem warm_owns (h : Reach State.step always State.init s) (hw : vcl ∈ s.warmed) (hv : vcl ∈ s.serving) :
    ∀ o ∈ s.owed, s.Doomed o.2 ∨ (∃ c ∈ s.calls, c.index = o.1 ∧ c.oc = o.2) ∨
      s.Owns vcl o.1 ∧ ∃ idx, s.heap o.1 = some idx ∧ o.2 ∈ idx.objects := by
  have hi := reach_inv h
  intro o ho
  rcases hi.kept.owed o ho with hdoomed | hcall | ⟨idx, ha, hm⟩
  · exact .inl hdoomed
  · exact .inr (.inl hcall)
  · rcases hi.owned.warmed vcl hw hv o.1 idx ha with hr | hown
    · exact .inl (.inl (hi.kept.retired o.1 idx ha hr o.2 hm))
    · exact .inr (.inr ⟨hown, idx, ha, hm⟩)

/-- Two VCLs are loaded before either is warmed. Then VCL 1 caches the object 7, and the transient object 8. -/
def pair : List Event :=
  through (.load 1 memoryOnly) 3 ++ through (.load 2 memoryOnly) 4 ++ through (.warm 1) 4 ++ through (.warm 2) 4 ++
    [.register 0 7, .insert 7 false, .attach 0 false false, .register 0 8, .insert 8 true]

theorem warm_owns_pair : ∃ s, run State.step State.init pair = some s ∧ s.owed = [(0, 7)] ∧
    ∀ o ∈ s.owed, s.Doomed o.2 ∨ (∃ c ∈ s.calls, c.index = o.1 ∧ c.oc = o.2) ∨
      s.Owns 1 o.1 ∧ ∃ idx, s.heap o.1 = some idx ∧ o.2 ∈ idx.objects := by
  obtain ⟨s, hs, hfacts⟩ := Option.map_eq_some_iff.mp (show (run State.step State.init pair).map
    (fun s => (s.warmed, s.serving, s.owed)) = some ([2, 1], [2, 1], [(0, 7)]) by decide +kernel)
  obtain ⟨hw, hrest⟩ := Prod.mk.inj hfacts
  obtain ⟨hv, howed⟩ := Prod.mk.inj hrest
  exact ⟨s, hs, howed, warm_owns (.of_run hs) (hw ▸ by decide) (hv ▸ by decide)⟩

/-- The seal of a retired index is permanent: whatever becomes of the VCL of a namespace that holds one, as long as the
    namespace exists its index is retired, whatever it records is dead, and its callbacks end in a kill. -/
theorem retired_for_good (h : Reach State.step always State.init s) (hn : s.nss n = some x)
    (ha : s.heap x.index = some idx) (hr : idx.retired = true) (ht : Reach State.step always s t)
    (hy : t.nss n = some y) :
    ∃ idx', t.heap y.index = some idx' ∧ idx'.retired = true ∧ (∀ oc ∈ idx'.objects, oc ∈ t.killed) ∧
      ∀ (i : Nat) (c : Call) (fails hard : Bool) (u : State), t.calls[i]? = some c → c.ns = n →
        t.step (.attach i fails hard) = some u → u.calls = t.calls.set i { c with pc := .kill } ∧ u.heap = t.heap := by
  have hi := reach_inv h
  have hj := reach_inv (h.trans ht)
  have hage := ages_of_reach ht
  obtain ⟨x', hx', hyx⟩ := hage.nss n (hi.registry.created n _ (names_of hn)) y hy
  cases hn.symm.trans hx'
  obtain ⟨idx', hb, -⟩ := hj.points hy
  have hlt := hi.registry.indexes x.index _ (Option.map_eq_some_iff.mpr ⟨idx, ha, rfl⟩)
  obtain ⟨idx₀, ha', hkeep⟩ := hage.heap x.index hlt idx' (hyx ▸ hb)
  cases ha.symm.trans ha'
  refine ⟨idx', hb, hkeep hr, hj.kept.retired _ idx' hb (hkeep hr), fun i c fails hard u hc hcn hu => ?_⟩
  obtain ⟨z, hz, hzc, -⟩ := hj.warm.calls c (List.mem_of_getElem? hc)
  rw [hcn] at hz
  cases hy.symm.trans hz
  obtain ⟨c', hc', hu⟩ := Option.bind_eq_some_iff.mp hu
  cases hc.symm.trans hc'
  obtain ⟨-, ⟨⟩⟩ := Option.ite_none_right_eq_some.mp hu
  rw [State.attached, use_eq (hzc ▸ hb), if_pos (by simp [hkeep hr])]
  exact ⟨rfl, rfl⟩

/-- A reload that changes a setting retires the index of VCL 1; a switch back does not bring it into service again. -/
theorem retired_for_good_rollback : ∃ s t y idx',
    run State.step State.init (reload { memoryOnly with interning := true }) = some s ∧
    run State.step s rollback = some t ∧ t.nss 0 = some y ∧ y.warm = true ∧ t.heap y.index = some idx' ∧
    idx'.retired = true ∧ ∀ oc ∈ idx'.objects, oc ∈ t.killed := by
  obtain ⟨s, hs, hfacts⟩ := Option.map_eq_some_iff.mp
    (show (run State.step State.init (reload { memoryOnly with interning := true })).map
      (fun s => ((∃ x ∈ s.nss 0, ∃ idx ∈ s.heap x.index, idx.retired = true : Bool),
        (∃ t ∈ run State.step s rollback, ∃ y ∈ t.nss 0, y.warm = true : Bool))) = some (true, true) by decide +kernel)
  obtain ⟨hx, ht⟩ := Prod.mk.inj hfacts
  obtain ⟨x, hx, idx, ha, hr⟩ := of_decide_eq_true hx
  obtain ⟨t, ht, y, hy, hw⟩ := of_decide_eq_true ht
  obtain ⟨idx', hb, hr', hdead, -⟩ := retired_for_good (.of_run hs) hx ha hr (.of_run ht) hy
  exact ⟨s, t, y, idx', hs, ht, hy, hw, hb, hr', hdead⟩

end Cachetag.Vcl
