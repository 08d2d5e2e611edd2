import Cachetag.Vcl.Warm

/-! Objects that came with tags stay tracked: through every load, warmup, cooling and discard each of them is dead or
recorded, and once a VCL has become warm its own indexes record them. -/

namespace Cachetag.Vcl
open Machine

namespace State

/-- The object is dead, or a `stale()` call is about to kill it. -/
def Doomed (s : State) (oc : Nat) : Prop := oc ∈ s.killed ∨ oc ∈ s.gone ∨ oc ∈ s.condemned

/-- The object is doomed, recorded, or in the hands of a callback. -/
def Settled (s : State) (o : Nat × Nat) : Prop :=
  s.Doomed o.2 ∨ (∃ c ∈ s.calls, c.index = o.1 ∧ c.oc = o.2) ∨ ∃ idx, s.heap o.1 = some idx ∧ o.2 ∈ idx.objects

/-- An index with records has a subscribed namespace, or its records are about to go. -/
def Homed (s : State) : Prop := ∀ a idx, s.heap a = some idx → idx.objects ≠ [] →
  ∃ n x, s.nss n = some x ∧ x.index = a ∧ (x.subscribed = true ∨ s.cli.draining n)

end State

/-- What the records have to answer for. -/
structure Kept (s : State) : Prop where
  drained : ∀ n k, s.cli = .detachAll n k → ∀ x, s.nss n = some x → ∀ idx, s.heap x.index = some idx →
    ∀ oc ∈ idx.objects, oc ∈ s.killed
  retired : ∀ a idx, s.heap a = some idx → idx.retired = true → ∀ oc ∈ idx.objects, oc ∈ s.killed
  dying : ∀ c ∈ s.calls, c.pc = .death → c.oc ∈ s.killed
  owed : ∀ o ∈ s.owed, s.Settled o

/-- Whose the indexes are that may still record. -/
structure Owned (s : State) : Prop where
  warmed : ∀ vcl ∈ s.warmed, vcl ∈ s.serving → ∀ a idx, s.heap a = some idx → idx.retired = true ∨ s.Owns vcl a
  rounds : ∀ vcl rest, s.cli = .retire vcl rest → ∀ m ∈ rest, m ∈ s.global
  retiring : ∀ vcl rest, s.cli = .retire vcl rest → ∀ a idx, s.heap a = some idx →
    idx.retired = true ∨ s.Owns vcl a ∨ ∃ m ∈ rest, ∃ x, s.nss m = some x ∧ x.index = a

structure Inv (s : State) : Prop where
  registry : s.registry.WF
  fault : s.fault = false
  warm : Warm s
  homed : s.Homed
  kept : Kept s
  owned : Owned s

variable {s t : State} {n a : Nat} {x y : Namespace} {idx : Index} {k : WarmCont} {j : ColdCont}

/-- A namespace's index is allocated, with the configuration that its VCL asked for. -/
theorem Inv.points (h : Inv s) (hn : s.nss n = some x) : ∃ idx, s.heap x.index = some idx ∧ idx.config = x.asked :=
  Option.map_eq_some_iff.mp (h.registry.points n _ (names_of hn))

/-! ### What carries over -/

theorem State.Homed.mark (h : s.Homed)
    (hheap : ∀ b idx', t.heap b = some idx' → idx'.objects ≠ [] → ∃ idx, s.heap b = some idx ∧ idx.objects ≠ [])
    (hhome : ∀ n x, s.nss n = some x → x.subscribed = true ∨ s.cli.draining n →
      ∃ n' x', t.nss n' = some x' ∧ x'.index = x.index ∧ (x'.subscribed = true ∨ t.cli.draining n')) : t.Homed := by
  intro b idx' hb hne
  obtain ⟨idx, hs, hs'⟩ := hheap b idx' hb hne
  obtain ⟨n, x, hn, hx, hsub⟩ := h b idx hs hs'
  obtain ⟨n', x', hn', hx', hsub'⟩ := hhome n x hn hsub
  exact ⟨n', x', hn', hx'.trans hx, hsub'⟩

theorem Kept.mark (h : Kept s) (hkilled : t.killed = s.killed) (hdoomed : ∀ oc, s.Doomed oc → t.Doomed oc)
    (hcalls : t.calls = s.calls) (howed : t.owed = s.owed)
    (hnew : ∀ b idx', t.heap b = some idx' → idx'.objects = [] ∨ ∃ idx, s.heap b = some idx ∧
      idx'.objects = idx.objects ∧ (idx'.retired = true → idx.retired = true))
    (hold : ∀ b idx, s.heap b = some idx → idx.objects ≠ [] → ∃ idx', t.heap b = some idx' ∧ idx'.objects = idx.objects)
    (hcli : ∀ n k, t.cli ≠ .detachAll n k) : Kept t where
  drained n k hc := absurd hc (hcli n k)
  retired b idx' hb hr oc hoc := by
    rw [hkilled]
    rcases hnew b idx' hb with he | ⟨idx, hs, ho, hr'⟩
    · rw [he] at hoc
      cases hoc
    · exact h.retired b idx hs (hr' hr) oc (ho ▸ hoc)
  dying c hc := by
    rw [hkilled]
    exact h.dying c (hcalls ▸ hc)
  owed o ho := by
    unfold State.Settled
    rw [hcalls]
    refine (h.owed o (howed ▸ ho)).imp (hdoomed o.2) (Or.imp_right ?_)
    rintro ⟨idx, hs, hm⟩
    obtain ⟨idx', hb, hobj⟩ := hold o.1 idx hs (List.ne_nil_of_mem hm)
    exact ⟨idx', hb, hobj ▸ hm⟩

theorem owns_of_names (hn : ∀ m, (t.nss m).map Namespace.name = (s.nss m).map Namespace.name)
    (hg : ∀ m ∈ s.global, m ∈ t.global) {vcl b : Nat} (h : s.Owns vcl b) : t.Owns vcl b := by
  obtain ⟨m, hm, y, hy, hv, hi⟩ := h
  have hty := hn m
  rw [hy] at hty
  obtain ⟨z, hz, hname⟩ := Option.map_eq_some_iff.mp hty
  obtain ⟨h₁, h₂, -⟩ := Name.mk.inj hname
  exact ⟨m, hg m hm, z, hz, h₁.trans hv, h₂.trans hi⟩

/-- What a section leaves alone of an index that only marks it. -/
def Index.core (idx : Index) : Config × Bool × List Nat := (idx.config, idx.retired, idx.objects)

theorem core_of (ha : ∀ b, (t.heap b).map Index.core = (s.heap b).map Index.core) {b : Nat} (hb : t.heap b = some idx) :
    ∃ idx', s.heap b = some idx' ∧ idx.config = idx'.config ∧ idx.retired = idx'.retired ∧ idx.objects = idx'.objects := by
  have hs := ha b
  rw [hb] at hs
  obtain ⟨idx', hs, heq⟩ := Option.map_eq_some_iff.mp hs.symm
  obtain ⟨h₁, h₂⟩ := Prod.mk.inj heq
  obtain ⟨h₂, h₃⟩ := Prod.mk.inj h₂
  exact ⟨idx', hs, h₁.symm, h₂.symm, h₃.symm⟩

theorem confs_of_core (ha : ∀ b, (t.heap b).map Index.core = (s.heap b).map Index.core) (b : Nat) :
    (t.heap b).map Index.config = (s.heap b).map Index.config := by
  have := congrArg (Option.map Prod.fst) (ha b)
  rwa [Option.map_map, Option.map_map] at this

theorem Registry.WF.of_eq {r r' : Registry} (h : r.WF) (heq : r' = r) : r'.WF := heq ▸ h

/-- Once all namespaces are in the list, one of them holds any index. -/
theorem Registry.WF.all_held {r : Registry} (h : r.WF) (hu : r.unlinked = none) (hd : r.disposing = none) {c : Config}
    (ha : r.confs a = some c) : ∃ m ∈ r.global, ∃ y, r.names m = some y ∧ y.index = a := by
  rcases h.held a c ha with ⟨m, y, hm, hy⟩ | hdis
  · exact ⟨m, h.linked_of_quiet hu hm, y, hm, hy⟩
  · rw [hd] at hdis
    cases hdis

/-- A section that only marks namespaces and indexes. -/
theorem Inv.mark (h : Inv s) {heap : Nat → Option Index} {nss : Nat → Option Namespace} {provider : Bool} {cli : Cli}
    {serving : List Nat} (hwarm : Warm { s with heap, nss, provider, cli, serving })
    (hn : ∀ m, (nss m).map Namespace.name = (s.nss m).map Namespace.name)
    (ha : ∀ b, (heap b).map Index.core = (s.heap b).map Index.core) (hu : cli.unlinked = s.cli.unlinked)
    (hd : cli.disposing = s.cli.disposing) (hserving : ∀ vcl ∈ serving, vcl ∈ s.serving)
    (hhome : ∀ n x, s.nss n = some x → x.subscribed = true ∨ s.cli.draining n →
      ∃ n' x', nss n' = some x' ∧ x'.index = x.index ∧ (x'.subscribed = true ∨ cli.draining n'))
    (hdetach : ∀ n k, cli ≠ .detachAll n k) (hretire : ∀ vcl rest, cli = .retire vcl rest → rest = s.global) :
    Inv { s with heap, nss, provider, cli, serving } := by
  have hreg : State.registry { s with heap, nss, provider, cli, serving } = s.registry :=
    registry_eq hn (confs_of_core ha) rfl rfl rfl hu hd
  refine ⟨h.registry.of_eq hreg, h.fault, hwarm, ?_, ?_, ⟨fun vcl hv hs b idx' hb => ?_, ?_, fun vcl rest hcli b idx' hb => ?_⟩⟩
  · refine h.homed.mark (fun b idx' hb hne => ?_) hhome
    obtain ⟨idx, hs, -, -, ho⟩ := core_of ha hb
    exact ⟨idx, hs, ho ▸ hne⟩
  · refine h.kept.mark rfl (fun _ => id) rfl rfl (fun b idx' hb => .inr ?_) (fun b idx hb _ => ?_) hdetach
    · obtain ⟨idx, hs, -, hr, ho⟩ := core_of ha hb
      exact ⟨idx, hs, ho, fun h => hr ▸ h⟩
    · obtain ⟨idx', hs, -, -, ho⟩ := core_of (s := { s with heap, nss, provider, cli, serving }) (fun b => (ha b).symm) hb
      exact ⟨idx', hs, ho.symm⟩
  · obtain ⟨idx, hs', -, hr, -⟩ := core_of ha hb
    rw [hr]
    refine (h.owned.warmed vcl hv (hserving vcl hs) b idx hs').imp_right fun ho => ?_
    exact owns_of_names (s := s) (t := { s with heap, nss, provider, cli, serving }) hn (fun m hm => hm) ho
  · exact fun vcl rest hcli m hm => hretire vcl rest hcli ▸ hm
  · -- the rounds begin with all namespaces, and one of them holds the index
    have hwf := h.registry.of_eq hreg
    replace hcli : cli = .retire vcl rest := hcli
    obtain ⟨m, hm, y, hy, hyb⟩ := hwf.all_held (by simp [State.registry, hcli, Cli.unlinked])
      (by simp [State.registry, hcli, Cli.disposing]) (Option.map_eq_some_iff.mpr ⟨idx', hb, rfl⟩)
    obtain ⟨z, hz, rfl⟩ := names_eq.mp hy
    rw [hretire vcl rest hcli]
    exact .inr (.inr ⟨m, hm, z, hz, hyb⟩)

theorem home_of_nss {c : Cli} (hd : ∀ m, s.cli.draining m → c.draining m) (n : Nat) (x : Namespace)
    (hn : s.nss n = some x) (hx : x.subscribed = true ∨ s.cli.draining n) :
    ∃ n' x', s.nss n' = some x' ∧ x'.index = x.index ∧ (x'.subscribed = true ∨ c.draining n') :=
  ⟨n, x, hn, rfl, hx.imp_right (hd n)⟩

theorem home_of_setNs {c : Cli} {x' : Namespace} (hn : s.nss n = some x) (hindex : x'.index = x.index)
    (hsub : x.subscribed = true → x'.subscribed = true ∨ c.draining n) (hd : ∀ m, s.cli.draining m → c.draining m)
    (m : Nat) (y : Namespace) (hm : s.nss m = some y) (hy : y.subscribed = true ∨ s.cli.draining m) :
    ∃ m' y', Function.update s.nss n (some x') m' = some y' ∧ y'.index = y.index ∧
      (y'.subscribed = true ∨ c.draining m') := by
  rcases eq_or_ne m n with rfl | hne
  · cases hn.symm.trans hm
    exact ⟨m, x', Function.update_self .., hindex, hy.elim hsub fun h => .inr (hd m h)⟩
  · exact ⟨m, y, (Function.update_of_ne hne ..).trans hm, rfl, hy.imp_right (hd m)⟩

theorem release_eq (s : State) : s.providerReleaseIfIdle = { s with provider := s.providerReleaseIfIdle.provider } := by
  unfold State.providerReleaseIfIdle
  split <;> rfl

@[simp] theorem unlinked_cooled : (State.cooled n j).unlinked = j.unlinked n := by
  rcases j with (_ | _) | (_ | _) | _ <;> rfl

@[simp] theorem disposing_cooled : (State.cooled n j).disposing = none := by
  rcases j with (_ | _) | (_ | _) | _ <;> rfl

@[simp] theorem not_draining_cooled {m : Nat} : ¬(State.cooled n j).draining m := by
  rcases j with (_ | _) | (_ | _) | _ <;> exact id

theorem cooled_ne_detachAll {m : Nat} {j' : ColdCont} : State.cooled n j ≠ .detachAll m j' := by
  rcases j with (_ | _) | (_ | _) | _ <;> simp [State.cooled, State.failed, State.nextCold]

theorem cooled_ne_retire {vcl : Nat} {rest : List Nat} : State.cooled n j ≠ .retire vcl rest := by
  rcases j with (_ | _) | (_ | _) | _ <;> simp [State.cooled, State.failed, State.nextCold]

/-! ### Sections that mark -/

theorem Inv.start (h : Inv s) (hc : s.cli = .start n k) (hn : s.nss n = some x) (hw : x.warm = false)
    (ha : s.heap x.index = some idx) :
    Inv { s.setIndex x.index { idx with running := true } with cli := .subscribe n k } := by
  refine h.mark (h.warm.start hc hn hw idx) (fun _ => rfl) (map_update ha rfl) (by rw [hc]; rfl)
    (by rw [hc]; rfl) (fun _ => id) (home_of_nss ?_) (by simp) (by simp)
  simp [hc, Cli.draining]

theorem Inv.failed (h : Inv s) (hc : s.cli = .start n k) (hn : s.nss n = some x) (hw : x.warm = false) :
    Inv { s with cli := State.failed n k } := by
  refine h.mark (h.warm.failed hc hn hw) (fun _ => rfl) (fun _ => rfl) ?_ ?_
    (fun _ => id) (home_of_nss ?_) ?_ ?_
  · cases k <;> rw [hc] <;> rfl
  · cases k <;> rw [hc] <;> rfl
  · simp [hc, Cli.draining]
  · cases k <;> simp [State.failed]
  · cases k <;> simp [State.failed]

theorem Inv.warmed (h : Inv s) (hc : s.cli = .start n k) (hn : s.nss n = some x) (hw : x.warm = true) :
    Inv (s.warmReturn k) := by
  have hwarm := h.warm.warmed hc hn hw
  rcases k with _ | ⟨vcl, _ | ⟨m, rest⟩⟩ <;>
    refine h.mark hwarm (fun _ => rfl) (fun _ => rfl) ?_ ?_
      (fun _ => id) (home_of_nss ?_) ?_ ?_ <;>
    simp [hc, Cli.draining, Cli.unlinked, Cli.disposing, State.nextWarm]

theorem Inv.subscribe (h : Inv s) (hc : s.cli = .subscribe n k) (hn : s.nss n = some x) :
    Inv { s.setNs n { x with subscribed := true } with cli := .ensure n k } := by
  refine h.mark (h.warm.subscribe hc hn) (map_update hn rfl) (fun _ => rfl) (by rw [hc]; rfl)
    (by rw [hc]; rfl) (fun _ => id) (home_of_setNs hn rfl ?_ ?_) (by simp) (by simp)
  · exact fun _ => .inl rfl
  · simp [hc, Cli.draining]

theorem Inv.ensured (h : Inv s) (hc : s.cli = .ensure n k) (hn : s.nss n = some x) {direct provider : Bool}
    (hp : s.provider = true → provider = true) (hd : direct = true → provider = true) :
    Inv ({ s.setNs n { x with warm := true, direct } with provider }.warmReturn k) := by
  have hwarm := h.warm.ensured hc hn hp hd
  rcases k with _ | ⟨vcl, _ | ⟨m, rest⟩⟩ <;>
    refine h.mark hwarm (map_update hn rfl) (fun _ => rfl) ?_ ?_
      (fun _ => id) (home_of_setNs hn rfl .inl ?_) ?_ ?_ <;>
    simp [hc, Cli.draining, Cli.unlinked, Cli.disposing, State.nextWarm, State.setNs]

theorem Inv.unready (h : Inv s) (hc : s.cli = .ensure n k) : Inv { s with cli := .cool n (.failed k) } := by
  refine h.mark (h.warm.unready hc) (fun _ => rfl) (fun _ => rfl) (by rw [hc]; rfl)
    (by rw [hc]; rfl) (fun _ => id) (home_of_nss ?_) (by simp) (by simp)
  simp [hc, Cli.draining]

theorem Inv.cool (h : Inv s) (hc : s.cli = .cool n j) (hn : s.nss n = some x) :
    Inv { s.setNs n { x with warm := false, direct := false } with cli := .unsubscribe n j } := by
  refine h.mark (h.warm.cool hc hn) (map_update hn rfl) (fun _ => rfl) (by rw [hc]; rfl)
    (by rw [hc]; rfl) (fun _ => id) (home_of_setNs hn rfl .inl ?_) (by simp) (by simp)
  simp [hc, Cli.draining]

theorem Inv.unsubscribe (h : Inv s) (hc : s.cli = .unsubscribe n j) (hn : s.nss n = some x)
    (hcalls : s.calls = [] ∨ x.subscribed = false) :
    Inv { s.setNs n { x with subscribed := false } with cli := .peers n j } := by
  refine h.mark (h.warm.unsubscribe hc hn hcalls) (map_update hn rfl) (fun _ => rfl) (by rw [hc]; rfl)
    (by rw [hc]; rfl) (fun _ => id) (home_of_setNs hn rfl ?_ ?_) (by simp) (by simp)
  · exact fun _ => .inr rfl
  · simp [hc, Cli.draining]

theorem hasWarmPeer_iff : s.hasWarmPeer n a = true ↔
    ∃ m ∈ s.global, m ≠ n ∧ ∃ y, s.nss m = some y ∧ y.index = a ∧ y.warm = true := by
  simp [State.hasWarmPeer, Option.any_eq_true]

/-- The namespaces that are not in the list: the one that the section is about. -/
theorem Inv.listed (h : Inv s) (hc : s.cli = .peers n j) (hn : s.nss a = some x) : a = n ∨ a ∈ s.global := by
  rcases h.registry.listed a _ (names_of hn) with hm | ⟨last, hu⟩
  · exact .inr hm
  · refine .inl ?_
    replace hu : s.cli.unlinked = some (a, last) := hu
    rw [hc] at hu
    cases j <;> cases hu
    rfl

theorem Inv.peers (h : Inv s) (hc : s.cli = .peers n j) (hn : s.nss n = some x) :
    Inv (if s.hasWarmPeer n x.index then s.coldReturn n j else { s with cli := .stop n j }) := by
  split
  · rename_i hpeer
    obtain ⟨m, -, -, y, hm, hidx, hy⟩ := hasWarmPeer_iff.mp hpeer
    have hwarm := h.warm.release.cooled (n := n) (j := j) (by rw [release_eq]; exact .inl hc)
    rw [State.coldReturn]
    rw [release_eq] at hwarm ⊢
    refine h.mark hwarm (fun _ => rfl) (fun _ => rfl) ?_ ?_ (fun _ => id) ?_ ?_ ?_
    · rw [hc]
      exact unlinked_cooled
    · rw [hc]
      exact disposing_cooled
    · intro m' y' hm' hy'
      rcases hy' with hy' | hd
      · exact ⟨m', y', hm', rfl, .inl hy'⟩
      · -- the records stay with the warm peer
        rw [hc] at hd
        obtain rfl : n = m' := hd
        cases hn.symm.trans hm'
        exact ⟨m, y, hm, hidx, .inl (h.warm.lit hm hy)⟩
    · exact fun _ _ => cooled_ne_detachAll
    · exact fun _ _ hc => absurd hc cooled_ne_retire
  · rename_i hpeer
    have hwarm := h.warm.peerless hc hn (fun m hm hne y hy hidx => by
      by_contra hw
      exact hpeer (hasWarmPeer_iff.mpr ⟨m, hm, hne, y, hy, hidx, by simpa using hw⟩)) fun m y hm => h.listed hc hm
    refine h.mark hwarm (fun _ => rfl) (fun _ => rfl) (by rw [hc]; rfl) (by rw [hc]; rfl) (fun _ => id) (home_of_nss ?_) (by simp) (by simp)
    simp [hc, Cli.draining]

theorem Inv.stop (h : Inv s) (hc : s.cli = .stop n j) (hn : s.nss n = some x) (ha : s.heap x.index = some idx) :
    Inv { s.setIndex x.index { idx with running := false } with cli := .killAll n j } := by
  refine h.mark (h.warm.stop hc hn idx) (fun _ => rfl) (map_update ha rfl) (by rw [hc]; rfl)
    (by rw [hc]; rfl) (fun _ => id) (home_of_nss ?_) (by simp) (by simp)
  simp [hc, Cli.draining]

/-! ### Sections that kill -/

/-- The kills of an index. -/
theorem Kept.killAllLocked (h : Kept s) (ha : s.heap a = some idx) (retired : Bool) (left : List Nat) (c : Cli)
    (hc : ∀ n j, c = .detachAll n j → ∀ x, s.nss n = some x → x.index = a) :
    Kept { s.killAllLocked a { idx with retired } left with cli := c } := by
  have hkill : ∀ {oc}, oc ∈ idx.objects → oc ∈ idx.objects ++ s.killed := List.mem_append_left _
  have hmore : ∀ {oc}, oc ∈ s.killed → oc ∈ idx.objects ++ s.killed := List.mem_append_right _
  refine ⟨?_, ?_, ?_, ?_⟩
  · intro n j hcli x hn idx' hb oc hoc
    replace hb : Function.update s.heap a _ x.index = some idx' := hb
    rw [hc n j hcli x hn, Function.update_self] at hb
    cases hb
    exact hkill (List.mem_of_mem_filter hoc)
  · intro b idx' hb hr oc hoc
    rcases update_eq_some.mp hb with ⟨rfl, ⟨⟩⟩ | ⟨-, hb⟩
    · exact hkill (List.mem_of_mem_filter hoc)
    · exact hmore (h.retired b idx' hb hr oc hoc)
  · exact fun c hc hpc => hmore (h.dying c hc hpc)
  · intro o ho
    rcases h.owed o ho with hdoomed | hcall | ⟨idx', hb, hm⟩
    · exact .inl (hdoomed.imp_left hmore)
    · exact .inr (.inl hcall)
    · rcases eq_or_ne o.1 a with heq | hne
      · rw [heq, ha] at hb
        cases hb
        exact .inl (.inl (hkill hm))
      · exact .inr (.inr ⟨idx', (Function.update_of_ne hne ..).trans hb, hm⟩)

theorem Inv.killAll (h : Inv s) (hc : s.cli = .killAll n j) (hn : s.nss n = some x) (ha : s.heap x.index = some idx)
    (left : List Nat) : Inv { s.killAllLocked x.index idx left with cli := .detachAll n j } where
  registry := h.registry.of_eq (registry_eq (fun _ => rfl) (map_update ha rfl) rfl rfl rfl (by rw [hc]; rfl)
    (by rw [hc]; rfl))
  fault := h.fault
  warm := by
    refine (h.warm.killAll hc).worker rfl rfl rfl rfl rfl (fun b idx' hb => ?_) h.warm.calls h.warm.fetches
    rcases eq_or_ne b x.index with rfl | hne
    · cases ha.symm.trans hb
      exact ⟨_, Function.update_self .., rfl⟩
    · exact ⟨idx', (Function.update_of_ne hne ..).trans hb, rfl⟩
  homed := by
    refine h.homed.mark (fun b idx' hb hne => ?_) (home_of_nss (by simp [hc, Cli.draining]))
    rcases update_eq_some.mp hb with ⟨rfl, ⟨⟩⟩ | ⟨-, hb⟩
    · refine ⟨idx, ha, fun he => hne ?_⟩
      rw [he]
      rfl
    · exact ⟨idx', hb, hne⟩
  kept := by
    refine h.kept.killAllLocked ha idx.retired left _ fun m j' hcli y hm => ?_
    cases hcli
    cases hn.symm.trans hm
    rfl
  owned := by
    refine ⟨fun vcl hv hs b idx' hb => ?_, by simp, by simp⟩
    rcases update_eq_some.mp hb with ⟨rfl, ⟨⟩⟩ | ⟨-, hb⟩
    · exact h.owned.warmed vcl hv hs _ idx ha
    · exact h.owned.warmed vcl hv hs b idx' hb

/-! ### Sections that change the registry -/

theorem map_clear {α β : Type*} {f : α → β} {g : Nat → Option α} :
    (fun m => (Function.update g a none m).map f) = Function.update (fun m => (g m).map f) a none := by
  funext m
  rw [Function.update_apply, Function.update_apply]
  split <;> rfl

theorem map_set {α β : Type*} {f : α → β} {g : Nat → Option α} {v : α} :
    (fun m => (Function.update g a (some v) m).map f) = Function.update (fun m => (g m).map f) a (some (f v)) := by
  funext m
  rw [Function.update_apply, Function.update_apply]
  split <;> rfl

theorem Inv.detachAll (h : Inv s) (hc : s.cli = .detachAll n j) (hn : s.nss n = some x) (ha : s.heap x.index = some idx) :
    Inv ((s.setIndex x.index { idx with objects := [] }).coldReturn n j) := by
  have hwarm : Warm (s.setIndex x.index { idx with objects := [] }) := by
    refine h.warm.worker rfl rfl rfl rfl rfl (fun b idx' hb => ?_) h.warm.calls h.warm.fetches
    rcases eq_or_ne b x.index with rfl | hne
    · cases ha.symm.trans hb
      exact ⟨_, Function.update_self .., rfl⟩
    · exact ⟨idx', (Function.update_of_ne hne ..).trans hb, rfl⟩
  -- With the index of the namespace empty, the walk goes on to the next one.
  have hcooled := hwarm.release.cooled (n := n) (j := j) (by rw [release_eq]; exact .inr hc)
  rw [State.coldReturn]
  rw [release_eq] at hcooled ⊢
  refine ⟨?_, h.fault, hcooled, ?_, ⟨?_, ?_, h.kept.dying, ?_⟩, ⟨?_, ?_, ?_⟩⟩
  · refine h.registry.of_eq (registry_eq (fun _ => rfl) (map_update ha rfl) rfl rfl rfl ?_ ?_) <;> rw [hc]
    · exact unlinked_cooled
    · exact disposing_cooled
  · intro b idx' hb hne
    rcases update_eq_some.mp hb with ⟨rfl, ⟨⟩⟩ | ⟨hbx, hb⟩
    · exact absurd rfl hne
    · obtain ⟨m, y, hm, hy, hsub | hd⟩ := h.homed b idx' hb hne
      · exact ⟨m, y, hm, hy, .inl hsub⟩
      · rw [hc] at hd
        obtain rfl : n = m := hd
        cases hn.symm.trans hm
        exact absurd hy.symm hbx
  · exact fun _ _ hc => absurd hc cooled_ne_detachAll
  · intro b idx' hb hr oc hoc
    rcases update_eq_some.mp hb with ⟨rfl, ⟨⟩⟩ | ⟨-, hb⟩
    · cases hoc
    · exact h.kept.retired b idx' hb hr oc hoc
  · intro o ho
    rcases h.kept.owed o ho with hdoomed | hcall | ⟨idx', hb, hm⟩
    · exact .inl hdoomed
    · exact .inr (.inl hcall)
    · rcases eq_or_ne o.1 x.index with heq | hne
      · -- its index has killed it
        rw [heq] at hb
        exact .inl (.inl (h.kept.drained n j hc x hn idx' hb o.2 hm))
      · exact .inr (.inr ⟨idx', (Function.update_of_ne hne ..).trans hb, hm⟩)
  · intro vcl hv hs b idx' hb
    rcases update_eq_some.mp hb with ⟨rfl, ⟨⟩⟩ | ⟨-, hb⟩
    · exact h.owned.warmed vcl hv hs _ idx ha
    · exact h.owned.warmed vcl hv hs b idx' hb
  · exact fun _ _ hc => absurd hc cooled_ne_retire
  · exact fun _ _ hc => absurd hc cooled_ne_retire

/-- An index goes that has no records and that no namespace holds. -/
theorem Kept.free (h : Kept s) (hempty : ∀ idx, s.heap a = some idx → idx.objects = []) {c : Cli}
    (hc : ∀ n j, c ≠ .detachAll n j) : Kept { s with heap := Function.update s.heap a none, cli := c } := by
  refine h.mark rfl (fun _ => id) rfl rfl (fun b idx' hb => .inr ?_) (fun b idx hb hne => ?_) hc
  · exact ⟨idx', (of_cleared hb).2, rfl, id⟩
  · refine ⟨idx, (Function.update_of_ne ?_ ..).trans hb, rfl⟩
    rintro rfl
    exact hne (hempty idx hb)

theorem Inv.dispose (h : Inv s) (hc : s.cli = .dispose a n) : Inv { s.indexDelete a with cli := .start n .init } := by
  obtain ⟨⟨c, hconf⟩, hfree⟩ := h.registry.disposing a (by rw [State.registry, hc]; rfl)
  obtain ⟨idx, ha, -⟩ := Option.map_eq_some_iff.mp hconf
  have hfree' : ∀ m y, s.nss m = some y → y.index ≠ a := fun m y hm => hfree m _ (names_of hm)
  have hempty : ∀ idx, s.heap a = some idx → idx.objects = [] := by
    intro idx ha
    by_contra hne
    obtain ⟨m, y, hm, hy, -⟩ := h.homed a idx ha hne
    exact hfree' m y hm hy
  rw [State.indexDelete, use_eq ha]
  refine ⟨?_, h.fault, ?_, ?_, ?_, ⟨?_, by simp, by simp⟩⟩
  · refine (h.registry.dispose (a := a) (by rw [State.registry, hc]; rfl)).of_eq ?_
    simp only [State.registry, Registry.dispose, map_clear, hc]
    rfl
  · exact (h.warm.dispose hc).heap fun m y hm => Function.update_of_ne (hfree' m y hm) ..
  · refine h.homed.mark (fun b idx' hb hne => ⟨idx', (of_cleared hb).2, hne⟩) (home_of_nss ?_)
    simp [hc, Cli.draining]
  · exact h.kept.free hempty (by simp)
  · exact fun vcl hv hs b idx' hb => h.owned.warmed vcl hv hs b idx' (of_cleared hb).2

/-- Ownership, when the VCL of the namespace does not serve. -/
theorem owns_of_ne {vcl b : Nat} (h : s.Owns vcl b) (hn : s.nss n = some x) (hne : x.vcl ≠ vcl)
    (hg : ∀ m ∈ s.global, m ≠ n → m ∈ t.global) (hnss : ∀ m, m ≠ n → t.nss m = s.nss m) : t.Owns vcl b := by
  obtain ⟨m, hm, y, hy, hv, hi⟩ := h
  have hmn : m ≠ n := by
    rintro rfl
    cases hn.symm.trans hy
    exact hne hv
  exact ⟨m, hg m hm hmn, y, (hnss m hmn).trans hy, hv, hi⟩

theorem Inv.vcl_idle (h : Inv s) (hm : n ∈ s.cli.handled) (hn : s.nss n = some x) : x.vcl ∉ s.serving := by
  obtain ⟨y, hy, hv⟩ := h.warm.handled n hm
  cases hn.symm.trans hy
  exact hv

theorem Inv.remove (h : Inv s) {fini : Bool} (hc : s.cli = .remove n fini) (hn : s.nss n = some x) :
    Inv { (s.namespaceGlobalRemove n x).1 with
      cli := if fini then .cool n (.fini (s.namespaceGlobalRemove n x).2)
        else .delete n (s.namespaceGlobalRemove n x).2 } := by
  generalize hlast : (s.namespaceGlobalRemove n x).2 = last
  have hwarm := (h.warm.unlist n).release.removed (by rw [release_eq]; exact hc) last
  rw [State.namespaceGlobalRemove]
  dsimp only
  rw [release_eq] at hwarm ⊢
  have hunl : Cli.unlinked (if fini then .cool n (.fini last) else .delete n last) = some (n, last) := by
    cases fini <;> rfl
  have hdis : Cli.disposing (if fini then .cool n (.fini last) else .delete n last) = none := by
    cases fini <;> rfl
  have hdet : ∀ m j, (if fini then .cool n (.fini last) else .delete n last) ≠ Cli.detachAll m j := by
    cases fini <;> simp
  have hret : ∀ v l, (if fini then .cool n (.fini last) else .delete n last) ≠ Cli.retire v l := by
    cases fini <;> simp
  refine ⟨?_, h.fault, hwarm, ?_, ?_, ?_⟩
  · refine (h.registry.remove (by rw [State.registry, hc]; rfl) (names_of hn) ?_ : (s.registry.remove n last).WF).of_eq ?_
    · rw [← hlast]
      simp only [State.namespaceGlobalRemove, Bool.not_eq_true', List.any_eq_false, Option.any_eq_true, beq_iff_eq]
      refine forall₂_congr fun m hm => ⟨fun hno y hy => ?_, fun hno => ?_⟩
      · obtain ⟨z, hz, rfl⟩ := names_eq.mp hy
        exact fun heq => hno ⟨z, hz, heq⟩
      · rintro ⟨y, hy, heq⟩
        exact hno _ (names_of hy) heq
    · simp only [State.registry, Registry.remove, hunl, hdis]
      rw [hc]
      rfl
  · refine h.homed.mark (fun b idx' hb hne => ⟨idx', hb, hne⟩) (home_of_nss ?_)
    simp [hc, Cli.draining]
  · exact h.kept.mark rfl (fun _ => id) rfl rfl (fun b idx' hb => .inr ⟨idx', hb, rfl, id⟩) (fun b idx' hb _ => ⟨idx', hb, rfl⟩) hdet
  · refine ⟨fun vcl hv hs b idx' hb => ?_, fun v l hc => absurd hc (hret v l), fun v l hc => absurd hc (hret v l)⟩
    refine (h.owned.warmed vcl hv hs b idx' hb).imp_right fun ho => owns_of_ne ho hn ?_ ?_ fun _ _ => rfl
    · rintro rfl
      exact h.vcl_idle (by rw [hc]; exact List.mem_cons_self) hn hs
    · exact fun m hm hne => (List.mem_erase_of_ne hne).mpr hm

theorem Inv.delete (h : Inv s) {last : Bool} (hc : s.cli = .delete n last) (hn : s.nss n = some x) :
    Inv { (if last then s.indexDelete x.index else s) with nss := Function.update s.nss n none, cli := .idle } := by
  obtain ⟨idx, ha, -⟩ := h.points hn
  have hu : s.registry.unlinked = some (n, last) := by rw [State.registry, hc]; rfl
  obtain ⟨hout, x', hx', hlast⟩ := h.registry.unlinked n last hu
  cases (names_of hn).symm.trans hx'
  have hvcl := h.vcl_idle (by rw [hc]; exact List.mem_cons_self) hn
  have hdark : x.subscribed = false := by
    have := h.warm.flags n x hn
    rw [hc] at this
    exact this.1.trans (this.2 rfl)
  have halone : last = true → ∀ m y, s.nss m = some y → y.index = x.index → m = n := fun hl m y hm heq =>
    hlast.mp hl m _ (names_of hm) heq
  -- An object is recorded only where a namespace is subscribed, and this one, which was the last, is not.
  have hempty : last = true → ∀ idx, s.heap x.index = some idx → idx.objects = [] := by
    intro hl idx ha
    by_contra hne
    obtain ⟨m, y, hm, hy, hsub | hd⟩ := h.homed _ idx ha hne
    · cases halone hl m y hm hy
      cases hn.symm.trans hm
      rw [hdark] at hsub
      cases hsub
    · rw [hc] at hd
      exact hd
  -- The index goes with the last of its namespaces.
  have hheap : (if last then s.indexDelete x.index else s) =
      { s with heap := if last then Function.update s.heap x.index none else s.heap } := by
    cases last
    · rfl
    · simp [State.indexDelete, use_eq ha]
  rw [hheap]
  have hsame : ∀ b idx', (if last then Function.update s.heap x.index none else s.heap) b = some idx' →
      s.heap b = some idx' := by
    intro b idx' hb
    cases last
    · exact hb
    · exact (of_cleared hb).2
  refine ⟨?_, h.fault, ?_, ?_, ?_, ?_⟩
  · refine (h.registry.delete (names_of hn) hu (by rw [State.registry, hc]; rfl)).of_eq ?_
    cases last <;> simp [State.registry, Registry.delete, map_clear, hc, Cli.unlinked, Cli.disposing, Namespace.name]
  · refine (h.warm.delete hc hn).heap fun m y hm => ?_
    obtain ⟨hne, hm⟩ := of_cleared hm
    cases hl : last with
    | false => rfl
    | true => exact Function.update_of_ne (fun heq => hne (halone hl m y hm heq)) ..
  · intro b idx' hb hne
    obtain ⟨m, y, hm, hy, hsub | hd⟩ := h.homed b idx' (hsame b idx' hb) hne
    · refine ⟨m, y, (Function.update_of_ne ?_ ..).trans hm, hy, .inl hsub⟩
      rintro rfl
      cases hn.symm.trans hm
      rw [hdark] at hsub
      cases hsub
    · rw [hc] at hd
      exact absurd hd id
  · refine h.kept.mark rfl (fun _ => id) rfl rfl (fun b idx' hb => .inr ⟨idx', hsame b idx' hb, rfl, id⟩) (fun b idx' hb hne => ?_)
      (by simp)
    refine ⟨idx', ?_, rfl⟩
    cases hl : last with
    | false => exact hb
    | true =>
      refine (Function.update_of_ne ?_ ..).trans hb
      rintro rfl
      exact hne (hempty hl idx' hb)
  · refine ⟨fun vcl hv hs b idx' hb => ?_, by simp, by simp⟩
    refine (h.owned.warmed vcl hv hs b idx' (hsame b idx' hb)).imp_right fun ho => owns_of_ne ho hn ?_ (fun m hm _ => hm) ?_
    · rintro rfl
      exact hvcl hs
    · exact fun m hne => Function.update_of_ne hne ..

/-! ### Retirement -/

theorem indexUsedByVcl_iff {vcl : Nat} : s.indexUsedByVcl a vcl = true ↔ s.Owns vcl a := by
  simp [State.indexUsedByVcl, State.Owns, Option.any_eq_true]

/-- The rounds go on behind an index that may stay. -/
theorem Inv.spare (h : Inv s) {vcl m : Nat} {rest : List Nat} (hc : s.cli = .retire vcl (m :: rest))
    (hm : s.nss m = some x) (hspare : ∀ idx, s.heap x.index = some idx → idx.retired = true ∨ s.Owns vcl x.index) :
    Inv { s with cli := .retire vcl rest } := by
  refine ⟨?_, h.fault, h.warm.retired hc, ?_, ?_, ⟨h.owned.warmed, ?_, ?_⟩⟩
  · refine h.registry.of_eq (registry_eq (fun _ => rfl) (fun _ => rfl) rfl rfl rfl ?_ ?_) <;> rw [hc] <;> rfl
  · refine h.homed.mark (fun b idx' hb hne => ⟨idx', hb, hne⟩) (home_of_nss ?_)
    simp [hc, Cli.draining]
  · exact h.kept.mark rfl (fun _ => id) rfl rfl (fun b idx' hb => .inr ⟨idx', hb, rfl, id⟩) (fun b idx' hb _ => ⟨idx', hb, rfl⟩)
      (by simp)
  · rintro vcl rest ⟨⟩ m' hm'
    exact h.owned.rounds _ _ hc m' (List.mem_cons_of_mem _ hm')
  · rintro vcl rest ⟨⟩ b idx' hb
    rcases h.owned.retiring _ _ hc b idx' hb with hr | ho | ⟨m', hm', y, hy, heq⟩
    · exact .inl hr
    · exact .inr (.inl ho)
    · rcases List.mem_cons.mp hm' with rfl | hm'
      · cases hm.symm.trans hy
        subst heq
        exact (hspare idx' hb).imp_right .inl
      · exact .inr (.inr ⟨m', hm', y, hy, heq⟩)

/-- An index is retired. -/
theorem Inv.indexRetire (h : Inv s) {vcl : Nat} {rest : List Nat} (hc : s.cli = .retire vcl rest)
    (ha : s.heap a = some idx) (left : List Nat) : Inv (s.killAllLocked a { idx with retired := true } left) where
  registry := h.registry.of_eq (registry_eq (fun _ => rfl) (map_update ha rfl) rfl rfl rfl rfl rfl)
  fault := h.fault
  warm := by
    refine h.warm.worker rfl rfl rfl rfl rfl (fun b idx' hb => ?_) h.warm.calls h.warm.fetches
    rcases eq_or_ne b a with rfl | hne
    · cases ha.symm.trans hb
      exact ⟨_, Function.update_self .., rfl⟩
    · exact ⟨idx', (Function.update_of_ne hne ..).trans hb, rfl⟩
  homed := by
    refine h.homed.mark (fun b idx' hb hne => ?_) (home_of_nss fun _ => id)
    rcases update_eq_some.mp hb with ⟨rfl, ⟨⟩⟩ | ⟨-, hb⟩
    · refine ⟨idx, ha, fun he => hne ?_⟩
      rw [he]
      rfl
    · exact ⟨idx', hb, hne⟩
  kept := by
    have := h.kept.killAllLocked ha true left s.cli (by simp [hc])
    exact this
  owned := by
    refine ⟨fun v hv hs b idx' hb => ?_, h.owned.rounds, fun v l hcli b idx' hb => ?_⟩
    · rcases update_eq_some.mp hb with ⟨rfl, ⟨⟩⟩ | ⟨-, hb⟩
      · exact .inl rfl
      · exact h.owned.warmed v hv hs b idx' hb
    · rcases update_eq_some.mp hb with ⟨rfl, ⟨⟩⟩ | ⟨-, hb⟩
      · exact .inl rfl
      · exact h.owned.retiring v l hcli b idx' hb

theorem Inv.retireUnshared (h : Inv s) {vcl m : Nat} {rest : List Nat} (hc : s.cli = .retire vcl (m :: rest))
    (left : List Nat) : Inv { s.retireUnshared vcl m left with cli := .retire vcl rest } := by
  have hmem := h.owned.rounds _ _ hc m List.mem_cons_self
  obtain ⟨z, hz⟩ := h.registry.linked m hmem
  obtain ⟨x, hm, -⟩ := names_eq.mp hz
  obtain ⟨idx, ha, -⟩ := h.points hm
  have heq : s.retireUnshared vcl m left =
      if x.vcl == vcl || idx.retired || s.indexUsedByVcl x.index vcl then s else s.indexRetire x.index left := by
    rw [State.retireUnshared, hm]
    exact use_eq ha _
  rw [heq]
  split
  · rename_i hskip
    refine h.spare hc hm fun idx' ha' => ?_
    cases ha.symm.trans ha'
    rw [Bool.or_eq_true, Bool.or_eq_true, beq_iff_eq] at hskip
    rcases hskip with (hv | hr) | hu
    · exact .inr ⟨m, hmem, x, hm, hv, rfl⟩
    · exact .inl hr
    · exact .inr (indexUsedByVcl_iff.mp hu)
  · rw [State.indexRetire, use_eq ha]
    refine (h.indexRetire hc ha left).spare hc hm fun idx' ha' => .inl ?_
    replace ha' : Function.update s.heap x.index _ x.index = some idx' := ha'
    rw [Function.update_self] at ha'
    cases ha'
    rfl

/-- The WARM event ends. -/
theorem Inv.serve (h : Inv s) {vcl : Nat} (hc : s.cli = .retire vcl []) :
    Inv { s with cli := .idle, serving := vcl :: s.serving, warmed := vcl :: s.warmed } := by
  refine ⟨?_, h.fault, h.warm.serve hc, ?_, ?_, ⟨?_, by simp, by simp⟩⟩
  · refine h.registry.of_eq (registry_eq (fun _ => rfl) (fun _ => rfl) rfl rfl rfl ?_ ?_) <;> rw [hc] <;> rfl
  · refine h.homed.mark (fun b idx' hb hne => ⟨idx', hb, hne⟩) (home_of_nss ?_)
    simp [hc, Cli.draining]
  · exact h.kept.mark rfl (fun _ => id) rfl rfl (fun b idx' hb => .inr ⟨idx', hb, rfl, id⟩) (fun b idx' hb _ => ⟨idx', hb, rfl⟩)
      (by simp)
  · intro v hv hs b idx' hb
    rcases eq_or_ne v vcl with rfl | hne
    · rcases h.owned.retiring _ _ hc b idx' hb with hr | ho | ⟨_, ⟨⟩, -⟩
      · exact .inl hr
      · exact .inr ho
    · -- a VCL that was warmed before holds what it held
      exact h.owned.warmed v (List.mem_of_ne_of_mem hne hv) (List.mem_of_ne_of_mem hne hs) b idx' hb

/-! ### Events of the CLI thread -/

/-- While the CLI thread is idle, every namespace is in the list. -/
theorem Inv.all_listed (h : Inv s) (hc : s.cli = .idle) (m : Nat) (y : Namespace) (hm : s.nss m = some y) : m ∈ s.global :=
  h.registry.linked_of_quiet (by rw [State.registry, hc]; rfl) (names_of hm)

theorem Inv.warmEvent (h : Inv s) {vcl : Nat} (hc : s.cli = .idle) (hv : vcl ∉ s.serving) :
    Inv { s with cli := s.nextWarm vcl (s.ofVcl vcl) } := by
  have hwarm := h.warm.warm hc hv (h.all_listed hc)
  generalize s.ofVcl vcl = l at hwarm ⊢
  cases l <;>
    refine h.mark hwarm (fun _ => rfl) (fun _ => rfl) ?_ ?_ (fun _ => id)
      (home_of_nss ?_) ?_ ?_ <;>
    simp [hc, Cli.draining, Cli.unlinked, Cli.disposing, State.nextWarm]

theorem Inv.coldEvent (h : Inv s) {vcl : Nat} (hc : s.cli = .idle) (hf : s.fetching vcl = false) :
    Inv { s with cli := State.nextCold (s.ofVcl vcl), serving := s.serving.filter (· ≠ vcl) } := by
  have hwarm := h.warm.cold hc hf
  generalize s.ofVcl vcl = l at hwarm ⊢
  cases l <;>
    refine h.mark hwarm (fun _ => rfl) (fun _ => rfl) ?_ ?_
      (fun _ hv => List.mem_of_mem_filter hv) (home_of_nss ?_) ?_ ?_ <;>
    simp [hc, Cli.draining, Cli.unlinked, Cli.disposing, ColdCont.unlinked, State.nextCold]

theorem Inv.finiEvent (h : Inv s) (hc : s.cli = .idle) (hn : s.nss n = some x) (hv : x.vcl ∉ s.serving) :
    Inv { s with cli := .remove n true } := by
  refine h.mark (h.warm.fini hc hn hv) (fun _ => rfl) (fun _ => rfl) ?_ ?_
    (fun _ => id) (home_of_nss ?_) ?_ ?_ <;>
  simp [hc, Cli.draining, Cli.unlinked, Cli.disposing]

/-- What `cachetag_namespace_global_add` shares. -/
theorem shared_spec {c : Config} (hs : s.shared x c = some a) : c.persist = false ∧
    ∃ idx, s.heap a = some idx ∧ idx.config = c ∧ idx.retired = false ∧ ¬s.Owns x.vcl a := by
  unfold State.shared at hs
  split at hs
  · cases hs
  · rename_i hp
    obtain ⟨m, hfind, hm⟩ := Option.bind_eq_some_iff.mp hs
    obtain ⟨y, hy, rfl⟩ := Option.map_eq_some_iff.mp hm
    have hshares := List.find?_some hfind
    obtain ⟨y', hy', hidx⟩ := Option.any_eq_true _ _ |>.mp hshares
    cases hy.symm.trans hy'
    obtain ⟨idx, ha, htest⟩ := Option.any_eq_true _ _ |>.mp hidx
    simp only [Bool.not_eq_true', Bool.or_eq_false_iff, bne_eq_false_iff_eq, Bool.not_eq_false'] at htest
    obtain ⟨⟨⟨⟨⟨⟨⟨-, -⟩, hu⟩, hip⟩, hr⟩, hint⟩, hname⟩, hlim⟩ := htest
    refine ⟨by simpa using hp, idx, ha, ?_, hr, fun ho => ?_⟩
    · exact Config.ext hname hint (limitsEqual_iff.mp hlim) (hip.trans (by simpa using hp : c.persist = false).symm)
    · rw [indexUsedByVcl_iff.mpr ho] at hu
      cases hu

/-- A namespace comes with its own index, or with one that it may share. -/
theorem Inv.add (h : Inv s) (hc : s.cli = .idle) {config : Config} (hv : x.vcl ∉ s.serving)
    (hflags : x.subscribed = false ∧ x.warm = false ∧ x.direct = false) (hasked : x.asked = config.named) {c : Cli}
    (hx : x.index = s.indexes ∧ c = .start s.created .init ∨ c = .dispose s.indexes s.created ∧
      x.asked.persist = false ∧ (∃ idx, s.heap x.index = some idx ∧ idx.config = x.asked) ∧ ¬s.Owns x.vcl x.index) :
    Inv { s with
      heap := Function.update s.heap s.indexes (some (indexNew config))
      nss := Function.update s.nss s.created (some x)
      global := s.created :: s.global
      indexes := s.indexes + 1
      created := s.created + 1
      warmed := []
      cli := c } := by
  have hq : s.registry.unlinked = none := by rw [State.registry, hc]; rfl
  have hd : s.registry.disposing = none := by rw [State.registry, hc]; rfl
  have hfresh : s.nss s.created = none := by
    cases hm : s.nss s.created with
    | none => rfl
    | some y => exact absurd (h.registry.created _ _ (names_of hm)) (Nat.lt_irrefl _)
  -- The address of the new index is none that is in use.
  have hnew : ∀ b idx, s.heap b = some idx → b ≠ s.indexes := fun b idx hb =>
    (h.registry.indexes b idx.config (Option.map_eq_some_iff.mpr ⟨idx, hb, rfl⟩)).ne
  have hcn : ∀ m j, c ≠ .detachAll m j := by
    rcases hx with ⟨-, rfl⟩ | ⟨rfl, -⟩ <;> simp
  have hcr : ∀ v l, c ≠ .retire v l := by
    rcases hx with ⟨-, rfl⟩ | ⟨rfl, -⟩ <;> simp
  refine ⟨?_, h.fault, ?_, ?_, ?_, ⟨by simp, fun v l hc => absurd hc (hcr v l), fun v l hc => absurd hc (hcr v l)⟩⟩
  · refine (h.registry.add (x := x.name) hq hd ?_).of_eq ?_
    · rcases hx with ⟨hx, -⟩ | ⟨-, hp, ⟨idx, ha, hconf⟩, ho⟩
      · exact .inl hx
      · refine .inr ⟨Option.map_eq_some_iff.mpr ⟨idx, ha, hconf⟩, hp, fun m z hz heq hvcl => ho ?_⟩
        obtain ⟨y, hm, rfl⟩ := names_eq.mp hz
        exact ⟨m, h.all_listed hc m y hm, y, hm, hvcl, heq⟩
    · have hconf : (indexNew config).config = x.asked := hasked.symm
      simp only [State.registry, Registry.add, map_set, hconf]
      rcases hx with ⟨hx, rfl⟩ | ⟨rfl, -, ⟨idx, ha, -⟩, -⟩
      · simp [hx, hc, Cli.unlinked, Cli.disposing, Namespace.name]
      · simp [hnew _ idx ha, hc, Cli.unlinked, Cli.disposing, Namespace.name]
  · have hwarm := h.warm.load (a := s.indexes) hc hfresh hflags hv (hx.imp And.right And.left)
    exact hwarm.worker rfl rfl rfl rfl rfl (fun b idx hb => ⟨idx, (Function.update_of_ne (hnew b idx hb) ..).trans hb, rfl⟩)
      hwarm.calls hwarm.fetches
  -- The new index has no object, and the others are at home where they were.
  · refine h.homed.mark (fun b idx' hb hne => ?_) fun m y hm hy => ?_
    · rcases update_eq_some.mp hb with ⟨rfl, ⟨⟩⟩ | ⟨-, hb⟩
      · exact absurd rfl hne
      · exact ⟨idx', hb, hne⟩
    · refine ⟨m, y, (Function.update_of_ne ?_ ..).trans hm, rfl, .inl ?_⟩
      · exact (h.registry.created m _ (names_of hm)).ne
      · rw [hc] at hy
        exact hy.resolve_right id
  · refine h.kept.mark rfl (fun _ => id) rfl rfl (fun b idx' hb => ?_) (fun b idx hb _ => ?_) hcn
    · rcases update_eq_some.mp hb with ⟨rfl, ⟨⟩⟩ | ⟨-, hb⟩
      · exact .inl rfl
      · exact .inr ⟨idx', hb, rfl, id⟩
    · exact ⟨idx, (Function.update_of_ne (hnew b idx hb) ..).trans hb, rfl⟩

theorem Inv.load (h : Inv s) (hc : s.cli = .idle) {vcl : Nat} (hv : vcl ∉ s.serving) (config : Config) :
    Inv (s.load vcl config) := by
  unfold State.load
  dsimp only
  split
  · rename_i a hshared
    obtain ⟨hp, idx, ha, hconf, -, ho⟩ := shared_spec hshared
    exact h.add (x := ⟨vcl, a, false, false, false, config.named⟩) hc hv ⟨rfl, rfl, rfl⟩ rfl
      (.inr ⟨rfl, hp, ⟨idx, ha, hconf⟩, ho⟩)
  · exact h.add (x := ⟨vcl, s.indexes, false, false, false, config.named⟩) hc hv ⟨rfl, rfl, rfl⟩ rfl (.inl ⟨rfl, rfl⟩)

/-! ### Fetches and object events -/

/-- What no section of the CLI thread relies on. -/
theorem Inv.worker (h : Inv s) {heap : Nat → Option Index} {fetches : List (Nat × Nat)} {calls : List Call}
    {inserted killed gone condemned : List Nat} {owed : List (Nat × Nat)}
    (hheap : heap = s.heap ∨ ∃ a idx objects, s.heap a = some idx ∧ heap = Function.update s.heap a (some { idx with objects }))
    (hcalls : ∀ c ∈ calls, ∃ x, s.nss c.ns = some x ∧ x.index = c.index ∧ x.subscribed = true)
    (hfetches : ∀ f ∈ fetches, ∃ x, s.nss f.1 = some x ∧ x.vcl ∈ s.serving)
    (homed : { s with heap, fetches, calls, inserted, killed, gone, condemned, owed }.Homed)
    (kept : Kept { s with heap, fetches, calls, inserted, killed, gone, condemned, owed }) :
    Inv { s with heap, fetches, calls, inserted, killed, gone, condemned, owed } := by
  have hconf : ∀ b, (heap b).map Index.config = (s.heap b).map Index.config := by
    rcases hheap with rfl | ⟨a, idx, objects, ha, rfl⟩
    · exact fun _ => rfl
    · exact map_update ha rfl
  have hback : ∀ b idx', heap b = some idx' → ∃ idx, s.heap b = some idx ∧ idx'.retired = idx.retired := by
    rcases hheap with rfl | ⟨a, idx, objects, ha, rfl⟩
    · exact fun b idx' hb => ⟨idx', hb, rfl⟩
    · intro b idx' hb
      rcases update_eq_some.mp hb with ⟨rfl, ⟨⟩⟩ | ⟨-, hb⟩
      · exact ⟨idx, ha, rfl⟩
      · exact ⟨idx', hb, rfl⟩
  have hforth : ∀ b idx, s.heap b = some idx → ∃ idx', heap b = some idx' ∧ idx'.running = idx.running := by
    rcases hheap with rfl | ⟨a, idx, objects, ha, rfl⟩
    · exact fun b idx hb => ⟨idx, hb, rfl⟩
    · intro b idx' hb
      rcases eq_or_ne b a with rfl | hne
      · cases ha.symm.trans hb
        exact ⟨_, Function.update_self .., rfl⟩
      · exact ⟨idx', (Function.update_of_ne hne ..).trans hb, rfl⟩
  refine ⟨h.registry.of_eq (registry_eq (fun _ => rfl) hconf rfl rfl rfl rfl rfl), h.fault, ?_, homed, kept, ?_⟩
  · exact h.warm.worker rfl rfl rfl rfl rfl hforth hcalls hfetches
  · refine ⟨fun v hv hs b idx' hb => ?_, h.owned.rounds, fun v l hcli b idx' hb => ?_⟩
    · obtain ⟨idx, hs', hr⟩ := hback b idx' hb
      rw [hr]
      exact h.owned.warmed v hv hs b idx hs'
    · obtain ⟨idx, hs', hr⟩ := hback b idx' hb
      rw [hr]
      exact h.owned.retiring v l hcli b idx hs'

theorem Inv.register (h : Inv s) (hn : s.nss n = some x) (hv : x.vcl ∈ s.serving) (oc : Nat) :
    Inv { s with fetches := (n, oc) :: s.fetches } := by
  refine h.worker (.inl rfl) h.warm.calls ?_ h.homed ⟨h.kept.drained, h.kept.retired, h.kept.dying, h.kept.owed⟩
  intro f hf
  rcases List.mem_cons.mp hf with rfl | hf
  · exact ⟨x, hn, hv⟩
  · exact h.warm.fetches f hf

theorem Inv.abandon (h : Inv s) (f : Nat × Nat) : Inv { s with fetches := s.fetches.erase f } :=
  h.worker (.inl rfl) h.warm.calls (fun g hg => h.warm.fetches g (List.mem_of_mem_erase hg)) h.homed
    ⟨h.kept.drained, h.kept.retired, h.kept.dying, h.kept.owed⟩

/-- More is dead, and less is left to the callbacks. -/
theorem Kept.settle (h : Kept s) {fetches : List (Nat × Nat)} {calls : List Call} 
    {inserted killed gone condemned : List Nat} {owed : List (Nat × Nat)} (hkilled : ∀ oc ∈ s.killed, oc ∈ killed)
    (hdying : ∀ c ∈ calls, c.pc = .death → c.oc ∈ killed)
    (howed : ∀ o ∈ owed, { s with fetches, calls, inserted, killed, gone, condemned, owed }.Settled o) :
    Kept { s with fetches, calls, inserted, killed, gone, condemned, owed } where
  drained m j hc y hm idx hb oc hoc := hkilled oc (h.drained m j hc y hm idx hb oc hoc)
  retired b idx hb hr oc hoc := hkilled oc (h.retired b idx hb hr oc hoc)
  dying := hdying
  owed := howed

theorem mem_callsOf {c : Call} {oc : Nat} : c ∈ s.callsOf oc ↔ (c.ns, oc) ∈ s.fetches ∧ c.oc = oc ∧ c.pc = .attach ∧
    ∃ x, s.nss c.ns = some x ∧ x.index = c.index ∧ x.subscribed = true := by
  rw [State.callsOf, List.mem_filterMap]
  constructor
  · rintro ⟨⟨m, oc'⟩, hf, hc⟩
    split_ifs at hc with heq
    obtain ⟨x, hx, hc⟩ := Option.bind_eq_some_iff.mp hc
    split_ifs at hc with hsub
    cases hc
    cases heq
    exact ⟨hf, rfl, rfl, x, hx, rfl, hsub⟩
  · rintro ⟨hf, rfl, hpc, x, hx, hidx, hsub⟩
    refine ⟨(c.ns, c.oc), hf, ?_⟩
    rw [if_pos rfl, hx, Option.bind_some, if_pos hsub, hidx, ← hpc]

theorem Inv.insert (h : Inv s) (oc : Nat) :
    Inv { s with
      inserted := oc :: s.inserted
      fetches := s.fetches.filter (·.2 ≠ oc)
      calls := s.calls ++ s.callsOf oc
      owed := s.owed ++ s.owedOf oc } := by
  refine h.worker (.inl rfl) ?_ (fun f hf => h.warm.fetches f (List.mem_of_mem_filter hf)) h.homed
    (h.kept.settle (fun _ => id) ?_ ?_)
  · intro c hc
    rcases List.mem_append.mp hc with hc | hc
    · exact h.warm.calls c hc
    · exact (mem_callsOf.mp hc).2.2.2
  · intro c hc hpc
    rcases List.mem_append.mp hc with hc | hc
    · exact h.kept.dying c hc hpc
    · cases (mem_callsOf.mp hc).2.2.1.symm.trans hpc
  · intro o ho
    rcases List.mem_append.mp ho with ho | ho
    · refine (h.kept.owed o ho).imp_right (Or.imp_left ?_)
      rintro ⟨c, hc, hco⟩
      exact ⟨c, List.mem_append_left _ hc, hco⟩
    · -- its namespace is warm, so it is subscribed
      obtain ⟨⟨m, oc'⟩, hf, ho⟩ := List.mem_filterMap.mp ho
      split_ifs at ho with heq
      obtain ⟨x, hx, rfl⟩ := Option.map_eq_some_iff.mp ho
      cases heq
      obtain ⟨x', hx', hv⟩ := h.warm.fetches _ hf
      cases hx.symm.trans hx'
      have hsub := h.warm.lit hx (h.warm.serving m x hx hv)
      refine .inr (.inl ⟨⟨m, x.index, oc', .attach⟩, List.mem_append_right _ ?_, rfl, rfl⟩)
      exact mem_callsOf.mpr ⟨hf, rfl, rfl, x, hx, rfl, hsub⟩

/-- The callbacks of a transient object end with its registrations. -/
theorem Inv.insertTransient (h : Inv s) (oc : Nat) :
    Inv { s with inserted := oc :: s.inserted, fetches := s.fetches.filter (·.2 ≠ oc) } :=
  h.worker (.inl rfl) h.warm.calls (fun f hf => h.warm.fetches f (List.mem_of_mem_filter hf)) h.homed
    (h.kept.settle (fun _ => id) h.kept.dying h.kept.owed)

theorem mem_set_or {α : Type*} {l : List α} {i : Nat} {c c' : α} (hi : l[i]? = some c) (hc : c' ∈ l) (d : α) :
    c' = c ∨ c' ∈ l.set i d := by
  obtain ⟨k, hk⟩ := List.mem_iff_getElem?.mp hc
  rcases eq_or_ne i k with rfl | hne
  · exact .inl (Option.some.inj (hk.symm.trans hi))
  · exact .inr (List.mem_iff_getElem?.mpr ⟨k, (List.getElem?_set_ne hne).trans hk⟩)

theorem mem_eraseIdx_or {α : Type*} {l : List α} {i : Nat} {c c' : α} (hi : l[i]? = some c) (hc : c' ∈ l) :
    c' = c ∨ c' ∈ l.eraseIdx i := by
  obtain ⟨k, hk⟩ := List.mem_iff_getElem?.mp hc
  rcases eq_or_ne k i with rfl | hne
  · exact .inl (Option.some.inj (hk.symm.trans hi))
  · exact .inr (List.mem_eraseIdx_iff_getElem?.mpr ⟨k, hne, hk⟩)

variable {i : Nat} {c : Call}

/-- The callback goes on at another place. -/
theorem Inv.turn (h : Inv s) (hi : s.calls[i]? = some c) (pc : Pc) {killed : List Nat}
    (hkilled : ∀ oc ∈ s.killed, oc ∈ killed) (hpc : pc = .death → c.oc ∈ killed) :
    Inv { s with calls := s.calls.set i { c with pc }, killed } := by
  have hmem : { c with pc } ∈ s.calls.set i { c with pc } :=
    List.mem_iff_getElem?.mpr ⟨i, List.getElem?_set_self (List.getElem?_eq_some_iff.mp hi).1⟩
  refine h.worker (.inl rfl) ?_ h.warm.fetches h.homed (h.kept.settle hkilled ?_ ?_)
  · intro c' hc'
    rcases List.mem_or_eq_of_mem_set hc' with hc' | rfl
    · exact h.warm.calls c' hc'
    · exact h.warm.calls c (List.mem_of_getElem? hi)
  · intro c' hc' hpc'
    rcases List.mem_or_eq_of_mem_set hc' with hc' | rfl
    · exact hkilled _ (h.kept.dying c' hc' hpc')
    · exact hpc hpc'
  · intro o ho
    rcases h.kept.owed o ho with hdoomed | ⟨c', hc', hidx, hoc⟩ | hr
    · exact .inl (hdoomed.imp_left (hkilled _))
    · refine .inr (.inl ?_)
      rcases mem_set_or hi hc' { c with pc } with rfl | hc'
      · exact ⟨_, hmem, hidx, hoc⟩
      · exact ⟨c', hc', hidx, hoc⟩
    · exact .inr (.inr hr)

/-- The callback ends, with its registration answered for. -/
theorem Inv.finish (h : Inv s) (hi : s.calls[i]? = some c) {owed : List (Nat × Nat)} (howed : ∀ o ∈ owed, o ∈ s.owed)
    (hdone : (c.index, c.oc) ∈ owed → s.Doomed c.oc ∨ ∃ idx, s.heap c.index = some idx ∧ c.oc ∈ idx.objects) :
    Inv { s with calls := s.calls.eraseIdx i, owed } := by
  refine h.worker (.inl rfl) (fun c' hc' => h.warm.calls c' (List.mem_of_mem_eraseIdx hc')) h.warm.fetches h.homed
    (h.kept.settle (fun _ => id) (fun c' hc' => h.kept.dying c' (List.mem_of_mem_eraseIdx hc')) ?_)
  intro o ho
  rcases h.kept.owed o (howed o ho) with hdoomed | ⟨c', hc', hidx, hoc⟩ | hr
  · exact .inl hdoomed
  · rcases mem_eraseIdx_or hi hc' with rfl | hc'
    · obtain ⟨o₁, o₂⟩ := o
      cases hidx
      cases hoc
      exact (hdone ho).imp_right .inr
    · exact .inr (.inl ⟨c', hc', hidx, hoc⟩)
  · exact .inr (.inr hr)

/-- An index records an object, while a subscribed namespace holds it. -/
theorem Inv.record (h : Inv s) (hn : s.nss n = some x) (hsub : x.subscribed = true) (ha : s.heap x.index = some idx)
    (hr : idx.retired = false) (oc : Nat) : Inv (s.setIndex x.index { idx with objects := oc :: idx.objects }) := by
  refine h.worker (.inr ⟨_, _, _, ha, rfl⟩) h.warm.calls h.warm.fetches ?_ ⟨?_, ?_, h.kept.dying, ?_⟩
  · intro b idx' hb hne
    rcases update_eq_some.mp hb with ⟨rfl, ⟨⟩⟩ | ⟨-, hb⟩
    · exact ⟨n, x, hn, rfl, .inl hsub⟩
    · exact h.homed b idx' hb hne
  · intro m j hc y hm idx' hb
    rcases update_eq_some.mp hb with ⟨heq, -⟩ | ⟨-, hb⟩
    · -- the namespace would have a subscribed peer
      have := h.warm.alone m y n x (by rw [hc]; rfl) hm hn heq.symm
      rw [hsub] at this
      cases this
    · exact h.kept.drained m j hc y hm idx' hb
  · intro b idx' hb hr'
    rcases update_eq_some.mp hb with ⟨rfl, ⟨⟩⟩ | ⟨-, hb⟩
    · rw [hr] at hr'
      cases hr'
    · exact h.kept.retired b idx' hb hr'
  · intro o ho
    rcases h.kept.owed o ho with hdoomed | hcall | ⟨idx', hb, hm⟩
    · exact .inl hdoomed
    · exact .inr (.inl hcall)
    · refine .inr (.inr ?_)
      rcases eq_or_ne o.1 x.index with heq | hne
      · rw [heq] at hb ⊢
        cases ha.symm.trans hb
        exact ⟨_, Function.update_self .., List.mem_cons_of_mem _ hm⟩
      · exact ⟨idx', (Function.update_of_ne hne ..).trans hb, hm⟩

/-- An index forgets an object that is doomed. -/
theorem Inv.forget (h : Inv s) (ha : s.heap a = some idx) {oc : Nat} {condemned : List Nat}
    (hcondemned : ∀ oc ∈ s.condemned, oc ∈ condemned) (hdoomed : State.Doomed { s with condemned } oc) :
    Inv { s.setIndex a { idx with objects := idx.objects.erase oc } with condemned } := by
  refine h.worker (.inr ⟨_, _, _, ha, rfl⟩) h.warm.calls h.warm.fetches ?_ ⟨?_, ?_, h.kept.dying, ?_⟩
  · refine h.homed.mark (fun b idx' hb hne => ?_) (home_of_nss fun _ => id)
    rcases update_eq_some.mp hb with ⟨rfl, ⟨⟩⟩ | ⟨-, hb⟩
    · refine ⟨idx, ha, fun he => hne ?_⟩
      rw [he]
      rfl
    · exact ⟨idx', hb, hne⟩
  · intro m j hc y hm idx' hb oc' hoc
    rcases update_eq_some.mp hb with ⟨rfl, ⟨⟩⟩ | ⟨-, hb⟩
    · exact h.kept.drained m j hc y hm idx ha oc' (List.mem_of_mem_erase hoc)
    · exact h.kept.drained m j hc y hm idx' hb oc' hoc
  · intro b idx' hb hr oc' hoc
    rcases update_eq_some.mp hb with ⟨rfl, ⟨⟩⟩ | ⟨-, hb⟩
    · exact h.kept.retired _ idx ha hr oc' (List.mem_of_mem_erase hoc)
    · exact h.kept.retired b idx' hb hr oc' hoc
  · intro o ho
    rcases h.kept.owed o ho with hold | hcall | ⟨idx', hb, hm⟩
    · exact .inl (hold.imp_right (Or.imp_right (hcondemned _)))
    · exact .inr (.inl hcall)
    · rcases eq_or_ne o.2 oc with rfl | hoc
      · exact .inl hdoomed
      · refine .inr (.inr ?_)
        rcases eq_or_ne o.1 a with heq | hne
        · rw [heq] at hb ⊢
          cases ha.symm.trans hb
          exact ⟨_, Function.update_self .., (List.mem_erase_of_ne hoc).mpr hm⟩
        · exact ⟨idx', (Function.update_of_ne hne ..).trans hb, hm⟩

theorem Inv.dies (h : Inv s) {killed gone condemned : List Nat} (hkilled : ∀ oc ∈ s.killed, oc ∈ killed)
    (hdoomed : ∀ oc, s.Doomed oc → State.Doomed { s with killed, gone, condemned } oc) :
    Inv { s with killed, gone, condemned } := by
  refine h.worker (.inl rfl) h.warm.calls h.warm.fetches h.homed
    (h.kept.settle hkilled (fun c hc hpc => hkilled _ (h.kept.dying c hc hpc)) fun o ho => ?_)
  exact (h.kept.owed o ho).imp_left (hdoomed o.2)

/-- A `stale()` call kills the object that it has found. -/
theorem Inv.staleKill (h : Inv s) (oc : Nat) :
    Inv { s with killed := oc :: s.killed, condemned := s.condemned.erase oc } := by
  refine h.dies (fun _ => List.mem_cons_of_mem _) fun oc' => ?_
  rintro (hk | hg | hc)
  · exact .inl (List.mem_cons_of_mem _ hk)
  · exact .inr (.inl hg)
  · rcases eq_or_ne oc' oc with rfl | hne
    · exact .inl List.mem_cons_self
    · exact .inr (.inr ((List.mem_erase_of_ne hne).mpr hc))

/-- A sweep takes out the record of an object and kills it. -/
theorem Inv.sweep (h : Inv s) (ha : s.heap a = some idx) (oc : Nat) :
    Inv { s.setIndex a { idx with objects := idx.objects.erase oc } with killed := oc :: s.killed } := by
  have hkilled : Inv { s with killed := oc :: s.killed } :=
    h.dies (fun _ => List.mem_cons_of_mem _) fun _ => Or.imp_left (List.mem_cons_of_mem _)
  exact hkilled.forget ha (fun _ => id) (.inl List.mem_cons_self)

theorem Inv.attach (h : Inv s) (hi : s.calls[i]? = some c) (fails hard : Bool) : Inv (s.attached i c fails hard) := by
  obtain ⟨x, hn, hidx, hsub⟩ := h.warm.calls c (List.mem_of_getElem? hi)
  obtain ⟨idx, ha, -⟩ := h.points hn
  rw [State.attached, use_eq (hidx ▸ ha)]
  split
  · exact h.turn hi .kill (fun _ => id) (by simp)
  · rename_i hok
    have hr : idx.retired = false := by
      by_contra hr
      exact hok (by simp [hr])
    have hrec := h.record hn hsub ha hr c.oc
    rw [hidx] at hrec
    cases hard with
    | true => exact hrec.turn hi .kill (fun _ => id) (by simp)
    | false =>
      refine hrec.finish hi (fun _ => id) fun _ => .inr ?_
      exact ⟨_, Function.update_self .., List.mem_cons_self⟩

theorem Inv.advance (h : Inv s) (hi : s.calls[i]? = some c) (hpc : c.pc = .death) :
    Inv { s.death c.index c.oc with calls := s.calls.eraseIdx i } := by
  obtain ⟨x, hn, hidx, -⟩ := h.warm.calls c (List.mem_of_getElem? hi)
  obtain ⟨idx, ha, -⟩ := h.points hn
  have hdead := h.kept.dying c (List.mem_of_getElem? hi) hpc
  rw [State.death, use_eq (hidx ▸ ha)]
  exact (h.forget (hidx ▸ ha) (fun _ => id) (.inl hdead)).finish hi (fun _ => id) fun _ => .inl (.inl hdead)

/-! ### Runs -/

theorem Inv.init : Inv State.init where
  registry := by
    refine ⟨?_, ?_, ?_, ?_, ?_, ?_, ?_, ?_, ?_, ?_, ?_⟩ <;>
      simp [State.registry, State.init, Cli.unlinked, Cli.disposing]
  fault := rfl
  warm := by
    refine ⟨?_, ?_, ?_, ?_, ?_, ?_, ?_, ?_, ?_⟩ <;> simp [State.init, Cli.handled, Cli.warming]
  homed := by simp [State.Homed, State.init]
  kept := by
    refine ⟨?_, ?_, ?_, ?_⟩ <;> simp [State.init]
  owned := by
    refine ⟨?_, ?_, ?_⟩ <;> simp [State.init]

theorem onNs_cases {f : Namespace → Option State} (hs : s.onNs n f = some t) : ∃ x, s.nss n = some x ∧ f x = some t :=
  Option.bind_eq_some_iff.mp hs

/-- Every section of the CLI thread. -/
theorem Inv.cliStep (h : Inv s) {replayed found : Bool} {left : List Nat} (hs : s.cliStep replayed found left = some t) :
    Inv t := by
  unfold State.cliStep at hs
  cases hc : s.cli with
  | idle =>
    rw [hc] at hs
    cases hs
  | dispose a n =>
    rw [hc] at hs
    cases hs
    exact h.dispose hc
  -- A warm namespace is not started again. A failed start leaves it cold.
  | start n k =>
    rw [hc] at hs
    obtain ⟨x, hn, ⟨⟩⟩ := onNs_cases hs
    obtain ⟨idx, ha, -⟩ := h.points hn
    unfold State.start
    cases hw : x.warm with
    | true => exact h.warmed hc hn hw
    | false =>
      rw [if_neg (by simp), use_eq ha]
      split
      · exact h.failed hc hn hw
      · exact h.start hc hn hw ha
  | subscribe n k =>
    rw [hc] at hs
    obtain ⟨x, hn, ⟨⟩⟩ := onNs_cases hs
    exact h.subscribe hc hn
  -- The index may have been retired in between, and then the namespace is not ready.
  | ensure n k =>
    rw [hc] at hs
    obtain ⟨x, hn, ⟨⟩⟩ := onNs_cases hs
    obtain ⟨idx, ha, -⟩ := h.points hn
    unfold State.ensure
    rw [use_eq ha]
    split
    · split
      · exact h.ensured hc hn (fun _ => rfl) (fun _ => rfl)
      · exact h.unready hc
    · exact h.ensured hc hn id (by simp)
  | cool n k =>
    rw [hc] at hs
    obtain ⟨x, hn, ⟨⟩⟩ := onNs_cases hs
    exact h.cool hc hn
  -- The walk waits for the calls under way, unless the namespace is not subscribed.
  | unsubscribe n k =>
    rw [hc] at hs
    obtain ⟨x, hn, hs⟩ := onNs_cases hs
    dsimp only at hs
    split at hs <;> cases hs
    rename_i hcalls
    exact h.unsubscribe hc hn hcalls
  | peers n k =>
    rw [hc] at hs
    obtain ⟨x, hn, ⟨⟩⟩ := onNs_cases hs
    exact h.peers hc hn
  | stop n k =>
    rw [hc] at hs
    obtain ⟨x, hn, ⟨⟩⟩ := onNs_cases hs
    obtain ⟨idx, ha, -⟩ := h.points hn
    rw [use_eq ha]
    exact h.stop hc hn ha
  | killAll n k =>
    rw [hc] at hs
    obtain ⟨x, hn, ⟨⟩⟩ := onNs_cases hs
    obtain ⟨idx, ha, -⟩ := h.points hn
    rw [use_eq ha]
    exact h.killAll hc hn ha left
  | detachAll n k =>
    rw [hc] at hs
    obtain ⟨x, hn, ⟨⟩⟩ := onNs_cases hs
    obtain ⟨idx, ha, -⟩ := h.points hn
    rw [use_eq ha]
    exact h.detachAll hc hn ha
  | remove n fini =>
    rw [hc] at hs
    obtain ⟨x, hn, ⟨⟩⟩ := onNs_cases hs
    exact h.remove hc hn
  | delete n last =>
    rw [hc] at hs
    obtain ⟨x, hn, ⟨⟩⟩ := onNs_cases hs
    exact h.delete hc hn
  -- The last of the indexes that the VCL does not share: now it serves.
  | retire vcl rest =>
    rw [hc] at hs
    cases rest with
    | nil =>
      cases hs
      exact h.serve hc
    | cons m rest =>
      cases hs
      exact h.retireUnshared hc left

theorem Inv.step (h : Inv s) {e : Event} (hs : s.step e = some t) : Inv t := by
  cases e with
  | load vcl config =>
    obtain ⟨⟨hc, hv⟩, ⟨⟩⟩ := Option.ite_none_right_eq_some.mp hs
    exact h.load hc hv config
  | warm vcl =>
    obtain ⟨⟨hc, hv⟩, ⟨⟩⟩ := Option.ite_none_right_eq_some.mp hs
    exact h.warmEvent hc hv
  | cold vcl =>
    obtain ⟨⟨hc, hf⟩, ⟨⟩⟩ := Option.ite_none_right_eq_some.mp hs
    exact h.coldEvent hc hf
  | fini n =>
    obtain ⟨x, hn, hs⟩ := onNs_cases hs
    obtain ⟨⟨hc, hv⟩, ⟨⟩⟩ := Option.ite_none_right_eq_some.mp hs
    exact h.finiEvent hc hn hv
  | cli replayed found left => exact h.cliStep hs
  | register n oc =>
    obtain ⟨x, hn, hs⟩ := onNs_cases hs
    obtain ⟨⟨hv, -⟩, ⟨⟩⟩ := Option.ite_none_right_eq_some.mp hs
    exact h.register hn hv oc
  -- The request threads: none of them moves the CLI thread, and a lost record is that of a condemned object.
  | abandon n oc =>
    cases hs
    exact h.abandon (n, oc)
  | insert oc transient =>
    obtain ⟨-, hs⟩ := Option.ite_none_left_eq_some.mp hs
    cases transient <;> cases hs
    · exact h.insert oc
    · exact h.insertTransient oc
  | attach i fails hard =>
    obtain ⟨c, hi, hs⟩ := Option.bind_eq_some_iff.mp hs
    obtain ⟨-, ⟨⟩⟩ := Option.ite_none_right_eq_some.mp hs
    exact h.attach hi fails hard
  -- A call whose object is killed owes its `cachetag_death` still.
  | direct i hard =>
    obtain ⟨c, hi, hs⟩ := Option.bind_eq_some_iff.mp hs
    obtain ⟨-, ⟨⟩⟩ := Option.ite_none_right_eq_some.mp hs
    cases hard with
    | true => exact h.turn hi .kill (fun _ => id) (by simp)
    | false => exact h.finish hi (fun _ => List.mem_of_mem_filter) fun hm => by simp at hm
  | advance i =>
    obtain ⟨c, hi, hs⟩ := Option.bind_eq_some_iff.mp hs
    cases hpc : c.pc with
    | attach =>
      rw [hpc] at hs
      cases hs
    | kill =>
      rw [hpc] at hs
      cases hs
      exact h.turn hi .death (fun _ => List.mem_cons_of_mem _) fun _ => List.mem_cons_self
    | death =>
      rw [hpc] at hs
      cases hs
      exact h.advance hi hpc
  -- The record goes before the kill, which leaves the object condemned in between.
  | stale n oc =>
    obtain ⟨x, hn, hs⟩ := onNs_cases hs
    obtain ⟨-, ⟨⟩⟩ := Option.ite_none_right_eq_some.mp hs
    obtain ⟨idx, ha, -⟩ := h.points hn
    rw [State.death, use_eq ha]
    exact h.forget ha (fun _ => List.mem_cons_of_mem _) (.inr (.inr List.mem_cons_self))
  | staleKill oc =>
    obtain ⟨-, ⟨⟩⟩ := Option.ite_none_right_eq_some.mp hs
    exact h.staleKill oc
  | sweep a oc =>
    obtain ⟨hrecorded, ⟨⟩⟩ := Option.ite_none_right_eq_some.mp hs
    obtain ⟨idx, ha, -⟩ := (Option.any_eq_true _ _).mp hrecorded
    rw [State.death, use_eq ha]
    exact h.sweep ha oc
  | kill oc =>
    cases hs
    exact h.dies (fun _ => List.mem_cons_of_mem _) fun _ => Or.imp_left (List.mem_cons_of_mem _)
  | expire oc =>
    cases hs
    exact h.dies (fun _ => id) fun _ => Or.imp_right (Or.imp_left (List.mem_cons_of_mem _))
  | death n oc =>
    obtain ⟨x, hn, hs⟩ := onNs_cases hs
    obtain ⟨⟨-, hdead⟩, ⟨⟩⟩ := Option.ite_none_right_eq_some.mp hs
    obtain ⟨idx, ha, -⟩ := h.points hn
    rw [State.death, use_eq ha]
    exact h.forget ha (fun _ => id) (hdead.elim (fun hg => .inr (.inl hg)) .inl)

theorem reach_inv (h : Reach State.step always State.init s) : Inv s := h.inv Inv.init fun _ hi _ hs => hi.step hs

end Cachetag.Vcl
