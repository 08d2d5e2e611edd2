import Cachetag.Vcl.Registry

/-! What every section of the CLI thread keeps of the namespaces: a warm one is subscribed, its index has its sweep
thread, and while its VCL serves it stays so. -/

namespace Cachetag.Vcl
open Machine

def Namespace.name (x : Namespace) : Name := ⟨x.vcl, x.index, x.asked⟩

def WarmCont.rest : WarmCont → List Nat
  | .init => []
  | .event _ rest => rest

def WarmCont.warming : WarmCont → Option Nat
  | .init => none
  | .event vcl _ => some vcl

def ColdCont.rest : ColdCont → List Nat
  | .failed _ | .fini _ => []
  | .event rest => rest

def ColdCont.unlinked (n : Nat) : ColdCont → Option (Nat × Bool)
  | .failed _ | .event _ => none
  | .fini last => some (n, last)

namespace Cli

/-- The namespace that has left the list. -/
def unlinked : Cli → Option (Nat × Bool)
  | .cool n k | .unsubscribe n k | .peers n k | .stop n k | .killAll n k | .detachAll n k => k.unlinked n
  | .delete n last => some (n, last)
  | _ => none

def disposing : Cli → Option Nat
  | .dispose a _ => some a
  | _ => none

/-- The namespaces that an event has still to come to the end with. -/
def handled : Cli → List Nat
  | .start n k | .subscribe n k | .ensure n k => n :: k.rest
  | .cool n k | .unsubscribe n k | .peers n k | .stop n k | .killAll n k | .detachAll n k => n :: k.rest
  | .dispose _ n | .remove n _ | .delete n _ => [n]
  | _ => []

/-- The VCL of a WARM event that has not failed. -/
def warming : Cli → Option Nat
  | .start _ k | .subscribe _ k | .ensure _ k => k.warming
  | .retire vcl _ => some vcl
  | _ => none

/-- Whether a namespace is subscribed and warm: both or neither, but for the one that the section is about. -/
def flags (c : Cli) (n : Nat) (x : Namespace) : Prop :=
  match c with
  | .ensure m _ => if m = n then x.subscribed = true ∧ x.warm = false else x.subscribed = x.warm
  | .cool m _ => if m = n then x.warm = true → x.subscribed = true else x.subscribed = x.warm
  | .unsubscribe m _ => if m = n then x.warm = false else x.subscribed = x.warm
  | .subscribe m _ | .peers m _ | .stop m _ | .killAll m _ | .detachAll m _ | .delete m _ =>
    x.subscribed = x.warm ∧ (m = n → x.warm = false)
  | .remove m fini => x.subscribed = x.warm ∧ (m = n → fini = false → x.warm = false)
  | _ => x.subscribed = x.warm

/-- The sweep thread of the namespace's index has been started for it. -/
def starting : Cli → Nat → Prop
  | .subscribe m _, n | .ensure m _, n => m = n
  | _, _ => False

/-- The namespace has no warm peer. -/
def stopping : Cli → Nat → Prop
  | .stop m _, n | .killAll m _, n | .detachAll m _, n => m = n
  | _, _ => False

/-- The records of the namespace's index are about to go. -/
def draining : Cli → Nat → Prop
  | .peers m _, n | .stop m _, n | .killAll m _, n | .detachAll m _, n => m = n
  | _, _ => False

end Cli

namespace State

def registry (s : State) : Registry where
  names n := (s.nss n).map Namespace.name
  confs a := (s.heap a).map Index.config
  global := s.global
  indexes := s.indexes
  created := s.created
  unlinked := s.cli.unlinked
  disposing := s.cli.disposing

/-- A namespace of the VCL holds the index. -/
def Owns (s : State) (vcl a : Nat) : Prop := ∃ n ∈ s.global, ∃ x, s.nss n = some x ∧ x.vcl = vcl ∧ x.index = a

end State

/-- Warm namespaces, and what relies on them. -/
structure Warm (s : State) : Prop where
  flags : ∀ n x, s.nss n = some x → s.cli.flags n x
  running : ∀ n x, s.nss n = some x → x.warm = true ∨ s.cli.starting n →
    ∃ idx, s.heap x.index = some idx ∧ idx.running = true
  alone : ∀ n x m y, s.cli.stopping n → s.nss n = some x → s.nss m = some y → y.index = x.index → y.subscribed = false
  calls : ∀ c ∈ s.calls, ∃ x, s.nss c.ns = some x ∧ x.index = c.index ∧ x.subscribed = true
  handled : ∀ n ∈ s.cli.handled, ∃ x, s.nss n = some x ∧ x.vcl ∉ s.serving
  warming : ∀ vcl, s.cli.warming = some vcl → vcl ∉ s.serving ∧
    ∀ n x, s.nss n = some x → x.vcl = vcl → n ∈ s.cli.handled ∨ x.warm = true
  serving : ∀ n x, s.nss n = some x → x.vcl ∈ s.serving → x.warm = true
  fetches : ∀ f ∈ s.fetches, ∃ x, s.nss f.1 = some x ∧ x.vcl ∈ s.serving
  direct : ∀ n ∈ s.global, ∀ x, s.nss n = some x → x.direct = true → s.provider = true

variable {s t : State} {n a : Nat} {x y : Namespace} {idx : Index}

/-! ### The registry -/

theorem names_eq {z : Name} : s.registry.names n = some z ↔ ∃ x, s.nss n = some x ∧ x.name = z := Option.map_eq_some_iff

theorem names_of (hn : s.nss n = some x) : s.registry.names n = some x.name := names_eq.mpr ⟨x, hn, rfl⟩

/-- A section that only marks namespaces and indexes leaves the registry as it is. -/
theorem registry_eq (hn : ∀ m, (t.nss m).map Namespace.name = (s.nss m).map Namespace.name)
    (ha : ∀ b, (t.heap b).map Index.config = (s.heap b).map Index.config) (hg : t.global = s.global)
    (hi : t.indexes = s.indexes) (hc : t.created = s.created) (hu : t.cli.unlinked = s.cli.unlinked)
    (hd : t.cli.disposing = s.cli.disposing) : t.registry = s.registry := by
  unfold State.registry
  rw [hg, hi, hc, hu, hd, funext hn, funext ha]

theorem map_update {α β : Type*} {f : α → β} {g : Nat → Option α} {v w : α} (hv : g n = some v) (hw : f w = f v)
    (m : Nat) : (Function.update g n (some w) m).map f = (g m).map f := by
  rw [Function.update_apply]
  split
  · rename_i heq
    rw [heq, hv, Option.map_some, Option.map_some, hw]
  · rfl

theorem use_eq (ha : s.heap a = some idx) (f : Index → State) : s.use a f = f idx := by
  rw [State.use, ha]

/-! ### The sections of the CLI thread -/

/-- What a section of the namespace `n` leaves to the next one, `n` itself apart. -/
structure Cli.Leads (n : Nat) (c c' : Cli) : Prop where
  flags : ∀ m x, m ≠ n → c.flags m x → c'.flags m x
  starting : ∀ m, c'.starting m → c.starting m
  stopping : ∀ m, c'.stopping m → c.stopping m
  handled : ∀ m ∈ c'.handled, m ∈ c.handled
  warming : ∀ vcl, c'.warming = some vcl → c.warming = some vcl ∧ ∀ m ∈ c.handled, m ∈ c'.handled ∨ m = n

section Leads
variable {k : WarmCont} {j : ColdCont} {m : Nat}

theorem leads_dispose : Cli.Leads n (.dispose a n) (.start n .init) where
  flags _ _ _ := id
  starting _ := id
  stopping _ := id
  handled _ := id
  warming _ h := nomatch h

/-- The namespace was warm, or has become it. -/
theorem leads_warmed : Cli.Leads n (.start n k) (s.warmReturn k).cli where
  flags m x _ h := by
    rcases k with _ | ⟨vcl, _ | ⟨m', rest⟩⟩ <;> exact h
  starting m h := by
    rcases k with _ | ⟨vcl, _ | ⟨m', rest⟩⟩ <;> exact h
  stopping m h := by
    rcases k with _ | ⟨vcl, _ | ⟨m', rest⟩⟩ <;> exact h
  handled m hm := by
    rcases k with _ | ⟨vcl, _ | ⟨m', rest⟩⟩
    · cases hm
    · cases hm
    · exact List.mem_cons_of_mem _ hm
  warming vcl h := by
    rcases k with _ | ⟨vcl, _ | ⟨m', rest⟩⟩
    · cases h
    · exact ⟨h, fun m hm => .inr (List.mem_singleton.mp hm)⟩
    · exact ⟨h, fun m hm => (List.mem_cons.mp hm).symm⟩

theorem leads_failed : Cli.Leads n (.start n k) (State.failed n k) where
  flags m x hne h := by
    cases k
    · exact ⟨h, fun heq => absurd heq.symm hne⟩
    · exact h
  starting m h := by cases k <;> exact h
  stopping m h := by cases k <;> exact h
  handled m hm := by
    cases k
    · exact hm
    · cases hm
  warming vcl h := by cases k <;> cases h

theorem leads_subscribe : Cli.Leads n (.subscribe n k) (.ensure n k) where
  flags m x hne h := by simpa [Cli.flags, hne.symm] using h.1
  starting _ := id
  stopping _ := id
  handled _ := id
  warming _ h := ⟨h, fun _ => .inl⟩

theorem leads_ensure : Cli.Leads n (.ensure n k) (.start n k) where
  flags m x hne h := by simpa [Cli.flags, hne.symm] using h
  starting _ := False.elim
  stopping _ := id
  handled _ := id
  warming _ h := ⟨h, fun _ => .inl⟩

theorem leads_unready : Cli.Leads n (.ensure n k) (.cool n (.failed k)) where
  flags m x hne h := by simpa [Cli.flags, hne.symm] using h
  starting _ := False.elim
  stopping _ := id
  handled m hm := by
    rw [List.mem_singleton.mp hm]
    exact List.mem_cons_self
  warming _ h := nomatch h

theorem leads_cool : Cli.Leads n (.cool n j) (.unsubscribe n j) where
  flags m x hne h := by simpa [Cli.flags, hne.symm] using h
  starting _ := id
  stopping _ := id
  handled _ := id
  warming _ h := nomatch h

theorem leads_unsubscribe : Cli.Leads n (.unsubscribe n j) (.peers n j) where
  flags m x hne h := by
    rw [Cli.flags, if_neg hne.symm] at h
    exact ⟨h, fun heq => absurd heq.symm hne⟩
  starting _ := id
  stopping _ := id
  handled _ := id
  warming _ h := nomatch h

theorem leads_stop : Cli.Leads n (.stop n j) (.killAll n j) where
  flags _ _ _ := id
  starting _ := id
  stopping _ := id
  handled _ := id
  warming _ h := nomatch h

theorem leads_killAll : Cli.Leads n (.killAll n j) (.detachAll n j) where
  flags _ _ _ := id
  starting _ := id
  stopping _ := id
  handled _ := id
  warming _ h := nomatch h

/-- A namespace that is cold, when the section about it ends. -/
theorem flags_cooled (h : x.subscribed = x.warm ∧ (n = m → x.warm = false)) : (State.cooled n j).flags m x := by
  rcases j with (_ | ⟨vcl, rest⟩) | (_ | ⟨m', rest⟩) | last
  · exact ⟨h.1, fun heq _ => h.2 heq⟩
  · exact h.1
  · exact h.1
  · change if m' = m then x.warm = true → x.subscribed = true else x.subscribed = x.warm
    split
    · exact h.1.trans
    · exact h.1
  · exact h

theorem leads_cooled {c : Cli} (hc : c = .peers n j ∨ c = .detachAll n j) : Cli.Leads n c (State.cooled n j) where
  flags m x _ h := by rcases hc with rfl | rfl <;> exact flags_cooled h
  starting m h := by rcases j with (_ | ⟨vcl, rest⟩) | (_ | ⟨m', rest⟩) | last <;> cases h
  stopping m h := by rcases j with (_ | ⟨vcl, rest⟩) | (_ | ⟨m', rest⟩) | last <;> cases h
  handled m hm := by
    have hmem : m ∈ n :: j.rest := by
      rcases j with (_ | ⟨vcl, rest⟩) | (_ | ⟨m', rest⟩) | last
      · exact hm
      · cases hm
      · cases hm
      · exact List.mem_cons_of_mem _ hm
      · exact hm
    rcases hc with rfl | rfl <;> exact hmem
  warming vcl h := by rcases j with (_ | ⟨vcl, rest⟩) | (_ | ⟨m', rest⟩) | last <;> cases h

theorem leads_remove {fini last : Bool} :
    Cli.Leads n (.remove n fini) (if fini then .cool n (.fini last) else .delete n last) where
  flags m x hne h := by
    cases fini
    · exact ⟨h.1, fun heq => absurd heq.symm hne⟩
    · simpa [Cli.flags, hne.symm] using h.1
  starting m h := by cases fini <;> exact h
  stopping m h := by cases fini <;> exact h
  handled m hm := by cases fini <;> exact hm
  warming vcl h := by cases fini <;> cases h

end Leads

/-! ### Warm namespaces -/

section Warm
variable {k : WarmCont} {j : ColdCont} {c : Cli}

theorem Warm.lit (h : Warm s) (hn : s.nss n = some x) (hw : x.warm = true) : x.subscribed = true := by
  have hflags := h.flags n x hn
  unfold Cli.flags at hflags
  grind

/-- What no section of a namespace relies on. -/
theorem Warm.worker (h : Warm s) (hnss : t.nss = s.nss) (hcli : t.cli = s.cli) (hglobal : t.global = s.global)
    (hprovider : t.provider = s.provider) (hserving : t.serving = s.serving)
    (hheap : ∀ b idx, s.heap b = some idx → ∃ idx', t.heap b = some idx' ∧ idx'.running = idx.running)
    (hcalls : ∀ c ∈ t.calls, ∃ x, s.nss c.ns = some x ∧ x.index = c.index ∧ x.subscribed = true)
    (hfetches : ∀ f ∈ t.fetches, ∃ x, s.nss f.1 = some x ∧ x.vcl ∈ s.serving) : Warm t where
  flags m y hm := by
    rw [hcli]
    exact h.flags m y (hnss ▸ hm)
  running m y hm hw := by
    rw [hnss] at hm
    rw [hcli] at hw
    obtain ⟨idx, hb, hr⟩ := h.running m y hm hw
    obtain ⟨idx', hb', hr'⟩ := hheap _ idx hb
    exact ⟨idx', hb', hr'.trans hr⟩
  alone m y m' y' hc hm hm' := h.alone m y m' y' (hcli ▸ hc) (hnss ▸ hm) (hnss ▸ hm')
  calls := hnss ▸ hcalls
  handled m hm := by
    rw [hnss, hserving]
    exact h.handled m (hcli ▸ hm)
  warming := by
    rw [hnss, hserving, hcli]
    exact h.warming
  serving := by
    rw [hnss, hserving]
    exact h.serving
  fetches := by
    rw [hnss, hserving]
    exact hfetches
  direct := by
    rw [hnss, hglobal, hprovider]
    exact h.direct

/-- The CLI thread goes on to the next section. -/
theorem Warm.enter (h : Warm s) (hl : s.cli.Leads n c) (hflags : ∀ x, s.nss n = some x → s.cli.flags n x → c.flags n x)
    (hdone : ∀ x, s.nss n = some x → c.warming = none ∨ n ∈ c.handled ∨ x.warm = true) : Warm { s with cli := c } :=
  { h with
    flags := fun m y hm => by
      rcases eq_or_ne m n with rfl | hne
      · exact hflags y hm (h.flags m y hm)
      · exact hl.flags m y hne (h.flags m y hm)
    running := fun m y hm hw => h.running m y hm (hw.imp_right (hl.starting m))
    alone := fun m y m' y' hc => h.alone m y m' y' (hl.stopping m hc)
    handled := fun m hm => h.handled m (hl.handled m hm)
    warming := fun vcl hv => by
      obtain ⟨hv', hrest⟩ := hl.warming vcl hv
      obtain ⟨hout, hall⟩ := h.warming vcl hv'
      refine ⟨hout, fun m y hm hy => ?_⟩
      rcases hall m y hm hy with hm' | hw
      · rcases hrest m hm' with hm' | rfl
        · exact .inl hm'
        · exact (hdone y hm).resolve_left fun hnone => by cases hnone.symm.trans hv
      · exact .inr hw }

/-- A section marks its namespace, which the next one is about too. -/
theorem Warm.mark (h : Warm s) (hn : s.nss n = some x) (c : Cli) (x' : Namespace) (hl : s.cli.Leads n c)
    (hmem : n ∈ c.handled) (hname : x'.name = x.name) (hflags : c.flags n x') (hrunning : x'.warm = true → x.warm = true ∨ s.cli.starting n)
    (hstopping : ∀ m, ¬c.stopping m) (hcalls : ∀ c ∈ s.calls, c.ns = n → x'.subscribed = true) {provider : Bool}
    (hprovider : s.provider = true → provider = true)
    (hdirect : n ∈ s.global → x'.direct = true → provider = true) : Warm { s.setNs n x' with provider, cli := c } := by
  obtain ⟨hvcl, hindex, -⟩ := Name.mk.inj hname
  -- what stood for a namespace stands for the one that it has become
  have hforth : ∀ m y, s.nss m = some y → ∃ y', (s.setNs n x').nss m = some y' ∧ y'.vcl = y.vcl ∧ y'.index = y.index ∧
      (m ≠ n → y' = y) := by
    intro m y hm
    rcases eq_or_ne m n with rfl | hne
    · cases hn.symm.trans hm
      exact ⟨x', Function.update_self .., hvcl, hindex, fun hne => absurd rfl hne⟩
    · exact ⟨y, (Function.update_of_ne hne ..).trans hm, rfl, rfl, fun _ => rfl⟩
  have hout : x.vcl ∉ s.serving := by
    obtain ⟨y, hy, hout⟩ := h.handled n (hl.handled n hmem)
    cases hn.symm.trans hy
    exact hout
  constructor
  case alone => exact fun m _ _ _ hc => absurd hc (hstopping m)
  case flags =>
    intro m y hm
    rcases update_eq_some.mp hm with ⟨rfl, ⟨⟩⟩ | ⟨hne, hm⟩
    · exact hflags
    · exact hl.flags m y hne (h.flags m y hm)
  case running =>
    intro m y hm hw
    rcases update_eq_some.mp hm with ⟨rfl, ⟨⟩⟩ | ⟨-, hm⟩
    · rw [hindex]
      exact h.running m x hn (hw.elim hrunning fun hc => .inr (hl.starting m hc))
    · exact h.running m y hm (hw.imp_right (hl.starting m))
  case calls =>
    intro c hc
    obtain ⟨y, hy, hidx, hsub⟩ := h.calls c hc
    obtain ⟨y', hy', -, hi, hsame⟩ := hforth c.ns y hy
    refine ⟨y', hy', hi.trans hidx, ?_⟩
    rcases eq_or_ne c.ns n with heq | hne
    · rcases update_eq_some.mp hy' with ⟨-, ⟨⟩⟩ | ⟨hne, -⟩
      · exact hcalls c hc heq
      · exact absurd heq hne
    · rw [hsame hne]
      exact hsub
  case handled =>
    intro m hm
    obtain ⟨y, hy, hv⟩ := h.handled m (hl.handled m hm)
    obtain ⟨y', hy', hvcl', -, -⟩ := hforth m y hy
    exact ⟨y', hy', hvcl' ▸ hv⟩
  case warming =>
    intro vcl hv
    obtain ⟨hv', hrest⟩ := hl.warming vcl hv
    obtain ⟨hout, hall⟩ := h.warming vcl hv'
    refine ⟨hout, fun m y hm hy => ?_⟩
    rcases update_eq_some.mp hm with ⟨rfl, -⟩ | ⟨hne, hm⟩
    · exact .inl hmem
    · exact (hall m y hm hy).imp_left fun hm' => (hrest m hm').resolve_right hne
  case serving =>
    intro m y hm hv
    rcases update_eq_some.mp hm with ⟨rfl, ⟨⟩⟩ | ⟨-, hm⟩
    · exact absurd (hvcl ▸ hv) hout
    · exact h.serving m y hm hv
  case fetches =>
    intro f hf
    obtain ⟨y, hy, hv⟩ := h.fetches f hf
    obtain ⟨y', hy', hvcl', -, -⟩ := hforth f.1 y hy
    exact ⟨y', hy', hvcl' ▸ hv⟩
  case direct =>
    intro m hm y hy hd
    rcases update_eq_some.mp hy with ⟨rfl, ⟨⟩⟩ | ⟨-, hy⟩
    · exact hdirect hm hd
    · exact hprovider (h.direct m hm y hy hd)

/-- The sweep thread of an index starts. -/
theorem Warm.sweep (h : Warm s) (a : Nat) (idx : Index) : Warm (s.setIndex a { idx with running := true }) :=
  { h with
    running := fun m y hm hw => by
      rcases eq_or_ne y.index a with rfl | hne
      · exact ⟨_, Function.update_self .., rfl⟩
      · obtain ⟨idx', hb, hr⟩ := h.running m y hm hw
        exact ⟨idx', (Function.update_of_ne hne ..).trans hb, hr⟩ }

theorem Warm.start (h : Warm s) (hc : s.cli = .start n k) (hn : s.nss n = some x) (hw : x.warm = false) (idx : Index) :
    Warm { s.setIndex x.index { idx with running := true } with cli := .subscribe n k } :=
  { h.sweep x.index idx with
    flags := fun m y hm => by
      have hflags := h.flags m y hm
      rw [hc] at hflags
      refine ⟨hflags, ?_⟩
      rintro rfl
      cases hn.symm.trans hm
      exact hw
    running := fun m y hm hlit => by
      rcases hlit with hlit | hstarting
      · exact (h.sweep x.index idx).running m y hm (.inl hlit)
      · obtain rfl : n = m := hstarting
        cases hn.symm.trans hm
        exact ⟨_, Function.update_self .., rfl⟩
    alone := fun _ _ _ _ hstopping => hstopping.elim
    handled := fun m hm => h.handled m (by rw [hc]; exact hm)
    warming := fun vcl hv => by
      have hwarming := h.warming vcl (by rw [hc]; exact hv)
      rw [hc] at hwarming
      exact hwarming }

theorem Warm.failed (h : Warm s) (hc : s.cli = .start n k) (hn : s.nss n = some x) (hw : x.warm = false) :
    Warm { s with cli := State.failed n k } := by
  refine h.enter (by rw [hc]; exact leads_failed) (fun y hy hflags => ?_) fun y hy => .inl ?_
  · rw [hc] at hflags
    cases k with
    | init =>
      cases hn.symm.trans hy
      exact ⟨hflags, fun _ _ => hw⟩
    | event vcl rest => exact hflags
  · cases k <;> rfl

theorem Warm.warmed (h : Warm s) (hc : s.cli = .start n k) (hn : s.nss n = some x) (hw : x.warm = true) :
    Warm (s.warmReturn k) := by
  have hnext : Warm { s with cli := (s.warmReturn k).cli } := by
    refine h.enter (by rw [hc]; exact leads_warmed) (fun y hy hflags => ?_) fun y hy => .inr (.inr ?_)
    · rw [hc] at hflags
      rcases k with _ | ⟨vcl, _ | ⟨m, rest⟩⟩ <;> exact hflags
    · cases hn.symm.trans hy
      exact hw
  cases k <;> exact hnext

theorem Warm.subscribe (h : Warm s) (hc : s.cli = .subscribe n k) (hn : s.nss n = some x) :
    Warm { s.setNs n { x with subscribed := true } with cli := .ensure n k } := by
  have hflags := h.flags n x hn
  rw [hc] at hflags
  refine h.mark hn (.ensure n k) { x with subscribed := true } (by rw [hc]; exact leads_subscribe) List.mem_cons_self rfl ?_
    .inl (fun _ => id) (fun _ _ _ => rfl) id fun hm => h.direct n hm x hn
  rw [Cli.flags, if_pos rfl]
  exact ⟨rfl, hflags.2 rfl⟩

/-- A namespace that has become warm is as if it had been found so. -/
theorem Warm.ensured (h : Warm s) (hc : s.cli = .ensure n k) (hn : s.nss n = some x) {direct provider : Bool}
    (hp : s.provider = true → provider = true) (hd : direct = true → provider = true) :
    Warm ({ s.setNs n { x with warm := true, direct } with provider }.warmReturn k) := by
  have hflags := h.flags n x hn
  rw [hc, Cli.flags, if_pos rfl] at hflags
  have hstart : Warm { s.setNs n { x with warm := true, direct } with provider, cli := .start n k } := by
    refine h.mark hn (.start n k) { x with warm := true, direct } (by rw [hc]; exact leads_ensure) List.mem_cons_self rfl
      hflags.1 (fun _ => .inr ?_) (fun _ => id) (fun _ _ _ => hflags.1) hp fun _ => hd
    rw [hc]
    exact rfl
  have hnext := hstart.warmed rfl (Function.update_self ..) rfl
  cases k <;> exact hnext

theorem Warm.unready (h : Warm s) (hc : s.cli = .ensure n k) : Warm { s with cli := .cool n (.failed k) } := by
  refine h.enter (by rw [hc]; exact leads_unready) (fun y _ hflags => ?_) fun _ _ => .inl rfl
  rw [hc, Cli.flags, if_pos rfl] at hflags
  rw [Cli.flags, if_pos rfl]
  exact fun _ => hflags.1

theorem Warm.cool (h : Warm s) (hc : s.cli = .cool n j) (hn : s.nss n = some x) :
    Warm { s.setNs n { x with warm := false, direct := false } with cli := .unsubscribe n j } := by
  refine h.mark hn (.unsubscribe n j) { x with warm := false, direct := false } (by rw [hc]; exact leads_cool)
    List.mem_cons_self rfl ?_ (fun hw => nomatch hw) (fun _ => id) ?_ id fun _ hd => nomatch hd
  · rw [Cli.flags, if_pos rfl]
  · rintro c hcall rfl
    obtain ⟨y, hy, -, hsub⟩ := h.calls c hcall
    cases hn.symm.trans hy
    exact hsub

theorem Warm.unsubscribe (h : Warm s) (hc : s.cli = .unsubscribe n j) (hn : s.nss n = some x)
    (hcalls : s.calls = [] ∨ x.subscribed = false) :
    Warm { s.setNs n { x with subscribed := false } with cli := .peers n j } := by
  have hflags := h.flags n x hn
  rw [hc, Cli.flags, if_pos rfl] at hflags
  refine h.mark hn (.peers n j) { x with subscribed := false } (by rw [hc]; exact leads_unsubscribe) List.mem_cons_self rfl
    ⟨hflags.symm, fun _ => hflags⟩ .inl (fun _ => id) ?_ id fun hm => h.direct n hm x hn
  -- no callback of the namespace is under way
  rintro c hcall rfl
  rcases hcalls with hnone | hdark
  · rw [hnone] at hcall
    cases hcall
  · obtain ⟨y, hy, -, hsub⟩ := h.calls c hcall
    cases hn.symm.trans hy
    cases hdark.symm.trans hsub

/-- No namespace on the index is left that is subscribed. -/
theorem Warm.peerless (h : Warm s) (hc : s.cli = .peers n j) (hn : s.nss n = some x)
    (hp : ∀ m ∈ s.global, m ≠ n → ∀ y, s.nss m = some y → y.index = x.index → y.warm = false)
    (hl : ∀ m y, s.nss m = some y → m = n ∨ m ∈ s.global) : Warm { s with cli := .stop n j } := by
  have hflags : ∀ m y, s.nss m = some y → y.subscribed = y.warm ∧ (n = m → y.warm = false) := by
    intro m y hm
    have hflags := h.flags m y hm
    rw [hc] at hflags
    exact hflags
  exact { h with
    flags := hflags
    running := fun m y hm hw => h.running m y hm (hw.imp_right False.elim)
    alone := fun m y m' y' hstop hm hm' hidx => by
      obtain rfl : n = m := hstop
      cases hn.symm.trans hm
      rw [(hflags m' y' hm').1]
      rcases eq_or_ne m' n with rfl | hne
      · exact (hflags m' y' hm').2 rfl
      · exact hp m' ((hl m' y' hm').resolve_left hne) hne y' hm' hidx
    handled := fun m hm => h.handled m (by rw [hc]; exact hm)
    warming := fun vcl hv => nomatch hv }

theorem Warm.stop (h : Warm s) (hc : s.cli = .stop n j) (hn : s.nss n = some x) (idx : Index) :
    Warm { s.setIndex x.index { idx with running := false } with cli := .killAll n j } := by
  have hcli : (s.setIndex x.index { idx with running := false }).cli = .stop n j := hc
  have hstopped : Warm (s.setIndex x.index { idx with running := false }) :=
    { h with
      running := fun m y hm hw => by
        have hflags := h.flags m y hm
        rw [hc] at hflags
        rw [hcli] at hw
        have hwarm : y.warm = true := hw.resolve_right id
        -- a warm namespace on the index would be subscribed
        have hne : y.index ≠ x.index := fun hidx => by
          have hdark := h.alone n x m y (by rw [hc]; rfl) hn hm hidx
          rw [hflags.1, hwarm] at hdark
          cases hdark
        obtain ⟨idx', hb, hr⟩ := h.running m y hm (.inl hwarm)
        exact ⟨idx', (Function.update_of_ne hne ..).trans hb, hr⟩ }
  refine hstopped.enter (by rw [hcli]; exact leads_stop) (fun y _ hflags => ?_) fun _ _ => .inl rfl
  rw [hcli] at hflags
  exact hflags

theorem Warm.killAll (h : Warm s) (hc : s.cli = .killAll n j) : Warm { s with cli := .detachAll n j } := by
  refine h.enter (by rw [hc]; exact leads_killAll) (fun y _ hflags => ?_) fun _ _ => .inl rfl
  rw [hc] at hflags
  exact hflags

/-- The release of the provider. -/
theorem Warm.release (h : Warm s) : Warm s.providerReleaseIfIdle := by
  unfold State.providerReleaseIfIdle
  split
  · exact h
  · rename_i hidle
    refine { h with direct := fun m hm y hy hd => absurd ?_ hidle }
    exact List.any_eq_true.mpr ⟨m, hm, by rw [hy]; exact hd⟩

theorem Warm.cooled (h : Warm s) (hc : s.cli = .peers n j ∨ s.cli = .detachAll n j) :
    Warm { s with cli := State.cooled n j } := by
  refine h.enter (leads_cooled hc) (fun y _ hflags => flags_cooled ?_) fun _ _ => .inl ?_
  · rcases hc with hc | hc <;> rw [hc] at hflags <;> exact hflags
  · rcases j with (_ | ⟨vcl, rest⟩) | (_ | ⟨m, rest⟩) | last <;> rfl

/-- Indexes that no namespace holds do not count. -/
theorem Warm.heap (h : Warm s) {f : Nat → Option Index} (hf : ∀ m y, s.nss m = some y → f y.index = s.heap y.index) :
    Warm { s with heap := f } :=
  { h with
    running := fun m y hm hw => by
      obtain ⟨idx, hb, hr⟩ := h.running m y hm hw
      exact ⟨idx, (hf m y hm).trans hb, hr⟩ }

theorem Warm.dispose (h : Warm s) (hc : s.cli = .dispose a n) : Warm { s with cli := .start n .init } := by
  refine h.enter (by rw [hc]; exact leads_dispose) (fun y _ hflags => ?_) fun _ _ => .inl rfl
  rw [hc] at hflags
  exact hflags

theorem Warm.unlist (h : Warm s) (n : Nat) : Warm { s with global := s.global.erase n } :=
  { h with direct := fun m hm => h.direct m (List.mem_of_mem_erase hm) }

theorem Warm.removed (h : Warm s) {fini : Bool} (hc : s.cli = .remove n fini) (last : Bool) :
    Warm { s with cli := if fini then .cool n (.fini last) else .delete n last } := by
  refine h.enter (by rw [hc]; exact leads_remove) (fun y _ hflags => ?_) fun _ _ => .inl ?_
  · rw [hc] at hflags
    cases fini
    · exact ⟨hflags.1, fun _ => hflags.2 rfl rfl⟩
    · rw [if_pos rfl, Cli.flags, if_pos rfl]
      exact hflags.1.trans
  · cases fini <;> rfl

theorem Warm.delete (h : Warm s) {last : Bool} (hc : s.cli = .delete n last) (hn : s.nss n = some x) :
    Warm { s with nss := Function.update s.nss n none, cli := .idle } := by
  have hflags := h.flags n x hn
  rw [hc] at hflags
  have hdark : x.subscribed = false := hflags.1.trans (hflags.2 rfl)
  -- what is said of another namespace is said of one that stays
  have hkeep : ∀ m y, s.nss m = some y → y ≠ x → Function.update s.nss n none m = some y := fun m y hm hne => by
    refine (Function.update_of_ne ?_ ..).trans hm
    rintro rfl
    exact hne (Option.some.inj (hm.symm.trans hn))
  constructor
  case alone => exact fun _ _ _ _ hstopping => hstopping.elim
  case handled => exact fun _ hm => nomatch hm
  case warming => exact fun _ hv => nomatch hv
  case flags =>
    intro m y hm
    have hflags := h.flags m y (of_cleared hm).2
    rw [hc] at hflags
    exact hflags.1
  case running => exact fun m y hm hw => h.running m y (of_cleared hm).2 (hw.imp_right False.elim)
  case calls =>
    intro c hcall
    obtain ⟨y, hy, hidx, hsub⟩ := h.calls c hcall
    refine ⟨y, hkeep c.ns y hy ?_, hidx, hsub⟩
    rintro rfl
    cases hdark.symm.trans hsub
  case serving => exact fun m y hm => h.serving m y (of_cleared hm).2
  case fetches =>
    intro f hf
    obtain ⟨y, hy, hv⟩ := h.fetches f hf
    refine ⟨y, hkeep f.1 y hy ?_, hv⟩
    rintro rfl
    obtain ⟨z, hz, hout⟩ := h.handled n (by rw [hc]; exact List.mem_cons_self)
    cases hn.symm.trans hz
    exact hout hv
  case direct => exact fun m hm y hy => h.direct m hm y (of_cleared hy).2

theorem Warm.retired (h : Warm s) {vcl m : Nat} {rest : List Nat} (hc : s.cli = .retire vcl (m :: rest)) :
    Warm { s with cli := .retire vcl rest } :=
  { h with
    flags := fun m y hm => by
      have hflags := h.flags m y hm
      rw [hc] at hflags
      exact hflags
    running := fun m y hm hw => h.running m y hm (hw.imp_right False.elim)
    alone := fun _ _ _ _ hstopping => hstopping.elim
    handled := fun _ hm => nomatch hm
    warming := fun v hv => by
      have hwarming := h.warming v (by rw [hc]; exact hv)
      rw [hc] at hwarming
      exact hwarming }

/-- The VCL serves once all of its namespaces are warm. -/
theorem Warm.serve (h : Warm s) {vcl : Nat} (hc : s.cli = .retire vcl []) :
    Warm { s with cli := .idle, serving := vcl :: s.serving, warmed := vcl :: s.warmed } := by
  have hall := (h.warming vcl (by rw [hc]; rfl)).2
  rw [hc] at hall
  exact { h with
    flags := fun m y hm => by
      have hflags := h.flags m y hm
      rw [hc] at hflags
      exact hflags
    running := fun m y hm hw => h.running m y hm (hw.imp_right False.elim)
    alone := fun _ _ _ _ hstopping => hstopping.elim
    handled := fun _ hm => nomatch hm
    warming := fun _ hv => nomatch hv
    serving := fun m y hm hv => by
      rcases List.mem_cons.mp hv with hv | hv
      · exact (hall m y hm hv).resolve_left fun hm => nomatch hm
      · exact h.serving m y hm hv
    fetches := fun f hf => by
      obtain ⟨y, hy, hv⟩ := h.fetches f hf
      exact ⟨y, hy, List.mem_cons_of_mem _ hv⟩ }

theorem mem_ofVcl {vcl m : Nat} : m ∈ s.ofVcl vcl ↔ m ∈ s.global ∧ ∃ y, s.nss m = some y ∧ y.vcl = vcl := by
  rw [State.ofVcl, List.mem_filter, Option.any_eq_true]
  simp

/-- While the CLI thread is idle, every namespace that is warm is subscribed, and no other. -/
theorem Warm.flags_idle (h : Warm s) (hc : s.cli = .idle) (hn : s.nss n = some x) : x.subscribed = x.warm := by
  have hflags := h.flags n x hn
  rw [hc] at hflags
  exact hflags

theorem Warm.warm (h : Warm s) {vcl : Nat} (hc : s.cli = .idle) (hv : vcl ∉ s.serving)
    (hl : ∀ m y, s.nss m = some y → m ∈ s.global) : Warm { s with cli := s.nextWarm vcl (s.ofVcl vcl) } := by
  have hhandled : (s.nextWarm vcl (s.ofVcl vcl)).handled = s.ofVcl vcl := by
    cases s.ofVcl vcl <;> rfl
  have hwarming : (s.nextWarm vcl (s.ofVcl vcl)).warming = some vcl := by
    cases s.ofVcl vcl <;> rfl
  exact { h with
    flags := fun m y hm => by
      have hflags := h.flags_idle hc hm
      cases s.ofVcl vcl <;> exact hflags
    running := fun m y hm hw => by
      refine h.running m y hm (hw.imp_right fun hstarting => ?_)
      revert hstarting
      cases s.ofVcl vcl <;> exact False.elim
    alone := fun m y m' y' hstopping => by
      revert hstopping
      cases s.ofVcl vcl <;> exact False.elim
    handled := fun m hm => by
      obtain ⟨-, y, hy, rfl⟩ := mem_ofVcl.mp (hhandled ▸ hm)
      exact ⟨y, hy, hv⟩
    warming := fun v hv' => by
      cases hwarming.symm.trans hv'
      refine ⟨hv, fun m y hm hy => .inl ?_⟩
      rw [hhandled]
      exact mem_ofVcl.mpr ⟨hl m y hm, y, hm, hy⟩ }

theorem Warm.cold (h : Warm s) {vcl : Nat} (hc : s.cli = .idle) (hf : s.fetching vcl = false) :
    Warm { s with cli := State.nextCold (s.ofVcl vcl), serving := s.serving.filter (· ≠ vcl) } := by
  have hhandled : (State.nextCold (s.ofVcl vcl)).handled = s.ofVcl vcl := by
    cases s.ofVcl vcl <;> rfl
  have hother : ∀ f ∈ s.fetches, ∀ y, s.nss f.1 = some y → y.vcl ≠ vcl := by
    intro f hfm y hy hv
    refine absurd hf (Bool.not_eq_false _ ▸ List.any_eq_true.mpr ⟨f, hfm, ?_⟩)
    rw [hy]
    exact beq_iff_eq.mpr hv
  exact { h with
    flags := fun m y hm => by
      have hflags := h.flags_idle hc hm
      cases s.ofVcl vcl with
      | nil => exact hflags
      | cons m' rest =>
        change if m' = m then y.warm = true → y.subscribed = true else y.subscribed = y.warm
        split
        · exact hflags.trans
        · exact hflags
    running := fun m y hm hw => by
      refine h.running m y hm (hw.imp_right fun hstarting => ?_)
      revert hstarting
      cases s.ofVcl vcl <;> exact False.elim
    alone := fun m y m' y' hstopping => by
      revert hstopping
      cases s.ofVcl vcl <;> exact False.elim
    handled := fun m hm => by
      obtain ⟨-, y, hy, rfl⟩ := mem_ofVcl.mp (hhandled ▸ hm)
      exact ⟨y, hy, by simp⟩
    warming := fun v hv => by
      revert hv
      cases s.ofVcl vcl <;> exact fun hv => nomatch hv
    serving := fun m y hm hv => h.serving m y hm (List.mem_of_mem_filter hv)
    fetches := fun f hfm => by
      obtain ⟨y, hy, hv⟩ := h.fetches f hfm
      exact ⟨y, hy, List.mem_filter.mpr ⟨hv, by simpa using hother f hfm y hy⟩⟩ }

theorem Warm.fini (h : Warm s) (hc : s.cli = .idle) (hn : s.nss n = some x) (hv : x.vcl ∉ s.serving) :
    Warm { s with cli := .remove n true } :=
  { h with
    flags := fun m y hm => ⟨h.flags_idle hc hm, fun _ hfini => nomatch hfini⟩
    running := fun m y hm hw => h.running m y hm (hw.imp_right False.elim)
    alone := fun _ _ _ _ hstopping => hstopping.elim
    handled := fun m hm => by
      rw [List.mem_singleton.mp hm]
      exact ⟨x, hn, hv⟩
    warming := fun _ hv => nomatch hv }

/-- A namespace comes. -/
theorem Warm.load (h : Warm s) (hc : s.cli = .idle) (hfresh : s.nss n = none)
    (hx : x.subscribed = false ∧ x.warm = false ∧ x.direct = false) (hv : x.vcl ∉ s.serving) {c : Cli}
    (hnext : c = .start n .init ∨ c = .dispose a n) :
    Warm { s with nss := Function.update s.nss n (some x), global := n :: s.global, cli := c } := by
  obtain ⟨hdark, hcold, hvolatile⟩ := hx
  -- The namespaces of before are where they were.
  have holder : ∀ m y, s.nss m = some y → Function.update s.nss n (some x) m = some y := fun m y hm => by
    refine (Function.update_of_ne ?_ ..).trans hm
    rintro rfl
    cases hfresh.symm.trans hm
  constructor
  case flags =>
    intro m y hm
    have hflags : y.subscribed = y.warm := by
      rcases update_eq_some.mp hm with ⟨-, ⟨⟩⟩ | ⟨-, hm⟩
      · rw [hdark, hcold]
      · exact h.flags_idle hc hm
    rcases hnext with rfl | rfl <;> exact hflags
  case running =>
    intro m y hm hw
    have hwarm : y.warm = true := by
      refine hw.resolve_right fun hstarting => ?_
      rcases hnext with rfl | rfl <;> exact hstarting
    rcases update_eq_some.mp hm with ⟨-, ⟨⟩⟩ | ⟨-, hm⟩
    · cases hcold.symm.trans hwarm
    · exact h.running m y hm (.inl hwarm)
  case alone =>
    intro m y m' y' hstopping
    rcases hnext with rfl | rfl <;> exact hstopping.elim
  case calls =>
    intro c hcall
    obtain ⟨y, hy, hcall⟩ := h.calls c hcall
    exact ⟨y, holder c.ns y hy, hcall⟩
  case handled =>
    intro m hm
    obtain rfl : m = n := by rcases hnext with rfl | rfl <;> exact List.mem_singleton.mp hm
    exact ⟨x, Function.update_self .., hv⟩
  case warming =>
    intro vcl hv
    rcases hnext with rfl | rfl <;> cases hv
  case serving =>
    intro m y hm hy
    rcases update_eq_some.mp hm with ⟨-, ⟨⟩⟩ | ⟨-, hm⟩
    · exact absurd hy hv
    · exact h.serving m y hm hy
  case fetches =>
    intro f hf
    obtain ⟨y, hy, hserving⟩ := h.fetches f hf
    exact ⟨y, holder f.1 y hy, hserving⟩
  case direct =>
    intro m hm y hy hd
    rcases update_eq_some.mp hy with ⟨-, ⟨⟩⟩ | ⟨hne, hy⟩
    · cases hvolatile.symm.trans hd
    · exact h.direct m ((List.mem_cons.mp hm).resolve_left hne) y hy hd

end Warm
end Cachetag.Vcl
