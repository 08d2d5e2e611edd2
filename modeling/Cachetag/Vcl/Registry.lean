import Cachetag.Vcl.Namespace

/-! Which namespace holds which index: the registry, apart from what the indexes record.

A registry has four moves: a namespace comes with an index of its own or takes one that another VCL holds, a replaced
index is disposed of, a namespace leaves the list, and it ends with or without its index. Every other section of the
model leaves the registry as it is. -/

namespace Cachetag.Vcl

/-- What the registry says of a namespace. -/
structure Name where
  vcl : Nat
  index : Nat
  asked : Config

structure Registry where
  names : Nat → Option Name
  confs : Nat → Option Config
  global : List Nat
  indexes : Nat
  created : Nat
  /-- the namespace that has left the list, and whether it was the last one on its index -/
  unlinked : Option (Nat × Bool)
  /-- the index that a shared one has replaced -/
  disposing : Option Nat

/-- What a partial map holds after the update of one place. -/
theorem update_eq_some {α : Type*} {f : Nat → Option α} {a b : Nat} {v : Option α} {w : α} :
    Function.update f a v b = some w ↔ b = a ∧ v = some w ∨ b ≠ a ∧ f b = some w := by
  rw [Function.update_apply]
  split <;> simp_all

theorem of_cleared {α : Type*} {f : Nat → Option α} {a b : Nat} {w : α} (hb : Function.update f a none b = some w) :
    b ≠ a ∧ f b = some w := by
  rcases update_eq_some.mp hb with ⟨-, ⟨⟩⟩ | hb
  exact hb

namespace Registry

structure WF (r : Registry) : Prop where
  created : ∀ n x, r.names n = some x → n < r.created
  indexes : ∀ a c, r.confs a = some c → a < r.indexes
  nodup : r.global.Nodup
  linked : ∀ n ∈ r.global, ∃ x, r.names n = some x
  listed : ∀ n x, r.names n = some x → n ∈ r.global ∨ ∃ last, r.unlinked = some (n, last)
  unlinked : ∀ n last, r.unlinked = some (n, last) → n ∉ r.global ∧ ∃ x, r.names n = some x ∧
    (last = true ↔ ∀ m y, r.names m = some y → y.index = x.index → m = n)
  points : ∀ n x, r.names n = some x → r.confs x.index = some x.asked
  held : ∀ a c, r.confs a = some c → (∃ n x, r.names n = some x ∧ x.index = a) ∨ r.disposing = some a
  disposing : ∀ a, r.disposing = some a → (∃ c, r.confs a = some c) ∧ ∀ n x, r.names n = some x → x.index ≠ a
  /-- no two namespaces of one VCL share an index -/
  apart : ∀ m n x y, r.names m = some x → r.names n = some y → x.index = y.index → x.vcl = y.vcl → m = n
  /-- only memory-only indexes are shared -/
  memory : ∀ m n x y, r.names m = some x → r.names n = some y → x.index = y.index → m ≠ n → x.asked.persist = false

variable {r : Registry} {n a vcl : Nat} {x : Name} {c : Config}

theorem WF.linked_of_quiet (h : r.WF) (hu : r.unlinked = none) (hn : r.names n = some x) : n ∈ r.global := by
  rcases h.listed n x hn with hn | ⟨_, hl⟩
  · exact hn
  · rw [hu] at hl
    cases hl

theorem WF.index_lt (h : r.WF) (hn : r.names n = some x) : x.index < r.indexes := h.indexes _ _ (h.points n x hn)

/-- A namespace comes with an index. -/
def add (r : Registry) (x : Name) : Registry :=
  { r with
    names := Function.update r.names r.created (some x)
    confs := Function.update r.confs r.indexes (some x.asked)
    global := r.created :: r.global
    indexes := r.indexes + 1
    created := r.created + 1
    disposing := if x.index = r.indexes then none else some r.indexes }

/-- The names after a namespace has come. -/
theorem add_names {y : Name} (hn : (r.add x).names n = some y) :
    n = r.created ∧ y = x ∨ n ≠ r.created ∧ r.names n = some y := by
  rcases update_eq_some.mp hn with ⟨rfl, ⟨⟩⟩ | hn
  · exact .inl ⟨rfl, rfl⟩
  · exact .inr hn

/-- A namespace comes with the index that was made for it, or takes one of the same configuration that no namespace of
    its VCL holds. -/
theorem WF.add (h : r.WF) (hu : r.unlinked = none) (hd : r.disposing = none)
    (hx : x.index = r.indexes ∨ r.confs x.index = some x.asked ∧ x.asked.persist = false ∧
      ∀ m y, r.names m = some y → y.index = x.index → y.vcl ≠ x.vcl) : (r.add x).WF := by
  have older : ∀ m y, r.names m = some y → y.index ≠ r.indexes := fun m y hm => (h.index_lt hm).ne
  have met : ∀ m y, r.names m = some y → y.index = x.index →
      y.vcl ≠ x.vcl ∧ y.asked = x.asked ∧ x.asked.persist = false := by
    intro m y hm heq
    rcases hx with hx | ⟨hc, hp, hv⟩
    · exact absurd (heq.trans hx) (older m y hm)
    · have hy := h.points m y hm
      rw [heq, hc] at hy
      exact ⟨hv m y hm heq, (Option.some.inj hy).symm, hp⟩
  -- The new name has a number of its own, and an index that is shared has the configuration asked for.
  refine ⟨?_, ?_, ?_, ?_, ?_, ?_, ?_, ?_, ?_, ?_, ?_⟩
  · intro m y hm
    rcases add_names hm with ⟨rfl, -⟩ | ⟨-, hm⟩
    · exact Nat.lt_succ_self _
    · exact (h.created m y hm).trans (Nat.lt_succ_self _)
  · intro b c hb
    rcases update_eq_some.mp hb with ⟨rfl, -⟩ | ⟨-, hb⟩
    · exact Nat.lt_succ_self _
    · exact (h.indexes b c hb).trans (Nat.lt_succ_self _)
  · refine List.nodup_cons.mpr ⟨fun hm => ?_, h.nodup⟩
    obtain ⟨y, hy⟩ := h.linked _ hm
    exact absurd (h.created _ y hy) (Nat.lt_irrefl _)
  · intro m hm
    rcases List.mem_cons.mp hm with rfl | hm
    · exact ⟨x, Function.update_self ..⟩
    · obtain ⟨y, hy⟩ := h.linked m hm
      exact ⟨y, (Function.update_of_ne (h.created m y hy).ne ..).trans hy⟩
  · intro m y hm
    rcases add_names hm with ⟨rfl, -⟩ | ⟨-, hm⟩
    · exact .inl List.mem_cons_self
    · exact .inl (List.mem_cons_of_mem _ (h.linked_of_quiet hu hm))
  · intro m last hm
    exact absurd (hu.symm.trans hm) (by simp)
  · intro m y hm
    rcases add_names hm with ⟨rfl, rfl⟩ | ⟨-, hm⟩
    · rcases hx with hx | ⟨hc, -, -⟩
      · rw [hx]
        exact Function.update_self ..
      · exact (Function.update_of_ne (h.indexes _ _ hc).ne ..).trans hc
    · exact (Function.update_of_ne (older m y hm) ..).trans (h.points m y hm)
  · intro b c hb
    rcases update_eq_some.mp hb with ⟨rfl, -⟩ | ⟨-, hb⟩
    · by_cases hx : x.index = r.indexes
      · exact .inl ⟨r.created, x, Function.update_self .., hx⟩
      · exact .inr (if_neg hx)
    · rcases h.held b c hb with ⟨m, y, hm, hy⟩ | hb
      · exact .inl ⟨m, y, (Function.update_of_ne (h.created m y hm).ne ..).trans hm, hy⟩
      · exact absurd (hd.symm.trans hb) (by simp)
  · intro b hb
    change (if x.index = r.indexes then none else some r.indexes) = some b at hb
    split at hb <;> cases hb
    rename_i hx
    refine ⟨⟨_, Function.update_self ..⟩, fun m y hm => ?_⟩
    rcases add_names hm with ⟨-, rfl⟩ | ⟨-, hm⟩
    · exact hx
    · exact older m y hm
  · intro m k y z hm hk heq hv
    rcases add_names hm with ⟨rfl, rfl⟩ | ⟨-, hm'⟩ <;> rcases add_names hk with ⟨rfl, rfl⟩ | ⟨-, hk'⟩
    · rfl
    · exact absurd hv.symm (met k z hk' heq.symm).1
    · exact absurd hv (met m y hm' heq).1
    · exact h.apart m k y z hm' hk' heq hv
  · intro m k y z hm hk heq hne
    rcases add_names hm with ⟨rfl, rfl⟩ | ⟨-, hm'⟩ <;> rcases add_names hk with ⟨rfl, rfl⟩ | ⟨-, hk'⟩
    · exact absurd rfl hne
    · exact (met k z hk' heq.symm).2.2
    · rw [(met m y hm' heq).2.1]
      exact (met m y hm' heq).2.2
    · exact h.memory m k y z hm' hk' heq hne

/-- A replaced index goes. -/
def dispose (r : Registry) (a : Nat) : Registry := { r with confs := Function.update r.confs a none, disposing := none }

theorem WF.dispose (h : r.WF) (hd : r.disposing = some a) : (r.dispose a).WF := by
  obtain ⟨-, hfree⟩ := h.disposing a hd
  refine { h with indexes := ?_, points := ?_, held := ?_, disposing := ?_ }
  · intro b d hb
    exact h.indexes b d (of_cleared hb).2
  · intro m y hm
    exact (Function.update_of_ne (hfree m y hm) ..).trans (h.points m y hm)
  · intro b d hb
    obtain ⟨hne, hb⟩ := of_cleared hb
    rcases h.held b d hb with hb | hb
    · exact .inl hb
    · cases hd.symm.trans hb
      exact absurd rfl hne
  · intro b hb
    cases hb

/-- A namespace leaves the list. -/
def remove (r : Registry) (n : Nat) (last : Bool) : Registry :=
  { r with global := r.global.erase n, unlinked := some (n, last) }

theorem WF.remove (h : r.WF) (hu : r.unlinked = none) (hn : r.names n = some x) {last : Bool}
    (hlast : last = true ↔ ∀ m ∈ r.global.erase n, ∀ y, r.names m = some y → y.index ≠ x.index) :
    (r.remove n last).WF := by
  have mem_erase : ∀ {m y}, r.names m = some y → m ≠ n → m ∈ r.global.erase n := fun hm hne =>
    (List.mem_erase_of_ne hne).mpr (h.linked_of_quiet hu hm)
  refine { h with nodup := ?_, linked := ?_, listed := ?_, unlinked := ?_ }
  · exact h.nodup.erase n
  · intro m hm
    exact h.linked m (List.mem_of_mem_erase hm)
  · intro m y hm
    rcases eq_or_ne m n with rfl | hne
    · exact .inr ⟨last, rfl⟩
    · exact .inl (mem_erase hm hne)
  · rintro m l ⟨⟩
    refine ⟨h.nodup.not_mem_erase, x, hn, hlast.trans ⟨fun hl m y hm heq => ?_, fun hl m hm y hy heq => ?_⟩⟩
    · by_contra hne
      exact hl m (mem_erase hm hne) y hm heq
    · cases hl m y hy heq
      exact h.nodup.not_mem_erase hm

/-- A namespace ends, and its index if it was the last one. -/
def delete (r : Registry) (n : Nat) (x : Name) (last : Bool) : Registry :=
  { r with
    names := Function.update r.names n none
    confs := if last then Function.update r.confs x.index none else r.confs
    unlinked := none }

theorem WF.delete (h : r.WF) (hn : r.names n = some x) {last : Bool} (hu : r.unlinked = some (n, last))
    (hd : r.disposing = none) : (r.delete n x last).WF := by
  obtain ⟨hout, x', hx', hlast⟩ := h.unlinked n last hu
  cases hn.symm.trans hx'
  have confs : ∀ {b d}, (r.delete n x last).confs b = some d → r.confs b = some d ∧ (last = true → b ≠ x.index) := by
    intro b d hb
    cases last with
    | false => exact ⟨hb, fun h => absurd h (by simp)⟩
    | true =>
      obtain ⟨hne, hb⟩ := of_cleared hb
      exact ⟨hb, fun _ => hne⟩
  refine ⟨?_, ?_, h.nodup, ?_, ?_, ?_, ?_, ?_, ?_, ?_, ?_⟩
  · intro m y hm
    exact h.created m y (of_cleared hm).2
  · intro b d hb
    exact h.indexes b d (confs hb).1
  · intro m hm
    obtain ⟨y, hy⟩ := h.linked m hm
    refine ⟨y, (Function.update_of_ne ?_ ..).trans hy⟩
    rintro rfl
    exact hout hm
  · intro m y hm
    obtain ⟨hne, hm⟩ := of_cleared hm
    rcases h.listed m y hm with hm | ⟨l, hl⟩
    · exact .inl hm
    · rw [hu] at hl
      cases hl
      exact absurd rfl hne
  · intro m l hm
    cases hm
  · intro m y hm
    obtain ⟨hne, hm⟩ := of_cleared hm
    cases hl : last with
    | false => exact h.points m y hm
    | true =>
      refine (Function.update_of_ne ?_ ..).trans (h.points m y hm)
      exact fun heq => hne (hlast.mp hl m y hm heq)
  · intro b d hb
    obtain ⟨hb, hne⟩ := confs hb
    refine .inl ?_
    rcases h.held b d hb with ⟨m, y, hm, rfl⟩ | hb
    · rcases eq_or_ne m n with rfl | hmn
      · cases hn.symm.trans hm
        -- the index stays, so another namespace holds it
        have hl : ¬last = true := fun hl => hne hl rfl
        rw [hlast] at hl
        push Not at hl
        obtain ⟨k, z, hk, heq, hkn⟩ := hl
        exact ⟨k, z, (Function.update_of_ne hkn ..).trans hk, heq⟩
      · exact ⟨m, y, (Function.update_of_ne hmn ..).trans hm, rfl⟩
    · cases hd.symm.trans hb
  · intro b hb
    cases hd.symm.trans hb
  · intro m k y z hm hk
    exact h.apart m k y z (of_cleared hm).2 (of_cleared hk).2
  · intro m k y z hm hk
    exact h.memory m k y z (of_cleared hm).2 (of_cleared hk).2

end Registry
end Cachetag.Vcl
