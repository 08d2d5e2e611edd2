import Mathlib

/-! Hash tables of chains: an array of lists, each of which holds the entries that its index selects. -/

namespace Chains

variable {ι : Type*}

/-- The entry `x` becomes the head of chain `b`. -/
def push (t : List (List ι)) (b : Nat) (x : ι) : List (List ι) := t.modify b (x :: ·)

/-- The entry `x` is taken out of chain `b`. -/
def unlink [DecidableEq ι] (t : List (List ι)) (b : Nat) (x : ι) : List (List ι) := t.modify b (·.erase x)

/-- Chain `b`, empty where the array has no such chain. -/
def chain (t : List (List ι)) (b : Nat) : List ι := t.getD b []

/-- Every entry is in the chain that its key selects. -/
def Keyed (key : ι → Nat) (t : List (List ι)) : Prop := ∀ b, ∀ x ∈ chain t b, key x = b

variable {t : List (List ι)} {b c : Nat} {x y : ι} {key : ι → Nat}

@[simp] theorem length_push : (push t b x).length = t.length := List.length_modify ..

@[simp] theorem length_unlink [DecidableEq ι] : (unlink t b x).length = t.length := List.length_modify ..

theorem chain_push (hb : b < t.length) : chain (push t b x) c = if c = b then x :: chain t b else chain t c := by
  unfold chain push
  rw [List.getD_eq_getElem?_getD, List.getElem?_modify]
  by_cases hc : c = b
  · subst hc
    simp [hb]
  · have : ¬b = c := fun h => hc h.symm
    simp [this, hc]

theorem chain_unlink [DecidableEq ι] :
    chain (unlink t b x) c = if c = b then (chain t b).erase x else chain t c := by
  unfold chain unlink
  rw [List.getD_eq_getElem?_getD, List.getElem?_modify]
  by_cases hc : c = b
  · subst hc
    cases h : t[c]? <;> simp [h]
  · have : ¬b = c := fun h => hc h.symm
    simp [this, hc]

theorem chain_lt (h : x ∈ chain t b) : b < t.length := by
  by_contra hb
  unfold chain at h
  rw [List.getD_eq_getElem?_getD, List.getElem?_eq_none (by omega)] at h
  cases h

theorem mem_flatten_iff : x ∈ t.flatten ↔ ∃ b, x ∈ chain t b := by
  rw [List.mem_flatten]
  constructor
  · rintro ⟨l, hl, hx⟩
    obtain ⟨b, hb⟩ := List.mem_iff_getElem?.mp hl
    exact ⟨b, by simpa [chain, List.getD_eq_getElem?_getD, hb] using hx⟩
  · rintro ⟨b, hx⟩
    have hb := chain_lt hx
    unfold chain at hx
    rw [List.getD_eq_getElem _ _ hb] at hx
    exact ⟨t[b], List.getElem_mem hb, hx⟩

theorem Keyed.mem (h : Keyed key t) (hx : x ∈ t.flatten) : x ∈ chain t (key x) := by
  obtain ⟨b, hb⟩ := mem_flatten_iff.mp hx
  rwa [h b x hb]

theorem flatten_push (hb : b < t.length) : (push t b x).flatten.Perm (x :: t.flatten) := by
  induction t generalizing b with
  | nil => exact absurd hb (Nat.not_lt_zero b)
  | cons l t ih =>
    cases b with
    | zero => exact .refl _
    | succ b =>
      have hp := ih (Nat.lt_of_succ_lt_succ hb)
      show (l ++ (push t b x).flatten).Perm (x :: (l ++ t.flatten))
      exact (hp.append_left l).trans List.perm_middle

theorem flatten_unlink [DecidableEq ι] (hx : x ∈ chain t b) : t.flatten.Perm (x :: (unlink t b x).flatten) := by
  induction t generalizing b with
  | nil => cases hx
  | cons l t ih =>
    cases b with
    | zero =>
      have hx : x ∈ l := hx
      show (l ++ t.flatten).Perm (x :: (l.erase x ++ t.flatten))
      exact (List.perm_cons_erase hx).append_right t.flatten
    | succ b =>
      have hp := ih (b := b) hx
      show (l ++ t.flatten).Perm (x :: (l ++ (unlink t b x).flatten))
      exact (hp.append_left l).trans List.perm_middle

/-- A push adds no entry but its own, whatever the index. -/
theorem mem_push (hy : y ∈ (push t b x).flatten) : y = x ∨ y ∈ t.flatten := by
  induction t generalizing b with
  | nil => cases b <;> cases hy
  | cons l t ih =>
    cases b with
    | zero =>
      rcases List.mem_cons.mp hy with rfl | hy
      · exact .inl rfl
      · exact .inr hy
    | succ b =>
      rcases List.mem_append.mp hy with hy | hy
      · exact .inr (List.mem_append_left _ hy)
      · exact (ih hy).imp_right (List.mem_append_right _)

theorem mem_chain_unlink [DecidableEq ι] (hy : y ∈ chain (unlink t b x) c) : y ∈ chain t c := by
  rw [chain_unlink] at hy
  split at hy
  · rename_i hc
    rw [hc]
    exact List.mem_of_mem_erase hy
  · exact hy

theorem mem_unlink [DecidableEq ι] (hy : y ∈ (unlink t b x).flatten) : y ∈ t.flatten := by
  obtain ⟨c, hc⟩ := mem_flatten_iff.mp hy
  exact mem_flatten_iff.mpr ⟨c, mem_chain_unlink hc⟩

/-- Only the keys of the entries that are in the table matter. -/
theorem Keyed.congr {key' : ι → Nat} (h : Keyed key t) (hkey : ∀ x ∈ t.flatten, key' x = key x) : Keyed key' t :=
  fun b x hx => (hkey x (mem_flatten_iff.mpr ⟨b, hx⟩)).trans (h b x hx)

theorem Keyed.push (h : Keyed key t) (hb : b < t.length) (hx : key x = b) : Keyed key (push t b x) := by
  intro c y hy
  rw [chain_push hb] at hy
  split at hy
  · rename_i hc
    rcases List.mem_cons.mp hy with rfl | hy
    · exact hx.trans hc.symm
    · exact hc ▸ h b y hy
  · exact h c y hy

theorem Keyed.unlink [DecidableEq ι] (h : Keyed key t) : Keyed key (unlink t b x) :=
  fun c y hy => h c y (mem_chain_unlink hy)

/-- A table of empty chains, as an array is that comes fresh from `calloc`. -/
theorem Keyed.replicate (n : Nat) : Keyed key (List.replicate n []) := by
  intro b x hx
  unfold chain at hx
  rw [List.getD_eq_getElem?_getD, List.getElem?_replicate] at hx
  split at hx <;> cases hx

end Chains
