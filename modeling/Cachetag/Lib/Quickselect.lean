import Mathlib

/-! Selection of the `k`-th smallest value of an array by Hoare partitions.

The array is a function on positions, of which the first `n` count. `select` leaves the values as they are
and only moves them, and what it returns does not depend on where they stood. -/

namespace Quickselect

section Shuffles
variable {α : Type*}

/-- `b` is `a` with the values at the positions from `l` to `r` moved among these. -/
def Shuffles (l r : Nat) (a b : Nat → α) : Prop :=
  ∃ σ : Equiv.Perm ℕ, (∀ u, σ u ≠ u → l ≤ u ∧ u ≤ r) ∧ b = a ∘ σ

variable {a b c : Nat → α} {l r l' r' i j u n : Nat}

theorem Shuffles.refl : Shuffles l r a a := ⟨1, fun _ h => absurd rfl h, rfl⟩

theorem Shuffles.swap (hi : l ≤ i ∧ i ≤ r) (hj : l ≤ j ∧ j ≤ r) : Shuffles l r a (a ∘ Equiv.swap i j) := by
  refine ⟨Equiv.swap i j, fun u hu => ?_, rfl⟩
  by_cases hui : u = i
  · exact hui ▸ hi
  · by_cases huj : u = j
    · exact huj ▸ hj
    · exact absurd (Equiv.swap_apply_of_ne_of_ne hui huj) hu

theorem Shuffles.trans (h : Shuffles l r a b) (h' : Shuffles l r b c) : Shuffles l r a c := by
  obtain ⟨σ, hσ, rfl⟩ := h
  obtain ⟨τ, hτ, rfl⟩ := h'
  refine ⟨σ * τ, fun u hu => ?_, by ext; simp⟩
  by_cases hτu : τ u = u
  · rw [Equiv.Perm.mul_apply, hτu] at hu
    exact hσ u hu
  · exact hτ u hτu

theorem Shuffles.wider (h : Shuffles l r a b) (hl : l' ≤ l) (hr : r ≤ r') : Shuffles l' r' a b := by
  obtain ⟨σ, hσ, rfl⟩ := h
  exact ⟨σ, fun u hu => ⟨by have := hσ u hu; omega, by have := hσ u hu; omega⟩, rfl⟩

theorem Shuffles.frame (h : Shuffles l r a b) (hu : ¬(l ≤ u ∧ u ≤ r)) : b u = a u := by
  obtain ⟨σ, hσ, rfl⟩ := h
  have : σ u = u := by
    by_contra hne
    exact hu (hσ u hne)
  simp [this]

/-- A value that stands in the shuffled part stood in it before. -/
theorem Shuffles.source (h : Shuffles l r a b) (hu : l ≤ u ∧ u ≤ r) : ∃ w, (l ≤ w ∧ w ≤ r) ∧ b u = a w := by
  obtain ⟨σ, hσ, rfl⟩ := h
  refine ⟨σ u, ?_, rfl⟩
  by_cases hfix : σ u = u
  · rwa [hfix]
  · exact hσ (σ u) fun heq => hfix (σ.injective heq)

theorem Shuffles.perm (h : Shuffles 0 (n - 1) a b) (hn : 0 < n) :
    ((List.range n).map b).Perm ((List.range n).map a) := by
  obtain ⟨σ, hσ, rfl⟩ := h
  have hmem : ∀ u, u < n → σ u < n := by
    intro u hu
    by_cases hfix : σ u = u
    · rwa [hfix]
    · have := hσ (σ u) fun heq => hfix (σ.injective heq)
      omega
  rw [← List.map_map]
  refine List.Perm.map a ?_
  have hnd : ((List.range n).map σ).Nodup := List.nodup_range.map σ.injective
  have hsub : (List.range n).map σ ⊆ List.range n := by
    intro x hx
    obtain ⟨u, hu, rfl⟩ := List.mem_map.mp hx
    exact List.mem_range.mpr (hmem u (List.mem_range.mp hu))
  exact (hnd.subperm hsub).perm_of_length_le (by simp)

end Shuffles

variable {α : Type*} [LinearOrder α]

/-- Up from position `i` to the first value that is not below the pivot. -/
def scanUp (a : Nat → α) (p : α) : Nat → Nat → Option Nat
  | 0, _ => none
  | fuel + 1, i => if a i < p then scanUp a p fuel (i + 1) else some i

/-- Down from position `j` to the first value that is not above the pivot. -/
def scanDown (a : Nat → α) (p : α) : Nat → Option Nat
  | 0 => if p < a 0 then none else some 0
  | j + 1 => if p < a (j + 1) then scanDown a p j else some (j + 1)

/-- The partition loop. It returns the array it leaves and the last position of its lower part. -/
def partition (n : Nat) (p : α) : Nat → (Nat → α) → Nat → Nat → Option ((Nat → α) × Nat)
  | 0, _, _, _ => none
  | fuel + 1, a, i, j =>
    (scanUp a p n i).bind fun i' => (scanDown a p j).bind fun j' =>
      if j' ≤ i' then some (a, j') else partition n p fuel (a ∘ Equiv.swap i' j') (i' + 1) (j' - 1)

/-- The selection loop, on the positions from `left` to `right`. -/
def selectIn (n kth : Nat) : Nat → (Nat → α) → Nat → Nat → Option α
  | 0, _, _, _ => none
  | fuel + 1, a, left, right =>
    if left = right then some (a left)
    else (partition n (a (left + (right - left) / 2)) (n + 1) a left right).bind fun (b, j) =>
      if kth ≤ j then selectIn n kth fuel b left j else selectIn n kth fuel b (j + 1) right

/-- The value that stands at position `kth` once the first `n` are sorted. -/
def select (a : Nat → α) (n kth : Nat) : Option α := selectIn n kth n a 0 (n - 1)

section Rank

/-- `v` has rank `k` in a list: at most `k` values are below it, and more than `k` are not above it. -/
def IsKth (l : List α) (k : Nat) (v : α) : Prop := l.countP (· < v) ≤ k ∧ k < l.countP (· ≤ v)

variable {l l' : List α} {k : Nat} {v w : α}

theorem IsKth.perm (h : IsKth l k v) (hp : l.Perm l') : IsKth l' k v := by
  unfold IsKth
  rw [← hp.countP_eq, ← hp.countP_eq]
  exact h

/-- Fewer values are below the smaller of two than are not above it. -/
theorem IsKth.not_lt (hv : IsKth l k v) (hw : IsKth l k w) : ¬v < w := by
  intro hlt
  have hmono : l.countP (· ≤ v) ≤ l.countP (· < w) := by
    refine List.countP_mono_left fun x _ hx => ?_
    exact decide_eq_true (lt_of_le_of_lt (of_decide_eq_true hx) hlt)
  have := hv.2
  have := hw.1
  omega

theorem IsKth.unique (hv : IsKth l k v) (hw : IsKth l k w) : v = w :=
  le_antisymm (le_of_not_gt (hw.not_lt hv)) (le_of_not_gt (hv.not_lt hw))

/-- In a sorted list the value of rank `k` stands at position `k`. -/
theorem IsKth.of_sorted (hs : l.Pairwise (· ≤ ·)) (hk : k < l.length) : IsKth l k l[k] := by
  have hget := List.pairwise_iff_getElem.mp hs
  constructor
  · have hdrop : (l.drop k).countP (· < l[k]) = 0 := by
      rw [List.countP_eq_zero]
      intro x hx
      obtain ⟨i, hi, rfl⟩ := List.mem_iff_getElem.mp hx
      rw [List.getElem_drop]
      rw [List.length_drop] at hi
      rcases Nat.eq_zero_or_pos i with rfl | hpos
      · simp
      · simpa using hget k (k + i) hk (by omega) (by omega)
    have hsplit : (l.take k ++ l.drop k).countP (· < l[k]) =
        (l.take k).countP (· < l[k]) + (l.drop k).countP (· < l[k]) := List.countP_append
    rw [List.take_append_drop, hdrop] at hsplit
    rw [hsplit]
    exact List.countP_le_length.trans (List.length_take_le k l)
  · have htake : (l.take (k + 1)).countP (· ≤ l[k]) = k + 1 := by
      rw [List.countP_eq_length.mpr, List.length_take, Nat.min_eq_left hk]
      intro x hx
      obtain ⟨i, hi, rfl⟩ := List.mem_iff_getElem.mp hx
      rw [List.getElem_take]
      rw [List.length_take, Nat.min_eq_left hk] at hi
      rcases Nat.lt_succ_iff_lt_or_eq.mp hi with hlt | rfl
      · exact decide_eq_true (hget i k (by omega) hk hlt)
      · simp
    have hsplit : (l.take (k + 1) ++ l.drop (k + 1)).countP (· ≤ l[k]) =
        (l.take (k + 1)).countP (· ≤ l[k]) + (l.drop (k + 1)).countP (· ≤ l[k]) := List.countP_append
    rw [List.take_append_drop, htake] at hsplit
    omega

/-- The value of rank `k` is the one at position `k` of the sorted list. -/
theorem IsKth.sorted (h : IsKth l k v) : (l.mergeSort (· ≤ ·))[k]? = some v := by
  have hpair : (l.mergeSort (· ≤ ·)).Pairwise fun a b => decide (a ≤ b) = true :=
    List.pairwise_mergeSort
      (fun a b c hab hbc => decide_eq_true ((of_decide_eq_true hab).trans (of_decide_eq_true hbc)))
      (fun a b => by simpa using le_total a b) l
  have hlen : k < (l.mergeSort (· ≤ ·)).length := by
    have hle : l.countP (· ≤ v) ≤ l.length := List.countP_le_length
    have := h.2
    rw [List.length_mergeSort]
    omega
  have hrank := (IsKth.of_sorted (hpair.imp of_decide_eq_true) hlen).perm (List.mergeSort_perm _ _)
  rw [List.getElem?_eq_getElem hlen, hrank.unique h]

end Rank

section Scans
variable {a : Nat → α} {p : α} {i j k fuel : Nat}

theorem scanUp_spec (hk : i ≤ k) (hfuel : k < i + fuel) (hp : p ≤ a k) :
    ∃ r, scanUp a p fuel i = some r ∧ i ≤ r ∧ r ≤ k ∧ p ≤ a r ∧ ∀ u, i ≤ u → u < r → a u < p := by
  induction fuel generalizing i with
  | zero => omega
  | succ fuel ih =>
    by_cases hlt : a i < p
    · have hne : i ≠ k := fun heq => absurd (heq ▸ hlt) (not_lt.mpr hp)
      obtain ⟨r, hr, hir, hrk, hpr, hbelow⟩ := ih (i := i + 1) (by omega) (by omega)
      refine ⟨r, by rw [scanUp, if_pos hlt, hr], by omega, hrk, hpr, fun u hiu hur => ?_⟩
      rcases Nat.eq_or_lt_of_le hiu with rfl | hiu
      · exact hlt
      · exact hbelow u hiu hur
    · exact ⟨i, by rw [scanUp, if_neg hlt], Nat.le_refl i, hk, not_lt.mp hlt, fun u _ _ => by omega⟩

theorem scanDown_spec (hk : k ≤ j) (hp : a k ≤ p) :
    ∃ r, scanDown a p j = some r ∧ k ≤ r ∧ r ≤ j ∧ a r ≤ p ∧ ∀ u, r < u → u ≤ j → p < a u := by
  induction j with
  | zero =>
    obtain rfl : k = 0 := by omega
    exact ⟨0, by rw [scanDown, if_neg (not_lt.mpr hp)], Nat.le_refl 0, Nat.le_refl 0, hp, fun u _ _ => by omega⟩
  | succ j ih =>
    by_cases hlt : p < a (j + 1)
    · have hne : k ≠ j + 1 := fun heq => absurd (heq ▸ hlt) (not_lt.mpr hp)
      obtain ⟨r, hr, hkr, hrj, hpr, habove⟩ := ih (by omega)
      refine ⟨r, by rw [scanDown, if_pos hlt, hr], hkr, by omega, hpr, fun u hru huj => ?_⟩
      rcases Nat.eq_or_lt_of_le huj with rfl | huj
      · exact hlt
      · exact habove u hru (by omega)
    · exact ⟨j + 1, by rw [scanDown, if_neg hlt], hk, Nat.le_refl _, not_lt.mp hlt, fun u _ _ => by omega⟩

end Scans

section Partition
variable {a : Nat → α} {p : α} {n l r i j fuel : Nat}

/-- The state of a partition of the positions from `l` to `r`: what is left of `i` is not above the pivot,
    what is right of `j` is not below it, a value on either side stops each scan, and the lower part will
    not be the whole. -/
structure Parting (l r : Nat) (p : α) (a : Nat → α) (i j : Nat) : Prop where
  left : l ≤ i
  right : j ≤ r
  near : i ≤ j + 1
  low : ∀ u, l ≤ u → u < i → a u ≤ p
  high : ∀ u, j < u → u ≤ r → p ≤ a u
  up : ∃ k, i ≤ k ∧ k ≤ r ∧ p ≤ a k
  down : ∃ k, l ≤ k ∧ k ≤ j ∧ a k ≤ p
  short : j < r ∨ ∃ k, i ≤ k ∧ k < r ∧ p ≤ a k

theorem Parting.init (hl : l < r) : Parting l r (a (l + (r - l) / 2)) a l r where
  left := Nat.le_refl l
  right := Nat.le_refl r
  near := by omega
  low := fun u _ _ => by omega
  high := fun u _ _ => by omega
  up := ⟨l + (r - l) / 2, by omega, by omega, le_refl _⟩
  down := ⟨l + (r - l) / 2, by omega, by omega, le_refl _⟩
  short := Or.inr ⟨l + (r - l) / 2, by omega, by omega, le_refl _⟩

/-- After the scans stopped at `i < j`, their values change places. -/
theorem Parting.swap (hi : l ≤ i) (hij : i < j) (hj : j ≤ r) (hlow : ∀ u, l ≤ u → u < i → a u ≤ p)
    (hhigh : ∀ u, j < u → u ≤ r → p ≤ a u) (hai : p ≤ a i) (haj : a j ≤ p) :
    Parting l r p (a ∘ Equiv.swap i j) (i + 1) (j - 1) := by
  have heq : ∀ u, u ≠ i → u ≠ j → (a ∘ Equiv.swap i j) u = a u := fun u h h' => by
    simp [Equiv.swap_apply_of_ne_of_ne h h']
  have hi' : (a ∘ Equiv.swap i j) i = a j := by simp
  have hj' : (a ∘ Equiv.swap i j) j = a i := by simp
  refine ⟨by omega, by omega, by omega, fun u hlu hu => ?_, fun u hju hur => ?_,
    ⟨j, by omega, hj, by rw [hj']; exact hai⟩, ⟨i, hi, by omega, by rw [hi']; exact haj⟩, Or.inl (by omega)⟩
  · rcases Nat.eq_or_lt_of_le (Nat.le_of_lt_succ hu) with rfl | hu
    · rw [hi']
      exact haj
    · rw [heq u (by omega) (by omega)]
      exact hlow u hlu hu
  · rcases Nat.eq_or_lt_of_le (show j ≤ u by omega) with rfl | hju
    · rw [hj']
      exact hai
    · rw [heq u (by omega) (by omega)]
      exact hhigh u hju hur

theorem partition_spec (hr : r < n) (hfuel : j + 1 < i + fuel) (h : Parting l r p a i j) :
    ∃ b d, partition n p fuel a i j = some (b, d) ∧ Shuffles l r a b ∧ l ≤ d ∧ d < r ∧
      (∀ u, l ≤ u → u ≤ d → b u ≤ p) ∧ ∀ u, d < u → u ≤ r → p ≤ b u := by
  induction fuel generalizing a i j with
  | zero =>
    have := h.near
    omega
  | succ fuel ih =>
    obtain ⟨ku, hiu, hur, hau⟩ := h.up
    obtain ⟨kd, hld, hdj, had⟩ := h.down
    have hscan : ku < i + n := by omega
    obtain ⟨i', hsu, hii, hiku, hai, hupto⟩ := scanUp_spec hiu hscan hau
    obtain ⟨j', hsd, hdj', hjj, haj, hdownto⟩ := scanDown_spec hdj had
    have hlow : ∀ u, l ≤ u → u < i' → a u ≤ p := fun u hlu hu =>
      if hui : u < i then h.low u hlu hui else (hupto u (by omega) hu).le
    have hhigh : ∀ u, j' < u → u ≤ r → p ≤ a u := fun u hju hur =>
      if huj : j < u then h.high u huj hur else (hdownto u hju (by omega)).le
    rw [partition, hsu, hsd, Option.bind_some, Option.bind_some]
    by_cases hmeet : j' ≤ i'
    · rw [if_pos hmeet]
      refine ⟨a, j', rfl, Shuffles.refl, by omega, ?_, fun u hlu hud => ?_, hhigh⟩
      · -- The lower part ends before `r`: either `j` already does, or the upward scan stopped before `r`.
        have hright := h.right
        rcases h.short with hlt | ⟨k, hik, hkr, hak⟩
        · omega
        · by_cases hki : k < i'
          · exact absurd (hupto k hik hki) (not_lt.mpr hak)
          · omega
      · rcases Nat.eq_or_lt_of_le hud with rfl | hud
        · exact haj
        · exact hlow u hlu (by omega)
    · rw [if_neg hmeet]
      have hleft := h.left
      have hright := h.right
      have hnext : Parting l r p (a ∘ Equiv.swap i' j') (i' + 1) (j' - 1) :=
        .swap (by omega) (by omega) (by omega) hlow hhigh hai haj
      obtain ⟨b, d, hb, hsh, hrest⟩ := ih (by omega) hnext
      exact ⟨b, d, hb, (Shuffles.swap ⟨by omega, by omega⟩ ⟨by omega, by omega⟩).trans hsh, hrest⟩

end Partition

section Select
variable {a b : Nat → α} {n kth fuel left right : Nat}

/-- The state of a selection: the positions from `left` to `right` hold the `kth`, what stands left of
    them is not above, and what stands right of them not below, what they hold. -/
structure Narrowed (n kth : Nat) (a : Nat → α) (left right : Nat) : Prop where
  lo : left ≤ kth
  hi : kth ≤ right
  lt : right < n
  below : ∀ u w, u < left → left ≤ w → w ≤ right → a u ≤ a w
  above : ∀ u w, left ≤ u → u ≤ right → right < w → w < n → a u ≤ a w

theorem Narrowed.init (hk : kth < n) : Narrowed n kth a 0 (n - 1) :=
  ⟨Nat.zero_le _, by omega, by omega, fun _ _ _ => by omega, fun _ _ _ _ _ => by omega⟩

variable {p : α} {d : Nat}

/-- The lower part of a partition, when it holds the `kth`. -/
theorem Narrowed.lower (h : Narrowed n kth a left right) (hsh : Shuffles left right a b) (hd : d < right)
    (hlow : ∀ u, left ≤ u → u ≤ d → b u ≤ p) (hhigh : ∀ u, d < u → u ≤ right → p ≤ b u) (hk : kth ≤ d) :
    Narrowed n kth b left d := by
  refine ⟨h.lo, hk, by have := h.lt; omega, fun u w hu hlw hwd => ?_, fun u w hlu hud hdw hwn => ?_⟩
  · obtain ⟨w', ⟨hl, hr⟩, hw⟩ := hsh.source (u := w) ⟨hlw, by omega⟩
    rw [hsh.frame (u := u) (by omega), hw]
    exact h.below u w' hu hl hr
  · by_cases hwr : w ≤ right
    · exact (hlow u hlu hud).trans (hhigh w hdw hwr)
    · obtain ⟨u', ⟨hl, hr⟩, hu⟩ := hsh.source (u := u) ⟨hlu, by omega⟩
      rw [hsh.frame (u := w) (by omega), hu]
      exact h.above u' w hl hr (by omega) hwn

/-- The upper part, when the lower does not. -/
theorem Narrowed.upper (h : Narrowed n kth a left right) (hsh : Shuffles left right a b) (hd : left ≤ d)
    (hlow : ∀ u, left ≤ u → u ≤ d → b u ≤ p) (hhigh : ∀ u, d < u → u ≤ right → p ≤ b u) (hk : d < kth) :
    Narrowed n kth b (d + 1) right := by
  refine ⟨hk, h.hi, h.lt, fun u w hu hlw hwr => ?_, fun u w hlu hur hrw hwn => ?_⟩
  · by_cases hlu : left ≤ u
    · exact (hlow u hlu (by omega)).trans (hhigh w hlw hwr)
    · obtain ⟨w', ⟨hl, hr⟩, hw⟩ := hsh.source (u := w) ⟨by omega, hwr⟩
      rw [hsh.frame (u := u) (by omega), hw]
      exact h.below u w' (by omega) hl hr
  · obtain ⟨u', ⟨hl, hr⟩, hu⟩ := hsh.source (u := u) ⟨by omega, hur⟩
    rw [hsh.frame (u := w) (by omega), hu]
    exact h.above u' w hl hr hrw hwn

/-- A single position left holds the value of its rank. -/
theorem Narrowed.isKth (h : Narrowed n kth a kth kth) : IsKth ((List.range n).map a) kth (a kth) := by
  have hn := h.lt
  have hcount : ∀ m, m ≤ n → (List.range n).countP (· < m) = m := by
    intro m hm
    obtain ⟨d, rfl⟩ := Nat.exists_eq_add_of_le hm
    rw [List.range_add, List.countP_append, List.countP_eq_length.mpr, List.countP_eq_zero.mpr]
    · simp
    · simp
    · simp
  constructor
  · rw [List.countP_map]
    refine (List.countP_mono_left fun u hu hlt => ?_).trans (hcount kth hn.le).le
    have hun := List.mem_range.mp hu
    have hlt : a u < a kth := of_decide_eq_true hlt
    refine decide_eq_true (Nat.lt_of_not_le fun hku => ?_)
    rcases Nat.eq_or_lt_of_le hku with rfl | hku
    · exact lt_irrefl _ hlt
    · exact absurd hlt (not_lt.mpr (h.above kth u (Nat.le_refl _) (Nat.le_refl _) hku hun))
  · rw [List.countP_map]
    refine Nat.lt_of_lt_of_le ?_ (List.countP_mono_left (p := (· < kth + 1)) fun u _ hu => ?_)
    · exact Nat.lt_of_lt_of_eq (Nat.lt_succ_self kth) (hcount (kth + 1) hn).symm
    · have hu : u < kth + 1 := of_decide_eq_true hu
      refine decide_eq_true ?_
      rcases Nat.eq_or_lt_of_le (Nat.le_of_lt_succ hu) with rfl | hu
      · exact le_refl _
      · exact h.below u kth hu (Nat.le_refl _) (Nat.le_refl _)

theorem selectIn_spec (hfuel : right - left < fuel) (h : Narrowed n kth a left right) :
    ∃ v, selectIn n kth fuel a left right = some v ∧ IsKth ((List.range n).map a) kth v := by
  induction fuel generalizing a left right with
  | zero => omega
  | succ fuel ih =>
    have hlo := h.lo
    have hhi := h.hi
    have hlt := h.lt
    by_cases heq : left = right
    · obtain ⟨rfl, rfl⟩ : left = kth ∧ right = left := ⟨by omega, heq.symm⟩
      exact ⟨a right, by rw [selectIn, if_pos rfl], h.isKth⟩
    · have hparts : right + 1 < left + (n + 1) := by omega
      obtain ⟨b, d, hb, hsh, hld, hdr, hlow, hhigh⟩ :=
        partition_spec hlt hparts (Parting.init (a := a) (by omega))
      have hperm := (hsh.wider (Nat.zero_le left) (show right ≤ n - 1 by omega)).perm (by omega)
      rw [selectIn, if_neg heq, hb, Option.bind_some]
      by_cases hk : kth ≤ d
      · obtain ⟨v, hv, hkth⟩ := ih (by omega) (h.lower hsh hdr hlow hhigh hk)
        exact ⟨v, by rw [← hv]; exact if_pos hk, hkth.perm hperm⟩
      · obtain ⟨v, hv, hkth⟩ := ih (by omega) (h.upper hsh hld hlow hhigh (by omega))
        exact ⟨v, by rw [← hv]; exact if_neg hk, hkth.perm hperm⟩

variable (n kth) in
/-- The selection ends, with the value of rank `kth`. -/
theorem select_spec (a : Nat → α) (hk : kth < n) :
    ∃ v, select a n kth = some v ∧ IsKth ((List.range n).map a) kth v :=
  selectIn_spec (by omega) (.init hk)

end Select
end Quickselect
