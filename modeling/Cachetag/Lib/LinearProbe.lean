import Mathlib

/-! Open addressing with linear probing over a power-of-two array of slots.

The array is given by its length `n` and a reader `get`. `walk` is the probe loop: it visits the slots
one by one from a start, wrapping behind the last, until `visit` decides. `PathTo` is the property of a
slot that makes a probe from its home find it: no empty slot lies between the two. -/

namespace LinearProbe

variable {α β σ : Type*}

/-- The slot `d` places behind slot `h`. -/
def cyc (n h d : Nat) : Nat := (h + d) &&& (n - 1)

/-- The probe loop. `visit` sees an accumulator, a position and its slot, and either goes on with a new
    accumulator or decides. `none` after `fuel` slots without a decision. -/
def walk (get : Nat → α) (n : Nat) (visit : σ → Nat → α → σ ⊕ β) : Nat → Nat → σ → Option β
  | 0, _, _ => none
  | fuel + 1, pos, acc =>
    match visit acc pos (get pos) with
    | .inr b => some b
    | .inl acc' => walk get n visit fuel ((pos + 1) &&& (n - 1)) acc'

/-- A length that is a power of two. -/
def PowTwo (n : Nat) : Prop := ∃ k, n = 2 ^ k

theorem PowTwo.pos {n : Nat} (h : PowTwo n) : 0 < n := by
  obtain ⟨k, rfl⟩ := h
  exact Nat.two_pow_pos k

theorem PowTwo.double {n : Nat} (h : PowTwo n) : PowTwo (n * 2) := by
  obtain ⟨k, rfl⟩ := h
  exact ⟨k + 1, (pow_succ 2 k).symm⟩

theorem PowTwo.double_le {m n : Nat} (hm : PowTwo m) (hn : PowTwo n) (h : m < n) : m * 2 ≤ n := by
  obtain ⟨j, rfl⟩ := hm
  obtain ⟨k, rfl⟩ := hn
  rw [← Nat.pow_succ]
  exact Nat.pow_le_pow_right (by decide) ((Nat.pow_lt_pow_iff_right (by decide)).mp h)

section Positions
variable {n h d e i p : Nat}

theorem and_mask (hn : PowTwo n) (x : Nat) : x &&& (n - 1) = x % n := by
  obtain ⟨k, rfl⟩ := hn
  exact Nat.and_two_pow_sub_one_eq_mod x k

theorem cyc_lt (hn : PowTwo n) : cyc n h d < n := by
  rw [cyc, and_mask hn]
  exact Nat.mod_lt _ hn.pos

theorem cyc_zero (hn : PowTwo n) (hh : h < n) : cyc n h 0 = h := by
  rw [cyc, and_mask hn, Nat.add_zero, Nat.mod_eq_of_lt hh]

theorem cyc_succ (hn : PowTwo n) : cyc n ((h + 1) &&& (n - 1)) d = cyc n h (d + 1) := by
  rw [cyc, cyc, and_mask hn, and_mask hn, and_mask hn, Nat.mod_add_mod]
  congr 1
  omega

/-- Every slot is met within `n` places of any start. -/
theorem exists_cyc (hn : PowTwo n) (hh : h < n) (hp : p < n) : ∃ d < n, cyc n h d = p := by
  by_cases hle : h ≤ p
  · refine ⟨p - h, by omega, ?_⟩
    rw [cyc, and_mask hn, show h + (p - h) = p by omega, Nat.mod_eq_of_lt hp]
  · refine ⟨n + p - h, by omega, ?_⟩
    rw [cyc, and_mask hn, show h + (n + p - h) = p + n by omega, Nat.add_mod_right, Nat.mod_eq_of_lt hp]

end Positions

section Walk
variable {get : Nat → α} {n : Nat} {visit : σ → Nat → α → σ ⊕ β} {fuel pos : Nat} {acc : σ}

/-- A walk that goes on for `d` slots and decides at the next returns that decision. -/
theorem walk_eq (hn : PowTwo n) {d : Nat} {b : β} (hp : pos < n) (hd : d < fuel) (accs : Nat → σ)
    (go : ∀ i < d, visit (accs i) (cyc n pos i) (get (cyc n pos i)) = .inl (accs (i + 1)))
    (stop : visit (accs d) (cyc n pos d) (get (cyc n pos d)) = .inr b) :
    walk get n visit fuel pos (accs 0) = some b := by
  induction d generalizing fuel pos accs with
  | zero =>
    obtain ⟨fuel, rfl⟩ : ∃ k, fuel = k + 1 := ⟨fuel - 1, by omega⟩
    rw [cyc_zero hn hp] at stop
    simp only [walk, stop]
  | succ d ih =>
    obtain ⟨fuel, rfl⟩ : ∃ k, fuel = k + 1 := ⟨fuel - 1, by omega⟩
    have first := go 0 (by omega)
    rw [cyc_zero hn hp] at first
    have hp' : (pos + 1) &&& (n - 1) < n := cyc_lt (h := pos) (d := 1) hn
    simp only [walk, first]
    refine ih hp' (by omega) (fun i => accs (i + 1)) (fun i hi => ?_) ?_
    · rw [cyc_succ hn]
      exact go (i + 1) (by omega)
    · rw [cyc_succ hn]
      exact stop

/-- What the accumulator keeps from slot to slot, the decision may rely on. -/
theorem walk_inv (hn : PowTwo n) {P : σ → Prop} {Q : β → Prop} (hp : pos < n) (hacc : P acc)
    (go : ∀ acc p acc', P acc → p < n → visit acc p (get p) = .inl acc' → P acc')
    (stop : ∀ acc p b, P acc → p < n → visit acc p (get p) = .inr b → Q b) {b : β}
    (h : walk get n visit fuel pos acc = some b) : Q b := by
  induction fuel generalizing pos acc with
  | zero => cases h
  | succ fuel ih =>
    unfold walk at h
    cases hv : visit acc pos (get pos) with
    | inr b' =>
      rw [hv] at h
      cases h
      exact stop acc pos b hacc hp hv
    | inl acc' =>
      rw [hv] at h
      exact ih (cyc_lt (h := pos) (d := 1) hn) (go acc pos acc' hacc hp hv) h

/-- A walk that returns a decision made it at one of the slots. -/
theorem exists_of_walk (hn : PowTwo n) {b : β} (hp : pos < n) (h : walk get n visit fuel pos acc = some b) :
    ∃ acc' p, p < n ∧ visit acc' p (get p) = .inr b :=
  walk_inv hn (P := fun _ => True) (Q := fun b => ∃ acc' p, p < n ∧ visit acc' p (get p) = .inr b) hp trivial
    (fun _ _ _ _ _ _ => trivial) (fun acc' p _ _ hp hv => ⟨acc', p, hp, hv⟩) h

/-- The accumulator of a walk when it comes to its slot number `i`. -/
def accAt (get : Nat → α) (n : Nat) (visit : σ → Nat → α → σ ⊕ β) (pos : Nat) (acc : σ) : Nat → σ
  | 0 => acc
  | i + 1 =>
    match visit (accAt get n visit pos acc i) (cyc n pos i) (get (cyc n pos i)) with
    | .inl acc' => acc'
    | .inr _ => accAt get n visit pos acc i

/-- `visit` decides at exactly the slots that satisfy `stop`, whatever its accumulator is. -/
def StopsOn (visit : σ → Nat → α → σ ⊕ β) (stop : Nat → α → Prop) : Prop :=
  ∀ acc p a, (visit acc p a).isRight = true ↔ stop p a

/-- A walk over an array that holds a deciding slot ends at the first one on its way. -/
theorem walk_first (hn : PowTwo n) {stop : Nat → α → Prop} (hstop : StopsOn visit stop) (hp : pos < n)
    {d : Nat} (hd : d < n) (hdec : stop (cyc n pos d) (get (cyc n pos d))) :
    ∃ d' ≤ d, (∀ i < d', ¬stop (cyc n pos i) (get (cyc n pos i))) ∧
      stop (cyc n pos d') (get (cyc n pos d')) ∧
      ∃ b, visit (accAt get n visit pos acc d') (cyc n pos d') (get (cyc n pos d')) = .inr b ∧
        walk get n visit n pos acc = some b := by
  classical
  have hex : ∃ d, stop (cyc n pos d) (get (cyc n pos d)) := ⟨d, hdec⟩
  have hle : Nat.find hex ≤ d := Nat.find_le hdec
  have hbefore : ∀ i < Nat.find hex, ¬stop (cyc n pos i) (get (cyc n pos i)) := fun i hi => Nat.find_min hex hi
  have hat := Nat.find_spec hex
  refine ⟨Nat.find hex, hle, hbefore, hat, ?_⟩
  obtain ⟨b, hb⟩ := Sum.isRight_iff.mp ((hstop (accAt get n visit pos acc (Nat.find hex)) _ _).mpr hat)
  refine ⟨b, hb, walk_eq hn hp (by omega) (accAt get n visit pos acc) (fun i hi => ?_) hb⟩
  cases hv : visit (accAt get n visit pos acc i) (cyc n pos i) (get (cyc n pos i)) with
  | inl acc' => simp only [accAt, hv]
  | inr b' =>
    exact absurd ((hstop _ _ _).mp (by rw [hv]; rfl)) (hbefore i hi)

end Walk

section Paths
variable {get : Nat → α} {empty : α → Prop} {n h p q : Nat}

/-- A probe from home `h` comes to slot `p` without meeting an empty slot before it. -/
def PathTo (get : Nat → α) (empty : α → Prop) (n h p : Nat) : Prop :=
  ∃ d < n, cyc n h d = p ∧ ∀ i < d, ¬empty (get (cyc n h i))

/-- A slot that becomes occupied, or stays so, blocks no path. -/
theorem PathTo.of_nonempty (get' : Nat → α) (hp : PathTo get empty n h p)
    (keep : ∀ q, ¬empty (get q) → ¬empty (get' q)) : PathTo get' empty n h p := by
  obtain ⟨d, hd, rfl, hbefore⟩ := hp
  exact ⟨d, hd, rfl, fun i hi => keep _ (hbefore i hi)⟩

/-- The way a probe took before it stopped, up to any of the slots it met. -/
theorem PathTo.of_walk {d e : Nat} (hd : d < n) (he : e ≤ d) (hbefore : ∀ i < d, ¬empty (get (cyc n h i))) :
    PathTo get empty n h (cyc n h e) :=
  ⟨e, by omega, rfl, fun i hi => hbefore i (by omega)⟩

/-- A probe that stops at empty slots and at `p` alone stops at `p`, when a path leads there. -/
theorem PathTo.stops_at (hp : PathTo get empty n h p) {stop : Nat → α → Prop} {d : Nat}
    (hstop : ∀ q, stop q (get q) → empty (get q) ∨ q = p)
    (hbefore : ∀ i < d, ¬stop (cyc n h i) (get (cyc n h i))) (hat : stop (cyc n h d) (get (cyc n h d)))
    (hpstop : stop p (get p)) : cyc n h d = p := by
  obtain ⟨e, he, rfl, hpath⟩ := hp
  rcases Nat.lt_trichotomy d e with hlt | rfl | hlt
  · rcases hstop _ hat with hempty | heq
    · exact absurd hempty (hpath d hlt)
    · exact heq
  · rfl
  · exact absurd hpstop (hbefore e hlt)

end Paths
end LinearProbe
