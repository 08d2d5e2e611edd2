import Mathlib

/-! Files of frames that follow one another, with records that are numbered one after the other.

`Chain` is a text made of such frames, `Longest` the longest one that a file starts with. Nothing is said
about what follows it: a file may end in anything. -/

namespace Frames
variable {β ρ : Type*}

/-- A format of frames. A text starts with at most one frame, which holds one record. -/
structure Format (β ρ : Type*) where
  /-- The bytes are a frame of the record. -/
  Frame : List β → ρ → Prop
  /-- The number of a record. -/
  num : ρ → Nat
  nonempty : ∀ {b r}, Frame b r → b ≠ []
  unique : ∀ {b b' x y r r'}, Frame b r → Frame b' r' → b ++ x = b' ++ y → b = b' ∧ r = r'

variable {F : Format β ρ} {n : Nat} {l m p q x : List β} {rs ss : List ρ}

/-- A text of frames whose records are numbered from `n` on. -/
inductive Chain (F : Format β ρ) : Nat → List ρ → List β → Prop
  | nil {n : Nat} : Chain F n [] []
  | cons {n : Nat} {b : List β} {r : ρ} {rs : List ρ} {p : List β} :
      F.Frame b r → F.num r = n → Chain F (n + 1) rs p → Chain F n (r :: rs) (b ++ p)

theorem Chain.append (h : Chain F n rs p) (h' : Chain F (n + rs.length) ss q) : Chain F n (rs ++ ss) (p ++ q) := by
  induction h with
  | nil => simpa using h'
  | cons hb hn _ ih =>
    rw [List.cons_append, List.append_assoc]
    refine .cons hb hn (ih ?_)
    rw [List.length_cons] at h'
    rwa [Nat.add_assoc, Nat.add_comm 1]

theorem Chain.one {b : List β} {r : ρ} (hb : F.Frame b r) (hn : F.num r = n) : Chain F n [r] b := by
  simpa using Chain.cons hb hn .nil

/-- Where no frame with the next number follows, no such text goes on. -/
theorem Chain.length_le (h : Chain F n rs p) (hno : ∀ b r, F.Frame b r → F.num r = n + rs.length → ¬ b <+: x)
    (h' : Chain F n ss q) (hq : q <+: p ++ x) : q.length ≤ p.length := by
  induction h generalizing ss q with
  | nil =>
    cases h' with
    | nil => exact le_rfl
    | cons hb hr _ => exact absurd ((List.prefix_append _ _).trans hq) (hno _ _ hb hr)
  | @cons n b r rs p hb hn _ ih =>
    cases h' with
    | nil => exact Nat.zero_le _
    | @cons _ b' r' ss q hb' _ hss =>
      obtain ⟨y, hy⟩ := hq
      rw [List.append_assoc, List.append_assoc] at hy
      obtain ⟨rfl, rfl⟩ := F.unique hb' hb hy
      have := ih (by simpa [Nat.add_assoc, Nat.add_comm 1] using hno) hss ⟨y, List.append_cancel_left hy⟩
      rw [List.length_append, List.length_append]
      omega

/-- A text of frames tells its records. -/
theorem Chain.records_eq (h : Chain F n rs p) (h' : Chain F n ss p) : rs = ss := by
  induction h generalizing ss with
  | nil =>
    generalize hp : ([] : List β) = p at h'
    cases h' with
    | nil => rfl
    | cons hb _ _ => exact absurd (List.append_eq_nil_iff.mp hp.symm).1 (F.nonempty hb)
  | @cons n b r rs p hb hn _ ih =>
    generalize hp : b ++ p = t at h'
    cases h' with
    | nil => exact absurd (List.append_eq_nil_iff.mp hp).1 (F.nonempty hb)
    | @cons _ b' r' ss q hb' _ hss =>
      obtain ⟨rfl, rfl⟩ := F.unique hb hb' hp
      cases List.append_cancel_left hp
      rw [ih hss]

/-- The longest text of frames numbered from `n` on that `l` starts with, and its records. -/
def Longest (F : Format β ρ) (n : Nat) (l : List β) (rs : List ρ) (p : List β) : Prop :=
  Chain F n rs p ∧ p <+: l ∧ ∀ ss q, Chain F n ss q → q <+: l → q.length ≤ p.length

/-- It is the longest when no frame with the next number follows. -/
theorem longest_iff :
    Longest F n l rs p ↔
      Chain F n rs p ∧ ∃ x, l = p ++ x ∧ ∀ b r, F.Frame b r → F.num r = n + rs.length → ¬ b <+: x := by
  constructor
  · rintro ⟨hc, ⟨x, rfl⟩, hmax⟩
    refine ⟨hc, x, rfl, fun b r hb hr hbx => ?_⟩
    have hle := hmax _ _ (hc.append (Chain.one hb hr)) ((List.prefix_append_right_inj p).mpr hbx)
    have := List.length_pos_iff.mpr (F.nonempty hb)
    rw [List.length_append] at hle
    omega
  · rintro ⟨hc, x, rfl, hno⟩
    exact ⟨hc, List.prefix_append _ _, fun ss q hq hql => hc.length_le hno hq hql⟩

theorem Longest.unique (h : Longest F n l rs p) (h' : Longest F n l ss q) : rs = ss ∧ p = q := by
  obtain ⟨hc, hp, hmax⟩ := h
  obtain ⟨hc', hq, hmax'⟩ := h'
  have hlen : p.length = q.length := le_antisymm (hmax' _ _ hc hp) (hmax _ _ hc' hq)
  have hpq : p = q := (List.prefix_of_prefix_length_le hp hq hlen.le).eq_of_length hlen
  subst hpq
  exact ⟨hc.records_eq hc', rfl⟩

/-- Every file starts with one. -/
theorem exists_longest (F : Format β ρ) (n : Nat) (l : List β) : ∃ rs p, Longest F n l rs p := by
  induction hl : l.length using Nat.strong_induction_on generalizing n l with
  | _ k ih =>
    by_cases hex : ∃ b r, F.Frame b r ∧ F.num r = n ∧ b <+: l
    · obtain ⟨b, r, hb, hr, x, rfl⟩ := hex
      have hlt : x.length < k := by
        have := List.length_pos_iff.mpr (F.nonempty hb)
        rw [List.length_append] at hl
        omega
      obtain ⟨rs, p, hlong⟩ := ih x.length hlt (n + 1) x rfl
      obtain ⟨hc, y, rfl, hno⟩ := longest_iff.mp hlong
      refine ⟨r :: rs, b ++ p, longest_iff.mpr ⟨.cons hb hr hc, y, (List.append_assoc _ _ _).symm, ?_⟩⟩
      simpa [Nat.add_assoc, Nat.add_comm 1] using hno
    · push Not at hex
      exact ⟨[], [], longest_iff.mpr ⟨.nil, l, rfl, hex⟩⟩

end Frames
