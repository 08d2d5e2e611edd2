import Mathlib

/-! Numerals as C prints and reads them: `%u`, `%0*u` and `%0*x`, `strtoull` and the conversion that `sscanf`
does by it. -/

namespace Numeral

/-- `UINT64_MAX` -/
def u64Max : Nat := 2 ^ 64 - 1

/-- The character of a digit, in lower case. -/
def digit (d : Nat) : UInt8 := UInt8.ofNat (if d < 10 then 48 + d else 87 + d)

/-- The value of a character as a digit. -/
def digitVal (b : Nat) (c : UInt8) : Option Nat :=
  let d := c.toNat
  let v := if 48 ≤ d ∧ d ≤ 57 then d - 48 else if 97 ≤ d ∧ d ≤ 122 then d - 87 else if 65 ≤ d ∧ d ≤ 90 then d - 55 else b
  if v < b then some v else none

/-- `isspace` of the C locale. -/
def isspace (c : UInt8) : Bool := c = 32 || 9 ≤ c && c ≤ 13

/-- A number without padding. -/
def print (b n : Nat) : List UInt8 := if n = 0 then [48] else (Nat.digits b n).reverse.map digit

/-- A number padded with zeros to a width. -/
def pad (w b n : Nat) : List UInt8 := List.replicate (w - (print b n).length) 48 ++ print b n

/-- Reads digits as far as they go. -/
def readDigits (b : Nat) (v : Nat) : List UInt8 → Nat × List UInt8
  | [] => (v, [])
  | c :: s =>
    match digitVal b c with
    | some d => readDigits b (v * b + d) s
    | none => (v, c :: s)

/-- Skips the sign, if there is one, and tells whether it is a minus. -/
def readSign : List UInt8 → Bool × List UInt8
  | 45 :: s => (true, s)
  | 43 :: s => (false, s)
  | s => (false, s)

/-- Skips `0x` where a hexadecimal digit follows it. -/
def skipPrefix (b : Nat) : List UInt8 → List UInt8
  | 48 :: x :: c :: s => if b = 16 ∧ (x = 120 ∨ x = 88) ∧ (digitVal 16 c).isSome then c :: s else 48 :: x :: c :: s
  | s => s

/-- `strtoull`: the value, and the text that is left. Without a digit there is none. -/
def strtoull? (b : Nat) (s : List UInt8) : Option (Nat × List UInt8) :=
  let (neg, t) := readSign (s.dropWhile isspace)
  let t := skipPrefix b t
  if (t.head?.bind (digitVal b)).isNone then none
  else
    let (v, rest) := readDigits b 0 t
    some (if u64Max < v then u64Max else if neg then (2 ^ 64 - v) % 2 ^ 64 else v, rest)

/-- `strtoull`, which returns 0 and leaves the text alone where there is no number. -/
def strtoull (b : Nat) (s : List UInt8) : Nat × List UInt8 := (strtoull? b s).getD (0, s)

section
variable {b n w : Nat} {rest : List UInt8}

theorem digitVal_digit {d : Nat} (hb : b ≤ 16) (hd : d < b) : digitVal b (digit d) = some d := by
  have h16 : d < 16 := lt_of_lt_of_le hd hb
  have key : ∀ d < 16, (digit d).toNat = if d < 10 then 48 + d else 87 + d := by decide
  unfold digitVal
  simp only [key d h16]
  by_cases h10 : d < 10
  · simp only [h10, if_true]
    rw [if_pos (show 48 ≤ 48 + d ∧ 48 + d ≤ 57 by omega), Nat.add_sub_cancel_left, if_pos hd]
  · simp only [h10, if_false]
    rw [if_neg (show ¬(48 ≤ 87 + d ∧ 87 + d ≤ 57) by omega), if_pos (show 97 ≤ 87 + d ∧ 87 + d ≤ 122 by omega),
      Nat.add_sub_cancel_left, if_pos hd]

/-- The digits of a number, the highest first. -/
theorem digits_value : (Nat.digits b n).reverse.foldl (fun v d => v * b + d) 0 = n := by
  rw [List.foldl_reverse]
  conv_rhs => rw [← Nat.ofDigits_digits b n, Nat.ofDigits_eq_foldr]
  congr 1
  funext d v
  rw [Nat.cast_id]
  ring

theorem readDigits_map {ds : List Nat} {v : Nat} (hb : b ≤ 16) (hds : ∀ d ∈ ds, d < b)
    (hrest : rest.head?.bind (digitVal b) = none) :
    readDigits b v (ds.map digit ++ rest) = (ds.foldl (fun v d => v * b + d) v, rest) := by
  induction ds generalizing v with
  | nil =>
    cases rest with
    | nil => rfl
    | cons c s =>
      rw [List.head?_cons, Option.bind_some] at hrest
      rw [List.map_nil, List.nil_append, readDigits, hrest]
      rfl
  | cons d ds ih =>
    obtain ⟨hd, hds⟩ := List.forall_mem_cons.mp hds
    rw [List.map_cons, List.cons_append, readDigits, digitVal_digit hb hd]
    exact ih hds

/-- A printed number is digits that have its value. -/
theorem print_digits (hb : 1 < b) : ∃ ds, print b n = ds.map digit ∧ ds ≠ [] ∧ (∀ d ∈ ds, d < b) ∧
    ds.foldl (fun v d => v * b + d) 0 = n := by
  by_cases hn : n = 0
  · subst hn
    exact ⟨[0], rfl, List.cons_ne_nil _ _, by simp; omega, by simp⟩
  · refine ⟨(Nat.digits b n).reverse, if_neg hn, ?_, ?_, digits_value⟩
    · simpa [Nat.digits_eq_nil_iff_eq_zero] using hn
    · intro d hd
      exact Nat.digits_lt_base hb (List.mem_reverse.mp hd)

theorem pad_digits (hb : 1 < b) : ∃ ds, pad w b n = ds.map digit ∧ ds ≠ [] ∧ (∀ d ∈ ds, d < b) ∧
    ds.foldl (fun v d => v * b + d) 0 = n := by
  obtain ⟨ds, hprint, hne, hlt, hval⟩ := print_digits (n := n) hb
  refine ⟨List.replicate (w - (print b n).length) 0 ++ ds, ?_, ?_, ?_, ?_⟩
  · rw [pad, hprint, List.map_append, List.map_replicate]
    rfl
  · simp [hne]
  · intro d hd
    rcases List.mem_append.mp hd with hd | hd
    · rw [(List.mem_replicate.mp hd).2]
      omega
    · exact hlt d hd
  · rw [List.foldl_append]
    have : ∀ k, (List.replicate k 0).foldl (fun v d => v * b + d) 0 = 0 := by
      intro k
      induction k with
      | zero => rfl
      | succ k ih => rw [List.replicate_succ, List.foldl_cons, Nat.zero_mul, ih]
    rw [this, hval]

theorem digit_chars {d : Nat} (hd : d < 16) :
    isspace (digit d) = false ∧ digit d ≠ 45 ∧ digit d ≠ 43 ∧ digit d ≠ 120 ∧ digit d ≠ 88 := by
  revert d
  decide

theorem readSign_digit {c : UInt8} {s : List UInt8} (h1 : c ≠ 45) (h2 : c ≠ 43) : readSign (c :: s) = (false, c :: s) := by
  unfold readSign
  split <;> simp_all

theorem skipPrefix_eq {c : UInt8} {s : List UInt8} (h : ∀ x ∈ s.head?, x ≠ 120 ∧ x ≠ 88) :
    skipPrefix b (c :: s) = c :: s := by
  unfold skipPrefix
  split
  · rename_i x e t heq
    cases heq
    obtain ⟨h1, h2⟩ := h x rfl
    rw [if_neg (by tauto)]
  · rfl

/-- A printed number that nothing alphanumeric follows is read back. -/
theorem strtoull?_pad (hb : 1 < b) (h16 : b ≤ 16) (hn : n ≤ u64Max) (hrest : rest.head?.bind (digitVal 36) = none) :
    strtoull? b (pad w b n ++ rest) = some (n, rest) := by
  obtain ⟨ds, hpad, hne, hlt, hval⟩ := pad_digits (w := w) (n := n) hb
  obtain ⟨d, ds, rfl⟩ := List.exists_cons_of_ne_nil hne
  have hdb := hlt d List.mem_cons_self
  obtain ⟨hspace, h45, h43, -, -⟩ := digit_chars (lt_of_lt_of_le hdb h16)
  have hsecond : ∀ x ∈ (ds.map digit ++ rest).head?, x ≠ 120 ∧ x ≠ 88 := by
    intro x hx
    cases ds with
    | nil =>
      rw [List.map_nil, List.nil_append] at hx
      rw [Option.mem_def.mp hx, Option.bind_some] at hrest
      constructor <;> rintro rfl <;> exact absurd hrest (by decide)
    | cons e ds =>
      cases hx
      have he := hlt e (List.mem_cons_of_mem _ List.mem_cons_self)
      exact (digit_chars (lt_of_lt_of_le he h16)).2.2.2
  have hrest' : rest.head?.bind (digitVal b) = none := by
    cases rest with
    | nil => rfl
    | cons c s =>
      rw [List.head?_cons, Option.bind_some] at hrest ⊢
      unfold digitVal at hrest ⊢
      dsimp only at hrest ⊢
      split_ifs at hrest ⊢ <;> first | rfl | omega
  unfold strtoull?
  rw [hpad, List.map_cons, List.cons_append, List.dropWhile_cons_of_neg (by simp [hspace]), readSign_digit h45 h43]
  dsimp only
  rw [skipPrefix_eq hsecond, List.head?_cons, Option.bind_some, digitVal_digit h16 hdb, if_neg (by simp),
    ← List.cons_append, ← List.map_cons, readDigits_map h16 hlt hrest', hval]
  dsimp only
  rw [if_neg (by omega)]
  rfl

theorem strtoull_pad (hb : 1 < b) (h16 : b ≤ 16) (hn : n ≤ u64Max) (hrest : rest.head?.bind (digitVal 36) = none) :
    strtoull b (pad w b n ++ rest) = (n, rest) := by
  rw [strtoull, strtoull?_pad hb h16 hn hrest, Option.getD_some]

/-- Every character of a printed number is a digit. -/
theorem mem_pad {c : UInt8} (hb : 1 < b) (h16 : b ≤ 16) (hc : c ∈ pad w b n) : (digitVal 16 c).isSome := by
  obtain ⟨ds, hpad, -, hlt, -⟩ := pad_digits (w := w) (n := n) hb
  rw [hpad] at hc
  obtain ⟨d, hd, rfl⟩ := List.mem_map.mp hc
  rw [digitVal_digit le_rfl (lt_of_lt_of_le (hlt d hd) h16)]
  rfl

theorem length_print_le (hb : 1 < b) (hw : 0 < w) (hn : n < b ^ w) : (print b n).length ≤ w := by
  unfold print
  split
  · exact hw
  · rename_i h0
    rw [List.length_map, List.length_reverse]
    exact (Nat.digits_length_le_iff hb n).mpr hn

/-- The padding fixes the length of every number that fits. -/
theorem length_pad (hb : 1 < b) (hw : 0 < w) (hn : n < b ^ w) : (pad w b n).length = w := by
  have := length_print_le hb hw hn
  rw [pad, List.length_append, List.length_replicate]
  omega

theorem pad_zero : pad 0 b n = print b n := by
  rw [pad, Nat.zero_sub]
  rfl

end
end Numeral
