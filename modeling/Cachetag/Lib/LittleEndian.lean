import Mathlib

/-! Numbers as little-endian bytes of a fixed width. -/

namespace LittleEndian

/-- The `w` low bytes of a number, the lowest first. -/
def enc : Nat → Nat → List UInt8
  | 0, _ => []
  | w + 1, n => UInt8.ofNat n :: enc w (n / 256)

/-- The number that bytes stand for. -/
def dec (l : List UInt8) : Nat := Nat.ofDigits 256 (l.map UInt8.toNat)

section
variable {w n m : Nat} {l : List UInt8}

@[simp] theorem length_enc : (enc w n).length = w := by
  induction w generalizing n with
  | zero => rfl
  | succ w ih => rw [enc, List.length_cons, ih]

theorem dec_cons (b : UInt8) : dec (b :: l) = b.toNat + 256 * dec l := by
  rw [dec, List.map_cons, Nat.ofDigits_cons]
  rfl

theorem dec_lt : dec l < 256 ^ l.length := by
  rw [dec, ← List.length_map UInt8.toNat]
  refine Nat.ofDigits_lt_base_pow_length (by norm_num) fun x hx => ?_
  obtain ⟨b, -, rfl⟩ := List.mem_map.mp hx
  exact b.toNat_lt

/-- A number that fits is read back. -/
theorem dec_enc (h : n < 256 ^ w) : dec (enc w n) = n := by
  induction w generalizing n with
  | zero =>
    obtain rfl : n = 0 := by simpa using h
    rfl
  | succ w ih =>
    have hdiv : n / 256 < 256 ^ w := Nat.div_lt_of_lt_mul (by rw [pow_succ'] at h; exact h)
    rw [enc, dec_cons, ih hdiv, UInt8.toNat_ofNat']
    omega

/-- Bytes are read and written back. -/
theorem enc_dec : enc l.length (dec l) = l := by
  induction l with
  | nil => rfl
  | cons b l ih =>
    have hb := b.toNat_lt
    have hdiv : (b.toNat + 256 * dec l) / 256 = dec l := by omega
    have hlow : UInt8.ofNat (b.toNat + 256 * dec l) = b := by
      rw [← UInt8.toNat_inj, UInt8.toNat_ofNat']
      omega
    rw [List.length_cons, dec_cons, enc, hdiv, ih, hlow]

end
end LittleEndian
