import Cachetag.Lib.LittleEndian

/-! Reads and writes of a buffer of fixed length, every range of which is checked, and little-endian fields in it. -/

namespace Buffer

section Ranges
variable {α : Type*}

/-- The `n` elements at an offset, if they lie in the buffer. -/
def get (b : List α) (off n : Nat) : Option (List α) :=
  if off + n ≤ b.length then some ((b.drop off).take n) else none

/-- Elements written at an offset, if they fit. -/
def put (b : List α) (off : Nat) (x : List α) : Option (List α) :=
  if off + x.length ≤ b.length then some (b.take off ++ (x ++ b.drop (off + x.length))) else none

variable {b x y rest pre : List α} {off n : Nat}

/-- What is read lies where it was read. -/
theorem drop_of_get (h : get b off n = some x) : x.length = n ∧ b.drop off = x ++ b.drop (off + n) := by
  unfold get at h
  split at h
  · cases h
    refine ⟨?_, ?_⟩
    · rw [List.length_take, List.length_drop]
      omega
    · rw [← List.drop_drop, List.take_append_drop]
  · cases h

theorem get_of_drop (h : b.drop off = x ++ rest) (hn : 0 < x.length) : get b off x.length = some x := by
  have hlen := congrArg List.length h
  rw [List.length_drop, List.length_append] at hlen
  rw [get, if_pos (by omega), h, List.take_left']
  rfl

/-- A write into the middle of a buffer. -/
theorem put_append (hx : x.length = y.length) : put (pre ++ (y ++ rest)) pre.length x = some (pre ++ (x ++ rest)) := by
  have hdrop : (pre ++ (y ++ rest)).drop (pre.length + x.length) = rest := by
    rw [hx, ← List.drop_drop, List.drop_left, List.drop_left]
  rw [put, if_pos (by simp only [List.length_append]; omega), List.take_left, hdrop]

end Ranges

/-! ### Fields -/

/-- A little-endian field of `w` bytes. -/
def getLE (b : List UInt8) (off w : Nat) : Option Nat := (get b off w).map LittleEndian.dec

/-- The same, written. -/
def putLE (b : List UInt8) (off w v : Nat) : Option (List UInt8) := put b off (LittleEndian.enc w v)

section Fields
variable {b rest pre : List UInt8} {off w v k : Nat}

theorem getLE_of_drop (h : b.drop off = LittleEndian.enc w v ++ rest) (hw : 0 < w) (hv : v < 256 ^ w) :
    getLE b off w = some v := by
  have hlen : (LittleEndian.enc w v).length = w := LittleEndian.length_enc
  have hget := get_of_drop h (by rw [hlen]; exact hw)
  rw [hlen] at hget
  rw [getLE, hget, Option.map_some, LittleEndian.dec_enc hv]

/-- What stands behind a field. -/
theorem drop_field (h : b.drop off = LittleEndian.enc w v ++ rest) : b.drop (off + w) = rest := by
  rw [← List.drop_drop, h, List.drop_left' LittleEndian.length_enc]

theorem drop_of_getLE (h : getLE b off w = some v) :
    v < 256 ^ w ∧ b.drop off = LittleEndian.enc w v ++ b.drop (off + w) := by
  obtain ⟨x, hx, rfl⟩ := Option.map_eq_some_iff.mp h
  obtain ⟨hlen, hdrop⟩ := drop_of_get hx
  have henc := LittleEndian.enc_dec (l := x)
  have hlt := LittleEndian.dec_lt (l := x)
  rw [hlen] at henc hlt
  exact ⟨hlt, by rw [henc]; exact hdrop⟩

theorem exists_getLE (h : off + w ≤ b.length) : ∃ v, getLE b off w = some v :=
  ⟨_, by rw [getLE, get, if_pos h, Option.map_some]⟩

/-- The bytes of a buffer that nothing has been written to yet. -/
def zeros (n : Nat) : List UInt8 := List.replicate n 0

theorem zeros_add : zeros (w + k) = zeros w ++ zeros k := List.replicate_add w k 0

theorem length_zeros : (zeros k).length = k := List.length_replicate

/-- A field written where the written part ends. -/
theorem putLE_next (hoff : pre.length = off) :
    putLE (pre ++ zeros (w + k)) off w v = some (pre ++ LittleEndian.enc w v ++ zeros k) := by
  rw [putLE, ← hoff, zeros_add, put_append (by rw [LittleEndian.length_enc, length_zeros]), List.append_assoc]

end Fields

/-! ### 64-bit words -/

/-- A word as a field. -/
def word (v : UInt64) : List UInt8 := LittleEndian.enc 8 v.toNat

def getWord (b : List UInt8) (off : Nat) : Option UInt64 := (getLE b off 8).map UInt64.ofNat

def putWord (b : List UInt8) (off : Nat) (v : UInt64) : Option (List UInt8) := putLE b off 8 v.toNat

/-- An array of words. -/
def words (l : List UInt64) : List UInt8 := l.flatMap word

section Words
variable {b rest rest' pre : List UInt8} {off k n : Nat} {v : UInt64} {l l' : List UInt64}

theorem length_word : (word v).length = 8 := LittleEndian.length_enc

theorem getWord_of_drop (h : b.drop off = word v ++ rest) : getWord b off = some v := by
  rw [getWord, getLE_of_drop h (by decide) v.toNat_lt, Option.map_some, UInt64.ofNat_toNat]

theorem drop_word (h : b.drop off = word v ++ rest) : b.drop (off + 8) = rest := drop_field h

theorem drop_of_getWord (h : getWord b off = some v) : b.drop off = word v ++ b.drop (off + 8) := by
  obtain ⟨n, hn, rfl⟩ := Option.map_eq_some_iff.mp h
  obtain ⟨hlt, hdrop⟩ := drop_of_getLE hn
  rw [word, UInt64.toNat_ofNat_of_lt' hlt]
  exact hdrop

theorem exists_getWord (h : off + 8 ≤ b.length) : ∃ v, getWord b off = some v := by
  obtain ⟨n, hn⟩ := exists_getLE h
  exact ⟨_, by rw [getWord, hn, Option.map_some]⟩

theorem putWord_next (hoff : pre.length = off) :
    putWord (pre ++ zeros (8 + k)) off v = some (pre ++ word v ++ zeros k) := putLE_next hoff

theorem words_cons : words (v :: l) = word v ++ words l := List.flatMap_cons

theorem length_words : (words l).length = l.length * 8 := by
  induction l with
  | nil => rfl
  | cons v l ih =>
    rw [words_cons, List.length_append, length_word, ih, List.length_cons]
    omega

/-- Any bytes are words, as far as they reach. -/
theorem exists_words (h : off + n * 8 ≤ b.length) :
    ∃ l : List UInt64, l.length = n ∧ b.drop off = words l ++ b.drop (off + n * 8) := by
  induction n generalizing off with
  | zero => exact ⟨[], rfl, by rw [Nat.zero_mul, Nat.add_zero]; rfl⟩
  | succ n ih =>
    obtain ⟨v, hv⟩ : ∃ v, getWord b off = some v := exists_getWord (by omega)
    obtain ⟨l, hl, hdrop⟩ := @ih (off + 8) (by omega)
    refine ⟨v :: l, by rw [List.length_cons, hl], ?_⟩
    rw [drop_of_getWord hv, hdrop, words_cons, List.append_assoc, show off + 8 + n * 8 = off + (n + 1) * 8 by omega]

theorem word_inj {v' : UInt64} (h : word v ++ rest = word v' ++ rest') : v = v' ∧ rest = rest' := by
  have hv : getWord (word v ++ rest) 0 = some v := getWord_of_drop rfl
  have hv' : getWord (word v ++ rest) 0 = some v' := getWord_of_drop h
  rw [hv] at hv'
  cases hv'
  exact ⟨rfl, List.append_cancel_left h⟩

theorem words_inj (hlen : l.length = l'.length) (h : words l ++ rest = words l' ++ rest') : l = l' ∧ rest = rest' := by
  induction l generalizing l' with
  | nil =>
    obtain rfl := List.eq_nil_of_length_eq_zero hlen.symm
    exact ⟨rfl, h⟩
  | cons v l ih =>
    cases l' with
    | nil => cases hlen
    | cons v' l' =>
      rw [words_cons, words_cons, List.append_assoc, List.append_assoc] at h
      obtain ⟨rfl, htail⟩ := word_inj h
      obtain ⟨rfl, hrest⟩ := ih (Nat.succ.inj hlen) htail
      exact ⟨rfl, hrest⟩

end Words

end Buffer
