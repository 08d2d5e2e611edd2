import Mathlib

/-! The fields of a text between separators, and the loop that visits them from the left until one of them
    stops it. -/

namespace Scan
variable {β σ ε : Type*} [DecidableEq β] {sep l : List β}

/-- The position of the first occurrence of a text in another. -/
def strstr (sep : List β) : List β → Option Nat
  | [] => if sep = [] then some 0 else none
  | b :: l => if sep <+: b :: l then some 0 else (strstr sep l).map (· + 1)

theorem strstr_le {n : Nat} (h : strstr sep l = some n) : n + sep.length ≤ l.length := by
  induction l generalizing n with
  | nil =>
    unfold strstr at h
    split at h
    · rename_i hsep
      cases h
      simp [hsep]
    · cases h
  | cons b l ih =>
    unfold strstr at h
    split at h
    · rename_i hpre
      cases h
      simpa using hpre.length_le
    · obtain ⟨m, hm, rfl⟩ := Option.map_eq_some_iff.mp h
      have := ih hm
      rw [List.length_cons]
      omega

/-- The fields of a text. Without a separator it is a field of its own. -/
def fields (sep l : List β) : List (List β) :=
  if _hsep : sep = [] then [l]
  else
    match _h : strstr sep l with
    | none => [l]
    | some n => l.take n :: fields sep (l.drop (n + sep.length))
termination_by l.length
decreasing_by
  have := strstr_le _h
  have := List.length_pos_iff.mpr _hsep
  rw [List.length_drop]
  omega

theorem fields_none (hsep : sep ≠ []) (h : strstr sep l = none) : fields sep l = [l] := by
  rw [fields, dif_neg hsep]
  split
  · rfl
  · rename_i hs
    rw [h] at hs
    cases hs

theorem fields_some {n : Nat} (hsep : sep ≠ []) (h : strstr sep l = some n) :
    fields sep l = l.take n :: fields sep (l.drop (n + sep.length)) := by
  rw [fields, dif_neg hsep]
  split
  · rename_i hs
    rw [h] at hs
    cases hs
  · rename_i m hs
    cases h.symm.trans hs
    rfl

theorem fields_ne_nil (hsep : sep ≠ []) (l : List β) : fields sep l ≠ [] := by
  cases h : strstr sep l with
  | none => simp [fields_none hsep h]
  | some n => simp [fields_some hsep h]

/-- A text has at most one field more than it has characters. -/
theorem length_fields_le (hsep : sep ≠ []) (l : List β) : (fields sep l).length ≤ l.length + 1 := by
  cases h : strstr sep l with
  | none => simp [fields_none hsep h]
  | some n =>
    have hle := strstr_le h
    have hpos := List.length_pos_iff.mpr hsep
    have ih := length_fields_le hsep (l.drop (n + sep.length))
    rw [fields_some hsep h, List.length_cons]
    rw [List.length_drop] at ih
    omega
termination_by l.length
decreasing_by
  rw [List.length_drop]
  omega

/-! ### Texts made of fields -/

theorem strstr_prefix : strstr sep (sep ++ l) = some 0 := by
  cases h : sep ++ l with
  | nil => rw [strstr, if_pos (List.append_eq_nil_iff.mp h).1]
  | cons b t =>
    rw [strstr, if_pos]
    rw [← h]
    exact List.prefix_append _ _

omit [DecidableEq β] in
/-- A text that lacks a character does not reach over it. -/
theorem prefix_of_not_mem {c : β} {x : List β} (hc : c ∉ sep) (h : sep <+: x ++ c :: l) : sep <+: x := by
  rcases List.prefix_or_prefix_of_prefix h (List.prefix_append x (c :: l)) with h' | ⟨y, rfl⟩
  · exact h'
  · cases y with
    | nil => simp
    | cons b y =>
      have hb : b = c := (List.cons_prefix_cons.mp ((List.prefix_append_right_inj x).mp h)).1
      exact absurd (by simp [hb]) hc

/-- The search goes over a line that does not hold what it looks for. -/
theorem strstr_line {c : β} {x : List β} (hc : c ∉ sep) (hx : ¬ sep <:+: x) :
    strstr sep (x ++ c :: l) = (strstr sep l).map (· + (x.length + 1)) := by
  induction x with
  | nil =>
    rw [List.nil_append, strstr, if_neg]
    · rfl
    · exact fun h => hx (prefix_of_not_mem (x := []) hc h).isInfix
  | cons b x ih =>
    rw [List.cons_append, strstr, if_neg, ih fun h => hx (List.infix_cons h), Option.map_map]
    · rfl
    · exact fun h => hx (prefix_of_not_mem (x := b :: x) hc h).isInfix

/-- What stands in the front of a text is found there. -/
theorem strstr_infix {x : List β} (h : sep <:+: x) : ∃ n, strstr sep (x ++ l) = some n ∧ n + sep.length ≤ x.length := by
  induction x with
  | nil =>
    cases List.infix_nil.mp h
    exact ⟨0, strstr_prefix, le_rfl⟩
  | cons b x ih =>
    rw [List.cons_append, strstr]
    split
    · rename_i hpre
      exact ⟨0, rfl, by simpa using h.length_le⟩
    · rename_i hpre
      rcases List.infix_cons_iff.mp h with h | h
      · exact absurd (h.trans (List.prefix_append (b :: x) l)) hpre
      · obtain ⟨n, hn, hle⟩ := ih h
        exact ⟨n + 1, by rw [hn]; rfl, by rw [List.length_cons]; omega⟩

theorem strstr_self {c : β} {x : List β} (hx : c ∉ x) : strstr [c] (x ++ c :: l) = some x.length := by
  induction x with
  | nil => exact strstr_prefix
  | cons b x ih =>
    obtain ⟨hb, hx⟩ : c ≠ b ∧ c ∉ x := by simpa using hx
    rw [List.cons_append, strstr, if_neg, ih hx]
    · rfl
    · simpa using hb

/-- The field in front of a separator. -/
theorem fields_line {c : β} {x : List β} (hx : c ∉ x) : fields [c] (x ++ c :: l) = x :: fields [c] l := by
  rw [fields_some (List.cons_ne_nil _ _) (strstr_self hx), List.take_left' rfl, List.length_singleton,
    List.drop_append, List.drop_of_length_le (Nat.le_succ _), Nat.add_sub_cancel_left]
  rfl

/-- The visits of a list, up to the first one that stops. -/
def visits (visit : σ → β → σ × Option ε) : List β → σ → σ × Option ε
  | [], s => (s, none)
  | x :: xs, s =>
    match visit s x with
    | (s, none) => visits visit xs s
    | (s, some e) => (s, some e)

/-- The loop `for (p = text; ; p = q + strlen(sep))` with `q = strstr(p, sep)`, which visits what is in front
    of `q` and ends behind the last separator. `none` when it takes more turns than it may. -/
def scan (visit : σ → List β → σ × Option ε) (sep : List β) : Nat → List β → σ → Option (σ × Option ε)
  | 0, _, _ => none
  | fuel + 1, p, s =>
    match visit s (p.take ((strstr sep p).getD p.length)) with
    | (s, some e) => some (s, some e)
    | (s, none) =>
      match strstr sep p with
      | none => some (s, none)
      | some n => scan visit sep fuel (p.drop (n + sep.length)) s

/-- The loop ends for every separator but the empty one, and has visited the fields. -/
theorem scan_eq (visit : σ → List β → σ × Option ε) (hsep : sep ≠ []) {fuel : Nat} {s : σ} (hf : l.length < fuel) :
    scan visit sep fuel l s = some (visits visit (fields sep l) s) := by
  induction fuel generalizing l s with
  | zero => cases hf
  | succ fuel ih =>
    unfold scan
    cases h : strstr sep l with
    | none =>
      rw [fields_none hsep h, Option.getD_none, List.take_length]
      unfold visits visits
      cases hv : visit s l with
      | mk t e => cases e <;> rfl
    | some n =>
      have hle := strstr_le h
      have hpos := List.length_pos_iff.mpr hsep
      rw [fields_some hsep h, Option.getD_some]
      unfold visits
      cases hv : visit s (l.take n) with
      | mk t e =>
        cases e with
        | none => exact ih (by rw [List.length_drop]; omega)
        | some e => rfl

/-- However many turns the loop may take, it visits nothing but the fields. -/
theorem scan_some {visit : σ → List β → σ × Option ε} (hsep : sep ≠ []) {fuel : Nat} {s : σ} {r : σ × Option ε}
    (h : scan visit sep fuel l s = some r) : r = visits visit (fields sep l) s := by
  induction fuel generalizing l s with
  | zero => cases h
  | succ fuel ih =>
    unfold scan at h
    cases hs : strstr sep l with
    | none =>
      rw [hs, Option.getD_none, List.take_length] at h
      rw [fields_none hsep hs]
      unfold visits visits
      cases hv : visit s l with
      | mk t e =>
        rw [hv] at h
        cases e <;> cases h <;> rfl
    | some n =>
      rw [hs, Option.getD_some] at h
      rw [fields_some hsep hs]
      unfold visits
      cases hv : visit s (l.take n) with
      | mk t e =>
        rw [hv] at h
        cases e with
        | none => exact ih h
        | some e =>
          cases h
          rfl

end Scan
