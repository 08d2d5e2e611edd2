import Cachetag.Lib.Numeral
import Cachetag.Wal.Frame

/-! The relative paths that a manifest names files by.

`cachetag_wal_relpath_to_path` makes a path below the root of one, or refuses it. A `Relpath` is one that it does
not refuse. -/

namespace Cachetag.Wal
open Numeral

/-- The bytes of a text. -/
def ascii (s : String) : Bytes := s.toList.map fun c => UInt8.ofNat c.toNat

/-- The components of a path. A slash at its end ends the last of them. -/
def components (p : Bytes) : List Bytes :=
  if p.getLast? = some 47 then (p.splitOn 47).dropLast else p.splitOn 47

/-- What `cachetag_wal_relpath_to_path` asks of a path. -/
def relpathOk (p : Bytes) : Bool :=
  p ≠ [] && p.head? ≠ some 47 && (components p).all fun c => c ≠ [] && c ≠ ascii "." && c ≠ ascii ".."

/-- A path below the root. -/
structure Relpath where
  path : Bytes
  ok : relpathOk path = true
deriving DecidableEq

/-- `cachetag_has_suffix` -/
def hasSuffix (s suffix : Bytes) : Bool := suffix.isSuffixOf s

section
variable {p c : Bytes}

theorem relpathOk_one (h : 47 ∉ c) (hlen : 2 < c.length) : relpathOk c = true := by
  have hsplit : c.splitOn 47 = [c] := by
    have := @List.splitOn_intercalate _ [c] _ _ 47 (by simpa using h) (by simp)
    simpa using this
  have hlast : c.getLast? ≠ some 47 := fun hl => h (List.mem_of_getLast? hl)
  have hhead : c.head? ≠ some 47 := fun hl => h (List.mem_of_head? hl)
  have hne : c ≠ [] ∧ c ≠ ascii "." ∧ c ≠ ascii ".." := by
    refine ⟨?_, ?_, ?_⟩ <;> rintro rfl <;> revert hlen <;> decide
  simp [relpathOk, components, hlast, hhead, hsplit, hne]

theorem relpathOk_two (hp : 47 ∉ p) (hc : 47 ∉ c) (hplen : 2 < p.length) (hclen : 2 < c.length) :
    relpathOk (p ++ 47 :: c) = true := by
  have hsplit : (p ++ 47 :: c).splitOn 47 = [p, c] := by
    have := @List.splitOn_intercalate _ [p, c] _ _ 47 (by simp [hp, hc]) (by simp)
    simpa using this
  have hlast : (p ++ 47 :: c).getLast? ≠ some 47 := by
    intro hl
    rw [List.getLast?_append, List.getLast?_cons] at hl
    have hcne : c ≠ [] := List.ne_nil_of_length_pos (by omega)
    have := List.getLast?_eq_some_getLast hcne
    rw [this] at hl
    simp only [Option.getD_some, Option.some_or, Option.some.injEq] at hl
    exact hc (hl ▸ List.getLast_mem hcne)
  have hhead : (p ++ 47 :: c).head? ≠ some 47 := by
    rw [List.head?_append_of_ne_nil _ (List.ne_nil_of_length_pos (by omega))]
    exact fun hl => hp (List.mem_of_head? hl)
  have hpne : p ≠ [] ∧ p ≠ ascii "." ∧ p ≠ ascii ".." := by
    refine ⟨?_, ?_, ?_⟩ <;> rintro rfl <;> revert hplen <;> decide
  have hcne : c ≠ [] ∧ c ≠ ascii "." ∧ c ≠ ascii ".." := by
    refine ⟨?_, ?_, ?_⟩ <;> rintro rfl <;> revert hclen <;> decide
  have hcomp : components (p ++ 47 :: c) = [p, c] := by rw [components, if_neg hlast, hsplit]
  rw [relpathOk, Bool.and_eq_true, Bool.and_eq_true]
  exact ⟨⟨by simp, decide_eq_true hhead⟩, by simp [hcomp, hpne, hcne]⟩

/-- No printed number holds a character that is no digit. -/
theorem not_mem_pad {w b n : Nat} {x : UInt8} (hb : 1 < b) (h16 : b ≤ 16) (hx : digitVal 16 x = none) : x ∉ pad w b n := by
  intro h
  have := mem_pad hb h16 h
  rw [hx] at this
  cases this

end

/-- `cachetag_wal_segment_relpath` -/
def segmentRelpath (firstSeq : Nat) : Relpath where
  path := ascii "wal/" ++ pad 20 10 firstSeq ++ ascii ".vtw"
  ok := by
    have hnum : 47 ∉ pad 20 10 firstSeq ++ ascii ".vtw" := by
      rw [List.mem_append, not_or]
      exact ⟨not_mem_pad (by norm_num) (by norm_num) rfl, by decide⟩
    have hlen : 2 < (pad 20 10 firstSeq ++ ascii ".vtw").length := by
      rw [List.length_append, show (ascii ".vtw").length = 4 from rfl]
      omega
    rw [List.append_assoc]
    exact relpathOk_two (p := ascii "wal") (by decide) hnum (by decide) hlen

/-- `cachetag_wal_checkpoint_relpath` -/
def checkpointRelpath (generation : Nat) : Relpath where
  path := ascii "checkpoint-" ++ pad 20 10 generation ++ ascii ".vtc"
  ok := by
    refine relpathOk_one ?_ ?_
    · simp only [List.mem_append, not_or]
      exact ⟨⟨by decide, not_mem_pad (by norm_num) (by norm_num) rfl⟩, by decide⟩
    · rw [List.length_append, show (ascii ".vtc").length = 4 from rfl]
      omega

end Cachetag.Wal
