import Mathlib

/-! The epoch gate of `src/vmod_cachetag_index_private.h`: a phase bit and a count of readers per phase.

A reader takes the count of the phase it sees and keeps it when the phase is still the same. A writer
flips the phase, and then waits for the count of the phase it left. -/

namespace Cachetag

/-- `struct cachetag_epoch_gate` -/
structure Gate where
  phase : Bool
  readers0 : Nat
  readers1 : Nat
deriving DecidableEq, Repr

namespace Gate

/-- A gate fresh from `calloc`. -/
def init : Gate := ⟨false, 0, 0⟩

def readers (g : Gate) (slot : Bool) : Nat := if slot then g.readers1 else g.readers0

/-- The increment of `cachetag_epoch_gate_acquire`. -/
def enter (g : Gate) (slot : Bool) : Gate :=
  if slot then { g with readers1 := g.readers1 + 1 } else { g with readers0 := g.readers0 + 1 }

/-- `cachetag_epoch_gate_release` -/
def leave (g : Gate) (slot : Bool) : Gate :=
  if slot then { g with readers1 := g.readers1 - 1 } else { g with readers0 := g.readers0 - 1 }

/-- The writer's `phase ^= 1`. -/
def flip (g : Gate) : Gate := { g with phase := !g.phase }

section
variable {g : Gate} {a b : Bool}

@[simp] theorem phase_enter : (g.enter a).phase = g.phase := by
  cases a <;> rfl

@[simp] theorem phase_leave : (g.leave a).phase = g.phase := by
  cases a <;> rfl

@[simp] theorem phase_flip : g.flip.phase = !g.phase := rfl

@[simp] theorem readers_flip : g.flip.readers a = g.readers a := rfl

theorem readers_enter : (g.enter a).readers b = if b = a then g.readers b + 1 else g.readers b := by
  cases a <;> cases b <;> rfl

theorem readers_leave : (g.leave a).readers b = if b = a then g.readers b - 1 else g.readers b := by
  cases a <;> cases b <;> rfl

end

/-- The counts of a gate are those of the parties, each of which `p` finds in one slot or in none. -/
def Counts {α : Type*} (g : Gate) (p : Bool → α → Bool) (l : List α) : Prop := ∀ slot, g.readers slot = l.countP (p slot)

section Counts
variable {α : Type*} {g : Gate} {p : Bool → α → Bool} {l : List α} {i : Nat} {a b : α} {x : Bool}

theorem Counts.quiet (h : g.Counts p l) (hzero : g.readers x = 0) : ∀ a ∈ l, p x a = false := by
  intro a ha
  rw [h x, List.countP_eq_zero] at hzero
  simpa using hzero a ha

/-- A party moves, and stays in its slot. -/
theorem Counts.stay (h : g.Counts p l) (hi : l[i]? = some a) (hp : ∀ slot, p slot b = p slot a) :
    g.Counts p (l.set i b) := by
  intro slot
  obtain ⟨hlt, rfl⟩ := List.getElem?_eq_some_iff.mp hi
  rw [List.countP_set hlt, h slot, hp]
  by_cases ha : p slot l[i] = true
  · have := List.countP_pos_iff.mpr ⟨l[i], List.getElem_mem hlt, ha⟩
    simp only [ha, if_true]
    omega
  · simp [ha]

/-- A party takes a count. -/
theorem Counts.enter (h : g.Counts p l) (hi : l[i]? = some a) (ha : ∀ slot, p slot a = false)
    (hb : ∀ slot, p slot b = (x == slot)) : (g.enter x).Counts p (l.set i b) := by
  intro slot
  obtain ⟨hlt, rfl⟩ := List.getElem?_eq_some_iff.mp hi
  rw [List.countP_set hlt, readers_enter, h slot, ha, hb]
  cases x <;> cases slot <;> simp

/-- A party gives its count back. -/
theorem Counts.leave (h : g.Counts p l) (hi : l[i]? = some a) (ha : ∀ slot, p slot a = (x == slot))
    (hb : ∀ slot, p slot b = false) : (g.leave x).Counts p (l.set i b) := by
  intro slot
  obtain ⟨hlt, rfl⟩ := List.getElem?_eq_some_iff.mp hi
  rw [List.countP_set hlt, readers_leave, h slot, ha, hb]
  cases x <;> cases slot <;> simp

end Counts
end Gate
end Cachetag
