import Mathlib

/-! A call that reports whether it did anything, and the loop that repeats it until it did not. The loop ends where a
rank is lowered by every call that did something. -/

namespace Rounds

variable {σ ε ρ : Type*}

/-- The state after `k` calls. -/
def after (call : ε → σ → σ × Bool) (env : Nat → ε) (s : σ) : Nat → σ
  | 0 => s
  | k + 1 => (call (env k) (after call env s k)).1

/-- What the call reports that comes after `k` others. -/
def reports (call : ε → σ → σ × Bool) (env : Nat → ε) (s : σ) (k : Nat) : Bool :=
  (call (env k) (after call env s k)).2

/-- `while (call) if (stop) break;` from its turn `k` on. -/
def loop (call : ε → σ → σ × Bool) (env : Nat → ε) (stop : Nat → Bool) : Nat → Nat → σ → Option σ
  | 0, _, _ => none
  | fuel + 1, k, s =>
    match call (env k) s with
    | (s', false) => some s'
    | (s', true) => if stop k then some s' else loop call env stop fuel (k + 1) s'

section
variable {call : ε → σ → σ × Bool} {env : Nat → ε} {s : σ} {I : σ → Prop}

/-- What every call keeps holds after any number of them. -/
theorem after_inv (init : I s) (keep : ∀ e s, I s → I (call e s).1) (k : Nat) : I (after call env s k) := by
  induction k with
  | zero => exact init
  | succ k ih => exact keep _ _ ih

variable [LT ρ] [WellFoundedLT ρ] {rank : σ → ρ}

/-- A call comes that does nothing, and every one before it did something. -/
theorem exists_idle (init : I s) (keep : ∀ e s, I s → I (call e s).1)
    (lower : ∀ e s, I s → (call e s).2 = true → rank (call e s).1 < rank s) :
    ∃ k, reports call env s k = false ∧ ∀ j < k, reports call env s j = true := by
  have hidle : ∃ k, reports call env s k = false := by
    obtain ⟨k, hk⟩ := WellFounded.not_rel_apply_succ (r := (· < ·)) fun k => rank (after call env s k)
    exact ⟨k, Bool.eq_false_iff.mpr fun hdid => hk (lower _ _ (after_inv init keep k) hdid)⟩
  refine ⟨Nat.find hidle, Nat.find_spec hidle, fun j hj => ?_⟩
  simpa using Nat.find_min hidle hj

theorem loop_ends (init : I s) (keep : ∀ e s, I s → I (call e s).1)
    (lower : ∀ e s, I s → (call e s).2 = true → rank (call e s).1 < rank s) (stop : Nat → Bool) (k : Nat) :
    ∃ fuel t, loop call env stop fuel k s = some t ∧ I t := by
  induction hr : rank s using WellFoundedLT.induction generalizing s k with
  | _ r ih =>
    subst hr
    have hkeep := keep (env k) s init
    have hlower := lower (env k) s init
    rcases hcall : call (env k) s with ⟨s', _ | _⟩ <;> rw [hcall] at hkeep hlower
    · exact ⟨1, s', by rw [loop, hcall], hkeep⟩
    · by_cases hstop : stop k = true
      · exact ⟨1, s', by rw [loop, hcall]; simp [hstop], hkeep⟩
      · obtain ⟨fuel, t, hloop, ht⟩ := ih _ (hlower rfl) hkeep (k + 1) rfl
        exact ⟨fuel + 1, t, by rw [loop, hcall]; simpa [hstop] using hloop, ht⟩

end
end Rounds
