import Mathlib

/-! State machines given by a partial step function: runs, reachable states, and the rule that lifts
    what one step keeps to what every run keeps. -/

namespace Machine

variable {σ ε τ : Type*}

/-- The state after the events of a list, if every one of them can be taken in its turn. -/
def run (step : σ → ε → Option σ) (s : σ) : List ε → Option σ
  | [] => some s
  | e :: es => (step s e).bind fun t => run step t es

/-- The states a machine reaches from `s₀` by steps that all meet `ok`. -/
inductive Reach (step : σ → ε → Option σ) (ok : σ → ε → Prop) (s₀ : σ) : σ → Prop
  | init : Reach step ok s₀ s₀
  | step {s t : σ} (e : ε) : Reach step ok s₀ s → ok s e → step s e = some t → Reach step ok s₀ t

/-- The condition that every step meets. -/
def always : σ → ε → Prop := fun _ _ => True

section
variable {step : σ → ε → Option σ} {ok : σ → ε → Prop} {s₀ s t u : σ}

@[simp] theorem run_nil : run step s [] = some s := rfl

theorem run_cons {e : ε} {es : List ε} : run step s (e :: es) = (step s e).bind fun t => run step t es := rfl

/-- An invariant holds initially and is kept by every permitted step, so it holds of every reached state. -/
theorem Reach.inv {I : σ → Prop} (h : Reach step ok s₀ s) (init : I s₀)
    (keep : ∀ {s t e}, Reach step ok s₀ s → I s → ok s e → step s e = some t → I t) : I s := by
  induction h with
  | init => exact init
  | step e hr hok hs ih => exact keep hr ih hok hs

theorem Reach.mono {ok' : σ → ε → Prop} (h : Reach step ok s₀ s) (imp : ∀ s e, ok s e → ok' s e) :
    Reach step ok' s₀ s := by
  induction h with
  | init => exact .init
  | step e _ hok hs ih => exact .step e ih (imp _ _ hok) hs

theorem Reach.trans (h₁ : Reach step ok s₀ s) (h₂ : Reach step ok s t) : Reach step ok s₀ t := by
  induction h₂ with
  | init => exact h₁
  | step e _ hok hs ih => exact .step e ih hok hs

/-- A run whose end is known is a way to reach that end. -/
theorem Reach.of_run {es : List ε} (h : run step s es = some t) : Reach step always s t := by
  induction es generalizing s with
  | nil =>
    cases h
    exact .init
  | cons e es ih =>
    obtain ⟨u, hu, h⟩ := Option.bind_eq_some_iff.mp h
    exact (Reach.step e .init trivial hu).trans (ih h)

/-- The machine that refuses the steps that do not meet a condition. -/
def guarded (step : σ → ε → Option σ) (ok : σ → ε → Prop) [∀ s e, Decidable (ok s e)] (s : σ) (e : ε) : Option σ :=
  if ok s e then step s e else none

theorem Reach.of_guarded [∀ s e, Decidable (ok s e)] {es : List ε} (h : run (guarded step ok) s es = some t) :
    Reach step ok s t := by
  induction es generalizing s with
  | nil =>
    cases h
    exact .init
  | cons e es ih =>
    obtain ⟨u, hu, h⟩ := Option.bind_eq_some_iff.mp h
    unfold guarded at hu
    split at hu
    · rename_i hok
      exact (Reach.step e .init hok hu).trans (ih h)
    · cases hu

theorem run_of_guarded [∀ s e, Decidable (ok s e)] {es : List ε} (h : run (guarded step ok) s es = some t) :
    run step s es = some t := by
  induction es generalizing s with
  | nil => exact h
  | cons e es ih =>
    obtain ⟨u, hu, h⟩ := Option.bind_eq_some_iff.mp h
    unfold guarded at hu
    split at hu
    · exact Option.bind_eq_some_iff.mpr ⟨u, hu, ih h⟩
    · cases hu

/-- A machine together with the history that `note` keeps of its steps. -/
def watched (step : σ → ε → Option σ) (note : σ → ε → σ → τ → τ) (x : σ × τ) (e : ε) : Option (σ × τ) :=
  (step x.1 e).map fun t => (t, note x.1 e t x.2)

/-- A history takes no step away. -/
theorem Reach.watch {note : σ → ε → σ → τ → τ} (h : Reach step ok s₀ s) (y₀ : τ) :
    ∃ y, Reach (watched step note) (fun x => ok x.1) (s₀, y₀) (s, y) := by
  induction h with
  | init => exact ⟨y₀, .init⟩
  | @step s t e _ hok hs ih =>
    obtain ⟨y, hy⟩ := ih
    exact ⟨note s e t y, .step e hy hok (by rw [watched, hs]; rfl)⟩

/-- And adds none. -/
theorem Reach.unwatch {note : σ → ε → σ → τ → τ} {x₀ x : σ × τ} (h : Reach (watched step note) (fun x => ok x.1) x₀ x) :
    Reach step ok x₀.1 x.1 := by
  induction h with
  | init => exact .init
  | step e _ hok hs ih =>
    obtain ⟨t, ht, rfl⟩ := Option.map_eq_some_iff.mp hs
    exact .step e ih hok ht

/-- What a state carries on once it has it stays along every run. -/
theorem Reach.stable {I : σ → Prop} (h : Reach step ok s t) (hs : I s)
    (keep : ∀ {s t e}, I s → step s e = some t → I t) : I t :=
  h.inv hs fun _ hi _ hst => keep hi hst

end
end Machine
