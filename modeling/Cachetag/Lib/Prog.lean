import Mathlib

/-! Programs that call a system, and rules for what holds when they have run.

A program has returned, or makes a call and goes on with the answer. A system may answer a call in several ways,
so a program has several runs. `Post` is what every finished run ends in; `exec` is the run in which a system
that is a function answers. -/

/-- A program. `Ans` gives the type of the answers to each call. -/
inductive Prog {Op : Type} (Ans : Op → Type) (α : Type) : Type where
  | ret (a : α) : Prog Ans α
  | call (op : Op) (k : Ans op → Prog Ans α) : Prog Ans α

namespace Prog
variable {Op : Type} {Ans : Op → Type} {α β S : Type}

/-- One program after another. -/
protected def bind : Prog Ans α → (α → Prog Ans β) → Prog Ans β
  | ret a, f => f a
  | call op k, f => call op fun x => (k x).bind f

instance : Monad (Prog Ans) where
  pure := ret
  bind := Prog.bind

/-- A single call. -/
def sys (op : Op) : Prog Ans (Ans op) := call op ret

/-- The runs of a program that finish. -/
inductive Runs (step : S → (op : Op) → Ans op → S → Prop) : Prog Ans α → S → α → S → Prop
  | ret {a : α} {s : S} : Runs step (ret a) s a s
  | call {op : Op} {k : Ans op → Prog Ans α} {s t u : S} {x : Ans op} {a : α} :
      step s op x t → Runs step (k x) t a u → Runs step (call op k) s a u

/-- Every finished run ends so. -/
def Post (step : S → (op : Op) → Ans op → S → Prop) (p : Prog Ans α) (s : S) (Q : α → S → Prop) : Prop :=
  ∀ a t, Runs step p s a t → Q a t

/-- The run of a program on a system that answers by a function. -/
def exec (answer : S → (op : Op) → Ans op × S) : Prog Ans α → S → α × S
  | ret a, s => (a, s)
  | call op k, s => exec answer (k (answer s op).1) (answer s op).2

section
variable {step : S → (op : Op) → Ans op → S → Prop} {answer : S → (op : Op) → Ans op × S} {p : Prog Ans α}
  {f : α → Prog Ans β} {op : Op} {k : Ans op → Prog Ans α} {g : Ans op → Prog Ans β} {Q R : α → S → Prop}
  {Q' : β → S → Prop} {a : α} {b : β} {s t u : S}

theorem runs_bind : Runs step (p >>= f) s b u ↔ ∃ a t, Runs step p s a t ∧ Runs step (f a) t b u := by
  constructor
  · intro h
    induction p generalizing s with
    | ret a => exact ⟨a, s, .ret, h⟩
    | call op k ih =>
      cases h with
      | call hs hk =>
        obtain ⟨a, t, hp, hf⟩ := ih _ hk
        exact ⟨a, t, .call hs hp, hf⟩
  · rintro ⟨a, t, hp, hf⟩
    induction hp with
    | ret => exact hf
    | call hs _ ih => exact .call hs (ih hf)

theorem runs_sys {x : Ans op} : Runs step (sys op) s x t ↔ step s op x t := by
  constructor
  · intro h
    cases h with
    | call hs hk =>
      cases hk
      exact hs
  · exact fun h => .call h .ret

@[simp] theorem post_pure : Post step (pure a : Prog Ans α) s Q ↔ Q a s := by
  constructor
  · exact fun h => h a s .ret
  · rintro h _ _ ⟨⟩
    exact h

@[simp] theorem post_bind : Post step (p >>= f) s Q' ↔ Post step p s fun a t => Post step (f a) t Q' := by
  constructor
  · exact fun h a t hp b u hf => h b u (runs_bind.mpr ⟨a, t, hp, hf⟩)
  · intro h b u hr
    obtain ⟨a, t, hp, hf⟩ := runs_bind.mp hr
    exact h a t hp b u hf

@[simp] theorem post_sys {Q : Ans op → S → Prop} : Post step (sys op) s Q ↔ ∀ x t, step s op x t → Q x t :=
  ⟨fun h x t hs => h x t (runs_sys.mpr hs), fun h x t hr => h x t (runs_sys.mp hr)⟩

theorem Post.mono (h : Post step p s Q) (imp : ∀ a t, Q a t → R a t) : Post step p s R :=
  fun a t hr => imp a t (h a t hr)

@[simp] theorem exec_pure : exec answer (pure a : Prog Ans α) s = (a, s) := rfl

@[simp] theorem exec_sys : exec answer (sys op) s = answer s op := rfl

@[simp] theorem exec_bind : exec answer (p >>= f) s = exec answer (f (exec answer p s).1) (exec answer p s).2 := by
  induction p generalizing s with
  | ret a => rfl
  | call op k ih => exact ih _

/-- What a system may answer is a run. -/
theorem exec_runs (hstep : ∀ s op, step s op (answer s op).1 (answer s op).2) :
    Runs step p s (exec answer p s).1 (exec answer p s).2 := by
  induction p generalizing s with
  | ret a => exact .ret
  | call op k ih => exact .call (hstep s op) (ih _)

end
end Prog
