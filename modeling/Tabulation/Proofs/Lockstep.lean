/-
Two computations side by side.

`Ensures` says what comes of one computation. Here are two of them, on
tables that are related in some way: step by step they return the same
answers and leave tables that are related again, or they fail alike
(`Lockstep`). The first one may have failures of its own, those that
`E` excuses. What the second one would have done is then left open.

As with `Ensures` there is one rule for each way to put computations
together, and a loop over a list needs nothing but that each of its
turns is in step.
-/

namespace Tabulation

variable {ε σ α β : Type}

/-- What comes of two computations that are in step: the same answer
and related tables, the same failure, or a failure of the first that is
excused. -/
inductive Lockstep (R : σ → σ → Prop) (E : ε → Prop) :
    EStateM.Result ε σ α → EStateM.Result ε σ α → Prop
  | ok {a : α} {s t : σ} : R s t → Lockstep R E (.ok a s) (.ok a t)
  | error {failure : ε} {s t : σ} : R s t →
      Lockstep R E (.error failure s) (.error failure t)
  | excused {failure : ε} {s : σ} {outcome : EStateM.Result ε σ α} :
      E failure → Lockstep R E (.error failure s) outcome

namespace Lockstep

variable {R : σ → σ → Prop} {E : ε → Prop} {s t : σ}

protected theorem pure {a : α} (h : R s t) :
    Lockstep R E ((pure a : EStateM ε σ α) s) ((pure a : EStateM ε σ α) t) :=
      .ok h

protected theorem throw {failure : ε} (h : R s t) :
    Lockstep R E ((throw failure : EStateM ε σ α) s)
      ((throw failure : EStateM ε σ α) t) := .error h

/-- First the one, then the other. The second parts start on the same
answer, from related tables. -/
protected theorem bind {x y : EStateM ε σ α} {f g : α → EStateM ε σ β}
    (h : Lockstep R E (x s) (y t))
      (hfg : ∀ a s t, R s t → Lockstep R E (f a s) (g a t)) :
    Lockstep R E ((x >>= f) s) ((y >>= g) t) := by
  show Lockstep R E (EStateM.bind x f s) (EStateM.bind y g t)
  unfold EStateM.bind
  generalize x s = outcome at h
  generalize y t = outcome' at h
  cases h with
  | ok h => exact hfg _ _ _ h
  | error h => exact .error h
  | excused h => exact .excused h

protected theorem ite {c : Prop} [Decidable c] {x y x' y' : EStateM ε σ α}
    (h : Lockstep R E (x s) (y t)) (h' : Lockstep R E (x' s) (y' t)) :
    Lockstep R E ((if c then x else x') s) ((if c then y else y') t) := by
  split
  · exact h
  · exact h'

/-- A loop is in step if its turns are. -/
protected theorem forM {f g : β → EStateM ε σ PUnit} {l : List β} (h : R s t)
    (hstep : ∀ x ∈ l, ∀ s t, R s t → Lockstep R E (f x s) (g x t)) :
    Lockstep R E (l.forM f s) (l.forM g t) := by
  induction l generalizing s t with
  | nil => exact .pure h
  | cons x l ih =>
    refine (hstep x List.mem_cons_self s t h).bind fun _ s₁ t₁ h₁ => ?_
    exact ih h₁ fun y hy => hstep y (List.mem_cons_of_mem _ hy)

end Lockstep

end Tabulation
