/-
More fuel makes no difference to a run that has enough.

Two loops are on fuel, that over path edges and that over values. A
loop that uses up its fuel says so. With any other outcome there was
enough, and on more fuel the outcome is the same (`solve_of_le`). So
what solving comes to on large amounts of fuel it comes to on all
amounts that are enough.
-/
import Tabulation.Proofs.Ensures
import Tabulation.Solver.Solve

namespace Tabulation.Solver

variable {D W L σ α β : Type}

/-- The second computation does as the first one does, unless that is
out of fuel. The first is the one with less. -/
def Outlasts (x y : EStateM (Failure D W L) σ α) : Prop :=
  ∀ s, (∃ s', x s = .error .outOfFuel s') ∨ y s = x s

/-- What takes no fuel does as it does. -/
theorem Outlasts.refl (x : EStateM (Failure D W L) σ α) : Outlasts x x :=
  fun _ => Or.inr rfl

/-- One after another, if the parts do, so does the whole. -/
theorem Outlasts.bind {x y : EStateM (Failure D W L) σ α}
    {f g : α → EStateM (Failure D W L) σ β} (h : Outlasts x y)
    (hfg : ∀ a, Outlasts (f a) (g a)) : Outlasts (x >>= f) (y >>= g) := by
  intro s
  rcases h s with ⟨s', hx⟩ | hxy
  · exact Or.inl ⟨s', bind_of_error hx f⟩
  · cases hx : x s with
    | error failure s' =>
      rw [bind_of_error (hxy.trans hx), bind_of_error hx]
      exact Or.inr rfl
    | ok a s' =>
      rw [bind_of_ok (hxy.trans hx), bind_of_ok hx]
      exact hfg a s'

variable [DecidableEq D] [DecidableEq L]
variable (S : Setup D W L) {fuel more : Nat}

/-- The loop over values, by induction on the smaller amount. -/
theorem outlasts_settle (T : State D W L) (h : fuel ≤ more) :
    Outlasts (Values.settle S T fuel) (Values.settle S T more) := by
  induction fuel generalizing more with
  | zero => exact fun s => Or.inl ⟨s, rfl⟩
  | succ fuel ih =>
    obtain ⟨more, rfl⟩ :=
      Nat.exists_eq_add_of_le' (Nat.le_trans (Nat.le_add_left 1 fuel) h)
    unfold Values.settle
    refine .bind (.refl _) fun s => ?_
    cases s.pending with
    | nil => exact .refl _
    | cons next rest =>
      exact .bind (.refl _) fun _ => .bind (.refl _) fun _ =>
        ih (Nat.le_of_succ_le_succ h)

/-- Values are computed apart from the tables, on the same fuel. -/
theorem outlasts_valuePhase (h : fuel ≤ more) (status : Status) :
    Outlasts (valuePhase S fuel status) (valuePhase S more status) := by
  have hcompute : ∀ T : State D W L,
      Outlasts (Values.compute S T fuel) (Values.compute S T more) := fun T =>
    .bind (.refl _) fun _ => .bind (outlasts_settle S T h) fun _ => .refl _
  unfold valuePhase
  split
  · refine .bind (.refl _) fun T => ?_
    rcases hcompute T {} with ⟨s', hout⟩ | hsame
    · rw [hout]
      exact fun s => Or.inl ⟨s, rfl⟩
    · rw [hsame]
      exact .refl _
  · exact .refl _

variable [DecidableEq W]

/-- The loop over path edges, in the same way. -/
theorem outlasts_tabulate (h : fuel ≤ more) :
    Outlasts (tabulate S fuel) (tabulate S more) := by
  induction fuel generalizing more with
  | zero => exact fun s => Or.inl ⟨s, rfl⟩
  | succ fuel ih =>
    obtain ⟨more, rfl⟩ :=
      Nat.exists_eq_add_of_le' (Nat.le_trans (Nat.le_add_left 1 fuel) h)
    unfold tabulate
    refine .bind (.refl _) fun status? => ?_
    cases status? with
    | some status => exact .refl _
    | none => exact ih (Nat.le_of_succ_le_succ h)

/-- A loop that is over is the same on more fuel. To be over is an
outcome other than being out of fuel. -/
theorem tabulate_mono {S : Setup D W L} {status : Status} {s s' : State D W L}
    (hloop : tabulate S fuel s = .ok status s') (h : fuel ≤ more) :
    tabulate S more s = .ok status s' := by
  rcases outlasts_tabulate S h s with ⟨_, hout⟩ | hsame
  · cases hloop.symm.trans hout
  · exact hsame.trans hloop

/-- A run has both loops, on the same amount. -/
theorem outlasts_run (h : fuel ≤ more) :
    Outlasts (run S fuel) (run S more) := by
  unfold run
  refine .bind (.refl _) fun _ => .bind (.refl _) fun _ => ?_
  refine .bind (outlasts_tabulate S h) fun status => ?_
  exact .bind (outlasts_valuePhase S h status) fun _ => .refl _

/-- Solving is out of fuel, or comes to the same on more. -/
theorem solve_of_le (h : fuel ≤ more) (graph : FlowGraph) :
    (solve S fuel graph).1 = .error .outOfFuel ∨
    solve S more graph = solve S fuel graph := by
  unfold solve
  rcases outlasts_run S h (State.start S graph) with ⟨s', hout⟩ | hsame
  · rw [hout]
    exact Or.inl rfl
  · rw [hsame]
    exact Or.inr rfl

end Tabulation.Solver
