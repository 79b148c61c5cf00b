/-
Settings that do not touch the following of path edges.

The limit on the iterations is looked at between turns only, and
whether there will be values is looked at once the loop is over. So
setups that differ in nothing else (`tuned`) begin in the same way,
follow a path edge in the same way, and as long as none of them stops
they take the same turns (`turn_tuned`).
-/
import Tabulation.Proofs.SameFlows
import Tabulation.Proofs.Solver.Fuel
import Tabulation.Proofs.Solver.Outcome

namespace Tabulation

variable {D W L : Type}

/-- The same setup with another limit on the iterations, and with
values or without. -/
def Setup.tuned (S : Setup D W L) (limit : Option Nat) (values : Bool) :
    Setup D W L :=
  { S with
    config :=
      { S.config with
        maxIterations := limit
        computeValues := values } }

/-- Nothing from outside stops a run: there is no limit, no clock and
no cancellation. -/
structure Unlimited (config : Config) (world : World) : Prop where
  maxIterations : config.maxIterations = none
  timeout : config.timeout = none
  uncancelled : ∀ k, world.cancelled k = false

theorem Unlimited.tuned_eq {S : Setup D W L} (h : Unlimited S.config S.world) :
    S.tuned none S.config.computeValues = S := by
  unfold Setup.tuned
  rw [← h.maxIterations]

/-- A limit is then the only reason to stop. -/
theorem Unlimited.stopReason?_tuned {S : Setup D W L} {s : State D W L}
    (h : Unlimited S.config S.world) (hs : s.cancelled = false)
    (limit : Option Nat) (values : Bool) :
    Solver.stopReason? (S.tuned limit values) s =
      if limit.any (· ≤ s.stats.worklistIterations) then some .iterationLimit
        else none := by
  unfold Solver.stopReason? Setup.tuned
  dsimp only
  rw [hs, h.uncancelled, h.timeout]
  rfl

theorem Unlimited.stopReason? {S : Setup D W L} {s : State D W L}
    (h : Unlimited S.config S.world) (hs : s.cancelled = false) :
    Solver.stopReason? S s = none := by
  have hreason := h.stopReason?_tuned hs none S.config.computeValues
  rw [h.tuned_eq] at hreason
  exact hreason

variable [DecidableEq D]

/-- What a flow yields does not depend on these settings. -/
theorem Setup.effective_tuned (S : Setup D W L) (limit : Option Nat)
    (values : Bool) : (S.tuned limit values).effective = S.effective := by
  have hmerge : (S.tuned limit values).mergeTarget = S.mergeTarget := by
    funext ts t
    exact mergeTarget_congr (S := S) (T := S.tuned limit values) rfl ts t
  funext d answer
  unfold Setup.effective
  rw [hmerge]
  rfl

namespace Solver

section Tuned

variable (S : Setup D W L) (limit : Option Nat) (values : Bool)

/-- A computation that does not look at these settings is the same for
both setups. The next lemmas say so of one computation after the other,
each from those that it calls. -/
private theorem evaluate_tuned :
    evaluate (S.tuned limit values) = evaluate S := by
  unfold evaluate accept
  rw [S.effective_tuned]
  rfl

private theorem valuesAtTargets_tuned (T : State D W L) (found : Grid Node D L)
    (cells : List (Node × (D × D) × W)) :
    Values.valuesAtTargets (S.tuned limit values) T found cells =
      Values.valuesAtTargets S T found cells := by
  induction cells with
  | nil => rfl
  | cons cell cells ih =>
    unfold Values.valuesAtTargets
    rw [ih]
    rfl

variable [DecidableEq L]

/-- The loop of the value phase takes an induction on the fuel; all
others are unfolded. -/
private theorem settle_tuned (T : State D W L) (fuel : Nat) :
    Values.settle (S.tuned limit values) T fuel = Values.settle S T fuel := by
  induction fuel with
  | zero => rfl
  | succ fuel ih =>
    unfold Values.settle
    rw [ih]
    rfl

private theorem compute_tuned (T : State D W L) (fuel : Nat) :
    Values.compute (S.tuned limit values) T fuel = Values.compute S T fuel := by
  unfold Values.compute Values.spread
  simp only [settle_tuned, valuesAtTargets_tuned]
  rfl

theorem valuePhase_tuned (fuel : Nat) (status : Status) :
    valuePhase (S.tuned limit S.config.computeValues) fuel status =
      valuePhase S fuel status := by
  unfold valuePhase
  simp only [compute_tuned]
  rfl

variable [DecidableEq W]

private theorem processNormal_tuned :
    processNormal (S.tuned limit values) = processNormal S := by
  unfold processNormal normalFlow accept
  rw [S.effective_tuned, evaluate_tuned]
  rfl

private theorem enter_tuned : enter (S.tuned limit values) = enter S := by
  unfold enter applySummaries returnFlow
  rw [evaluate_tuned]
  rfl

private theorem processCall_tuned :
    processCall (S.tuned limit values) = processCall S := by
  unfold processCall visitCallee callFlow
  rw [enter_tuned, evaluate_tuned]
  rfl

private theorem processExit_tuned :
    processExit (S.tuned limit values) = processExit S := by
  unfold processExit returnTo returnFlow
  rw [evaluate_tuned]
  rfl

/-- So a path edge is followed in the same way. -/
private theorem process_tuned : process (S.tuned limit values) = process S := by
  unfold process
  rw [processCall_tuned, processExit_tuned, processNormal_tuned]
  rfl

end Tuned

-- ================================================================== turns

variable {S : Setup D W L} {limit : Option Nat} {values : Bool}
variable {s : State D W L}

omit [DecidableEq D] in
/-- There is nothing to take, or a path edge is taken. -/
private theorem next?_eq (S : Setup D W L) (s : State D W L) :
    (next? S s = .ok none s ∧ s.worklist = []) ∨
      ∃ e rest, next? S s = .ok (some e) { s with worklist := rest } ∧
      s.worklist ≠ [] := by
  have hensures := ensures_next? (S := S) (E := fun _ => False) s
  cases hnext : next? S s with
  | error failure s₁ => exact absurd (hensures.of_error hnext) id
  | ok e? s₁ =>
    rcases hensures.of_ok hnext with ⟨rfl, _, hnil, rfl⟩ | ⟨e, rest, rfl,
        _, rfl, hperm⟩
    · exact Or.inl ⟨rfl, hnil⟩
    · refine Or.inr ⟨e, rest, rfl, fun hnil => ?_⟩
      rw [hnil] at hperm
      exact absurd hperm.symm (List.not_perm_cons_nil)

variable [DecidableEq W] [DecidableEq L]

/-- Setups take the same turn if they agree on whether to stop, or if
nothing is pending. -/
theorem turn_tuned {limit' : Option Nat} {values' : Bool}
    (h : s.worklist ≠ [] → stopReason? (S.tuned limit values) s =
      stopReason? (S.tuned limit' values') s) :
    turn (S.tuned limit values) s = turn (S.tuned limit' values') s := by
  unfold turn
  rw [process_tuned, process_tuned]
  rcases next?_eq S s with ⟨hnext, _⟩ | ⟨e, rest, hnext, hpending⟩
  · rw [bind_of_ok (x := next? (S.tuned limit values)) hnext,
      bind_of_ok (x := next? (S.tuned limit' values')) hnext]
    rfl
  · rw [bind_of_ok (x := next? (S.tuned limit values)) hnext,
      bind_of_ok (x := next? (S.tuned limit' values')) hnext]
    dsimp only
    rw [get_bind_apply, get_bind_apply]
    have hsame : stopReason? (S.tuned limit values)
        { s with worklist := rest } = stopReason? (S.tuned limit' values')
        { s with worklist := rest } := h hpending
    rw [hsame]

/-- With something pending and a reason to stop, a turn is the last
one. What was pending is dropped. -/
theorem turn_of_stop {reason : StopReason} (hpending : s.worklist ≠ [])
    (hstop : stopReason? S s = some reason) :
    turn S s = .ok (some (.incomplete reason)) { s with worklist := [] } := by
  unfold turn
  rcases next?_eq S s with ⟨_, hnil⟩ | ⟨e, rest, hnext, _⟩
  · exact absurd hnil hpending
  · have hsame : stopReason? S { s with worklist := rest } = some reason :=
      hstop
    rw [bind_of_ok hnext]
    dsimp only
    rw [get_bind_apply, hsame]
    rfl

theorem tabulate_of_last {status : Status} {s' : State D W L} (fuel : Nat)
    (h : turn S s = .ok (some status) s') :
    tabulate S (fuel + 1) s = .ok status s' :=
  bind_of_ok h _

theorem tabulate_of_more {s' : State D W L} (fuel : Nat)
    (h : turn S s = .ok none s') :
    tabulate S (fuel + 1) s = tabulate S fuel s' :=
  bind_of_ok h _

/-- The loop does not look at whether there will be values. -/
theorem tabulate_tuned (values' : Bool) (fuel : Nat) :
    tabulate (S.tuned limit values) fuel =
      tabulate (S.tuned limit values') fuel := by
  induction fuel with
  | zero => rfl
  | succ fuel ih =>
    have hturn : turn (S.tuned limit values) = turn (S.tuned limit values') :=
      funext fun s => turn_tuned fun _ => rfl
    unfold tabulate
    rw [hturn, ih]

end Solver

end Tabulation
