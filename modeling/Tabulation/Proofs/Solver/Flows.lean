/-
What the single steps of following a path edge ensure: asking the graph
and the problem, evaluating flow functions, and letting a path edge be
reached.

Every lemma is of one form. From sound tables, a step leaves tables
that come of them (`Advances`), or is quiet, and returns what the
exploded supergraph says: the targets of a flow are `normalTargets`,
`callTargets`, `returnTargets` or the targets past a call. The two
steps that read the tables (`jumpFunction` and `entryFunction`) find
what they look for, so that the gaps they would report do not arise.
-/
import Tabulation.Proofs.Solver.Tables

namespace Tabulation.Solver

open Supergraph

variable {D W L : Type}
variable {S : Setup D W L} {le : W → W → Prop} {I₀ : Icfg} {s : State D W L}

-- ================================================================= asking

/-- Asking the problem changes nothing. A fault is a failure that is
excused. -/
theorem ensures_ask {α : Type} (answer : Except Fault α) :
    Ensures (Failure.Excused I₀) (ask answer : SolverM D W L α)
      (fun a s' => s' = s ∧ answer = .ok a) s := by
  cases answer with
  | ok a => exact Ensures.pure ⟨rfl, rfl⟩
  | error fault => exact Ensures.throw trivial

/-- Asking the graph about a node changes nothing either, and likewise. -/
theorem ensures_askOf {α : Type} (node : Node) (answer : Option α) :
    Ensures (Failure.Excused I₀) (askOf node answer : SolverM D W L α)
      (fun a s' => s' = s ∧ answer = some a) s := by
  cases answer with
  | some a => exact Ensures.pure ⟨rfl, rfl⟩
  | none => exact Ensures.throw trivial

variable [DecidableEq D]

/-- A path edge that is on record has its jump function found, so this
never reports a gap. -/
theorem ensures_jumpFunction {e : PathEdge D} (h : ∃ w, s.jump? e = some w) :
    Ensures (Failure.Excused I₀) (jumpFunction e : SolverM D W L W)
      (fun w s' => s' = s ∧ s.jump? e = some w) s := by
  obtain ⟨w, hw⟩ := h
  refine Ensures.get_bind ?_
  rw [hw]
  exact Ensures.pure ⟨rfl, rfl⟩

/-- An entry that was made has its edge function found. The caller was
noted with the call flow that made the entry. -/
theorem ensures_entryFunction {site : Node} {callee : Proc} {callFact entry : D}
    {ts : List (D × W)} (h : s.callFlows.get? site (callee, callFact) = some ts)
    (hentry : entry ∈ ts.map Prod.fst) :
    Ensures (Failure.Excused I₀)
      (entryFunction site callee callFact entry : SolverM D W L W)
      (fun w s' => s' = s ∧ (entry, w) ∈ ts) s := by
  refine Ensures.get_bind ?_
  have hts : s.callFlows.getD site (callee, callFact) [] = ts := by
    rw [Grid.getD, h]
    rfl
  rw [hts]
  dsimp only
  cases hfind : ts.find? fun t => decide (t.1 = entry) with
  | some t =>
    obtain ⟨d, w⟩ := t
    have hd : d = entry := by simpa using List.find?_some hfind
    exact Ensures.pure ⟨rfl, hd ▸ List.mem_of_find?_eq_some hfind⟩
  | none =>
    obtain ⟨⟨d, w⟩, hmem, hd⟩ := List.mem_map.mp hentry
    have hne := List.find?_eq_none.mp hfind (d, w) hmem
    exact absurd (decide_eq_true hd) hne

-- ================================================================== flows

/-- Taking over an answer is quiet and yields what the solver takes it
to yield. Of the tables, it touches the log and the counters only. -/
theorem ensures_accept (edge : FlowEdge) (d : D) (answer : List (D × W)) :
    Ensures (Failure.Excused I₀) (accept S edge d answer)
      (fun ts s' => Quiet S s s' ∧ ts = S.effective d answer) s := by
  unfold accept
  refine Ensures.modify_bind ?_
  have hquiet : Quiet S s (s.intern (answer.map Prod.fst)) := .aside ..
  split
  · refine Ensures.modify_bind (Ensures.pure ⟨?_, rfl⟩)
    exact hquiet.trans (.aside ..)
  · exact Ensures.pure ⟨hquiet, rfl⟩

/-- Evaluating a flow function is quiet and yields its targets. First
its requests are served, by which call sites may get further callees. -/
theorem ensures_evaluate (hsteady : S.IsSteady) (edge : FlowEdge) (d : D)
    (answer : Except Fault (List (D × W))) :
    Ensures (Failure.Excused I₀) (evaluate S edge d answer)
      (fun ts s' => Quiet S s s' ∧ ts = S.targets d answer) s := by
  unfold evaluate
  refine Ensures.modify_bind ?_
  have hcount : Quiet S s { s with evaluations := s.evaluations + 1 } :=
    .aside ..
  have hserve := hcount.trans (quiet_serveAll hsteady s.evaluations edge d)
  refine (ensures_ask answer).bind fun a s' h => ?_
  obtain ⟨rfl, rfl⟩ := h
  refine (ensures_accept edge d a).mono fun ts s' h => ?_
  obtain ⟨hquiet, rfl⟩ := h
  exact ⟨hserve.trans hquiet, rfl⟩

/-- So is the flow inside a procedure, which is not evaluated at all
where the problem says that it is the identity. -/
theorem ensures_normalFlow (hsteady : S.IsSteady) (node succ : Node) (d : D) :
    Ensures (Failure.Excused I₀) (normalFlow S node succ d)
      (fun ts s' => Quiet S s s' ∧ ts = S.normalTargets node succ d) s := by
  unfold normalFlow Setup.normalTargets
  refine (ensures_ask _).bind fun isIdentity s' h => ?_
  obtain ⟨rfl, hident⟩ := h
  rw [hident]
  cases isIdentity with
  | true => exact ensures_accept _ d _
  | false => exact ensures_evaluate hsteady _ d _

/-- So is the flow back from an exit. -/
theorem ensures_returnFlow (hsteady : S.IsSteady) (site : Node) (callee : Proc)
    (exit returnSite : Node) (exitFact callFact : D) :
    Ensures (Failure.Excused I₀)
      (returnFlow S site callee exit returnSite exitFact callFact)
      (fun ts s' => Quiet S s s' ∧
        ts = S.returnTargets site callee exit returnSite exitFact callFact) s :=
  ensures_evaluate hsteady _ exitFact _

-- ============================================================== call flows

variable [DecidableEq L]

/-- Putting a call flow on record keeps tables sound. It is what the
rules have for that call, and no other call flow changes. -/
private theorem advances_insert_callFlow (hle : S.IsGrowthOrder le)
    (hs : Sound S I₀ s) {site start : Node} {callee : Proc}
    (henter : (S.view s.graph).Enters site callee start) (d : D)
    (hnew : s.callFlows.get? site (callee, d) = none) :
    Advances S le I₀ s
      { s with
        callFlows :=
          s.callFlows.insert site (callee, d)
            (S.callTargets site callee start d) } := by
  have hget : ∀ {c : Node} {k : Proc × D} {ts : List (D × W)},
      s.callFlows.get? c k = some ts →
      (s.callFlows.insert site (callee, d)
        (S.callTargets site callee start d)).get? c k = some ts := by
    intro c k ts h
    rw [Grid.get?_insert, if_neg]
    · exact h
    · intro hk
      obtain ⟨rfl, rfl⟩ := hk
      rw [hnew] at h
      cases h
  refine ⟨⟨.of_eq hle rfl rfl rfl, fun e => Or.inl rfl, id, id, hget, rfl, rfl,
    rfl⟩, ⟨hs.origin, hs.jump, hs.worklist, hs.summary, ?_, ?_, hs.known⟩⟩
  · intro c g d' ts h
    rw [Grid.get?_insert] at h
    split at h
    next hk =>
      obtain ⟨rfl, hk⟩ := hk
      obtain ⟨rfl, rfl⟩ := Prod.mk.injEq .. ▸ hk
      cases h
      exact ⟨start, henter, rfl⟩
    next => exact hs.callFlow h
  · intro i hi
    obtain ⟨g, ts, hi', ht, hrest⟩ := hs.incoming hi
    exact ⟨g, ts, hi', hget ht, hrest⟩

/-- The flow into a callee is on record afterwards, whether it was
before or not. It is evaluated once for each fact at a call. -/
theorem ensures_callFlow (hle : S.IsGrowthOrder le) (hsteady : S.IsSteady)
    (hs : Sound S I₀ s) {site start : Node} {callee : Proc}
    (henter : (S.view s.graph).Enters site callee start) (d : D) :
    Ensures (Failure.Excused I₀) (callFlow S site callee start d)
      (fun ts s' => Advances S le I₀ s s' ∧
        ts = S.callTargets site callee start d ∧
        s'.callFlows.get? site (callee, d) = some ts) s := by
  unfold callFlow
  refine Ensures.get_bind ?_
  cases hget : s.callFlows.get? site (callee, d) with
  | some ts =>
    obtain ⟨start', henter', hts⟩ := hs.callFlow hget
    have hstart : start' = start := by
      have := henter'.start.symm.trans henter.start
      exact Option.some.inj this
    rw [hstart] at hts
    exact Ensures.pure ⟨hs.advances hle, hts, hget⟩
  | none =>
    refine (ensures_evaluate hsteady _ d _).bind fun ts s₁ h => ?_
    obtain ⟨hquiet, hts⟩ := h
    refine Ensures.modify_bind (Ensures.pure ?_)
    have hnew : s₁.callFlows.get? site (callee, d) = none := by
      rw [hquiet.callFlows]
      exact hget
    have hadd := advances_insert_callFlow hle (hs.quiet hquiet)
      (hquiet.view.enters henter) d hnew
    subst hts
    exact ⟨(hquiet.advances hle hs).trans hle hadd, rfl,
        Grid.get?_insert_self ..⟩

end Tabulation.Solver
