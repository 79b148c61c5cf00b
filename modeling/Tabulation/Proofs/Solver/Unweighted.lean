/-
Problems in which every edge carries the identity.

A reachability problem is solved as a problem with values, but its edge
functions say nothing. All that is composed is the identity, and all
joins are joins of the identity with itself. So the tables hold no
other function, and no jump function is ever replaced (`Unweighted`).

This is kept by each computation of the first phase, whatever the graph
is like and whether or not there are requests. Failures do not matter.
-/
import Tabulation.Problem.Reachability
import Tabulation.Proofs.Solver.Turns

namespace Tabulation

variable {D W L : Type}

/-- Every edge carries the identity. -/
structure Setup.IsUnweighted (S : Setup D W L) : Prop where
  comp_identity : S.comp S.identity S.identity = S.identity
  join_identity : S.problem.functions.join S.identity S.identity = S.identity
  flow : ∀ {edge d answer}, S.problem.flow edge d = .ok answer →
    ∀ t ∈ answer, t.2 = S.identity
  returnFlow : ∀ {edge d callFact answer}, S.problem.returnFlow edge d
    callFact = .ok answer → ∀ t ∈ answer, t.2 = S.identity

/-- A reachability problem attaches the identity to every fact, so it
is of this kind. -/
theorem ReachabilityProblem.isUnweighted (R : ReachabilityProblem D)
    (config : Config) (view : FlowGraph → Icfg) (world : World) :
    Setup.IsUnweighted { problem := R.toProblem, config, view, world } := by
  have hweight :
      ∀ {facts : Except Fault (List D)} {answer : List (D × BinaryEdge)},
      facts.map (fun facts => FlowFunction.withWeight facts .identity) =
      .ok answer → ∀ t ∈ answer, t.2 = BinaryEdge.identity := by
    intro facts answer h t ht
    cases facts with
    | error fault => cases h
    | ok facts =>
      cases h
      obtain ⟨_, _, rfl⟩ := List.mem_map.mp ht
      rfl
  exact ⟨rfl, rfl, hweight, hweight⟩

variable [DecidableEq D]

/-- A flow yields nothing but identities if it was answered with
nothing else. -/
theorem Setup.IsUnweighted.effective {S : Setup D W L} (hS : S.IsUnweighted)
    (d : D) {answer : List (D × W)} (h : ∀ t ∈ answer, t.2 = S.identity) :
    ∀ t ∈ S.effective d answer, t.2 = S.identity := by
  refine Setup.weight_of_mem_effective (Q := (· = S.identity))
    rfl (fun {v w} hv hw => ?_) h
  rw [hv, hw]
  exact hS.join_identity

namespace Solver

/-- The tables hold no function but the identity, and no jump function
was replaced. It is the invariant of the first phase. -/
structure Unweighted (S : Setup D W L) (s : State D W L) : Prop where
  jump : ∀ {e f}, s.jump? e = some f → f = S.identity
  summary : ∀ {k f}, s.summaries.get? k = some f → f = S.identity
  callFlow : ∀ {c k ts}, s.callFlows.get? c k = some ts →
    ∀ t ∈ ts, t.2 = S.identity
  updates : s.stats.jumpFunctionUpdates = 0

variable {S : Setup D W L} {s s' : State D W L}

/-- What else is written down is of no concern: the invariant reads
three tables and one counter. -/
theorem Unweighted.aside (hs : Unweighted S s) (hjumps : s'.jumps = s.jumps)
    (hsummaries : s'.summaries = s.summaries)
    (hflows : s'.callFlows = s.callFlows)
    (hupdates : s'.stats.jumpFunctionUpdates = s.stats.jumpFunctionUpdates) :
    Unweighted S s' where
  jump := by
    unfold State.jump?
    rw [hjumps]
    exact hs.jump
  summary := by
    rw [hsummaries]
    exact hs.summary
  callFlow := by
    rw [hflows]
    exact hs.callFlow
  updates := hupdates.trans hs.updates

-- ================================================================= asking

/-- A jump function that is read is the identity. -/
theorem unweighted_jumpFunction (hs : Unweighted S s) (e : PathEdge D) :
    Ensures (fun _ => True) (jumpFunction e : SolverM D W L W)
      (fun w s' => s' = s ∧ w = S.identity) s := by
  refine (ensures_jumpFunction_of (fun _ => trivial) e).mono fun w s' h => ?_
  exact ⟨h.1, hs.jump h.2⟩

/-- So is the function with which a callee was entered, which is looked
up in the call flows. -/
theorem unweighted_entryFunction (hs : Unweighted S s) (site : Node)
    (callee : Proc) (callFact entry : D) :
    Ensures (fun _ => True)
      (entryFunction site callee callFact entry : SolverM D W L W)
      (fun w s' => s' = s ∧ w = S.identity) s := by
  refine Ensures.get_bind ?_
  dsimp only
  split
  next t w hfind =>
    refine Ensures.pure ⟨rfl, ?_⟩
    have hmem := List.mem_of_find?_eq_some hfind
    cases hget : s.callFlows.get? site (callee, callFact) with
    | none =>
      rw [Grid.getD, hget] at hmem
      exact absurd hmem List.not_mem_nil
    | some ts =>
      rw [Grid.getD, hget] at hmem
      exact hs.callFlow hget _ hmem
  next => exact Ensures.throw trivial

section Following

variable (hS : S.IsUnweighted)

include hS

-- ================================================================== flows

/-- What is taken over from an answer is made of identities, zero
included. -/
theorem unweighted_accept (hs : Unweighted S s) (edge : FlowEdge) (d : D)
    {answer : List (D × W)} (h : ∀ t ∈ answer, t.2 = S.identity) :
    Ensures (fun _ => True) (accept S edge d answer)
      (fun ts s' => Unweighted S s' ∧ ∀ t ∈ ts, t.2 = S.identity) s := by
  unfold accept
  refine Ensures.modify_bind ?_
  refine Ensures.optional_bind fun s₁ h₁ => Ensures.pure ⟨?_, hS.effective d h⟩
  rcases h₁ with rfl | rfl
  · exact hs.aside rfl rfl rfl rfl
  · exact hs.aside rfl rfl rfl rfl

theorem unweighted_evaluate (hs : Unweighted S s) (edge : FlowEdge) (d : D)
    {answer : Except Fault (List (D × W))}
    (h : ∀ l, answer = .ok l → ∀ t ∈ l, t.2 = S.identity) :
    Ensures (fun _ => True) (evaluate S edge d answer)
      (fun ts s' => Unweighted S s' ∧ ∀ t ∈ ts, t.2 = S.identity) s := by
  unfold evaluate
  refine Ensures.modify_bind ?_
  have hserved : Unweighted S (served S s edge d) := by
    rw [served_eq]
    exact hs.aside rfl rfl rfl rfl
  refine (ensures_ask_of fun _ _ => trivial).bind fun l s₁ h₁ => ?_
  obtain ⟨rfl, hl⟩ := h₁
  exact unweighted_accept hS hserved edge d (h l hl)

theorem unweighted_normalFlow (hs : Unweighted S s) (node succ : Node) (d : D) :
    Ensures (fun _ => True) (normalFlow S node succ d)
      (fun ts s' => Unweighted S s' ∧ ∀ t ∈ ts, t.2 = S.identity) s := by
  unfold normalFlow
  refine (ensures_ask_of fun _ _ => trivial).bind fun isIdentity s₁ h₁ => ?_
  obtain ⟨rfl, _⟩ := h₁
  cases isIdentity with
  | true =>
    refine unweighted_accept hS hs _ d fun t ht => ?_
    rw [List.mem_singleton.mp ht]
  | false => exact unweighted_evaluate hS hs _ d fun _ => hS.flow

/-- A call flow is made of identities, whether it is found on record or
put there. -/
theorem unweighted_callFlow (hs : Unweighted S s) (site : Node) (callee : Proc)
    (start : Node) (d : D) :
    Ensures (fun _ => True) (callFlow S site callee start d)
      (fun ts s' => Unweighted S s' ∧ ∀ t ∈ ts, t.2 = S.identity) s := by
  unfold callFlow
  refine Ensures.get_bind ?_
  cases hget : s.callFlows.get? site (callee, d) with
  | some ts => exact Ensures.pure ⟨hs, hs.callFlow hget⟩
  | none =>
    refine (unweighted_evaluate hS hs _ d fun _ => hS.flow).bind
      fun ts s₁ h₁ => ?_
    refine Ensures.modify_bind
      (Ensures.pure ⟨⟨h₁.1.jump, h₁.1.summary, ?_, h₁.1.updates⟩, h₁.2⟩)
    intro c k us hus
    rw [Grid.get?_insert] at hus
    split at hus
    · cases hus
      exact h₁.2
    · exact h₁.1.callFlow hus

-- ============================================================ propagation

variable [DecidableEq W] [DecidableEq L]

/-- The identity changes no jump function: joined with what is there,
it gives the identity again. -/
theorem unweighted_propagate (hs : Unweighted S s) (e : PathEdge D)
    (origin : Option D) :
    Ensures (fun _ => True) (propagate S e S.identity origin)
      (fun _ s' => Unweighted S s') s := by
  refine (ensures_propagate_of origin fun _ _ _ _ => trivial).mono
    fun _ s' h => ?_
  rcases h with ⟨_, rfl⟩ | ⟨links, _, rfl⟩ | ⟨f, hf, _, hne, _⟩
  · refine ⟨fun {e' f} hf => ?_, hs.summary, hs.callFlow, hs.updates⟩
    rw [jump?_queued] at hf
    split at hf
    · exact (Option.some.inj hf).symm
    · exact hs.jump hf
  · exact hs.aside rfl rfl rfl rfl
  · rw [hs.jump hf] at hne
    exact absurd hS.join_identity hne

theorem unweighted_propagateAll (hs : Unweighted S s) (source : D) (node : Node)
    (origin : D) {ts : List (D × W)} (hts : ∀ t ∈ ts, t.2 = S.identity) :
    Ensures (fun _ => True) (propagateAll S source node S.identity origin ts)
      (fun _ s' => Unweighted S s') s := by
  unfold propagateAll
  refine Ensures.forM_keep hs fun t ht s₁ h₁ => ?_
  obtain ⟨d, w⟩ := t
  obtain rfl : w = S.identity := hts _ ht
  dsimp only
  rw [hS.comp_identity]
  exact unweighted_propagate hS h₁ _ _

/-- A flow is evaluated, and its targets are let be reached. -/
theorem unweighted_carry {flow : SolverM D W L (List (D × W))}
    (hflow : Ensures (fun _ => True) flow
      (fun ts s' => Unweighted S s' ∧ ∀ t ∈ ts, t.2 = S.identity) s)
    (source : D) (node : Node) (origin : D) :
    Ensures (fun _ => True)
      (flow >>= propagateAll S source node S.identity origin)
      (fun _ s' => Unweighted S s') s :=
  hflow.bind fun _ _ h => unweighted_propagateAll hS h.1 source node origin h.2

-- ================================================= following a path edge

theorem unweighted_processNormal (hs : Unweighted S s) (e : PathEdge D) :
    Ensures (fun _ => True) (processNormal S e)
      (fun _ s' => Unweighted S s') s := by
  unfold processNormal
  refine (unweighted_jumpFunction hs e).bind fun w s₁ h₁ => ?_
  obtain ⟨rfl, rfl⟩ := h₁
  refine Ensures.get_bind (Ensures.forM_keep hs fun m _ s₁ h₁ => ?_)
  exact unweighted_carry hS
    (unweighted_normalFlow hS h₁ e.node m e.target) _ _ _

/-- Compositions at a call are those of a jump function, a call flow, a
summary and a return flow, all four identities. -/
theorem unweighted_applySummaries (hs : Unweighted S s) (e : PathEdge D)
    (callee : Proc) (r : Node) (entry : D) :
    Ensures (fun _ => True) (applySummaries S e callee r entry S.identity)
      (fun _ s' => Unweighted S s') s := by
  unfold applySummaries
  refine Ensures.get_bind ?_
  dsimp only
  refine Ensures.optional_bind fun s₁ h₁ => ?_
  have hs₁ : Unweighted S s₁ := by
    rcases h₁ with rfl | rfl
    · exact hs
    · exact hs.aside rfl rfl rfl rfl
  refine Ensures.forM_keep hs₁ fun k hk s₂ h₂ => ?_
  have hw : k.2 = S.identity := hs.summary (State.mem_summariesOf.mp hk).1
  rw [hw, hS.comp_identity]
  exact unweighted_carry hS
    (unweighted_evaluate hS h₂ _ _ fun _ => hS.returnFlow) _ _ _

theorem unweighted_enter (hs : Unweighted S s) (e : PathEdge D) (callee : Proc)
    (start : Node) (r? : Option Node) {t : D × W} (ht : t.2 = S.identity) :
    Ensures (fun _ => True) (enter S e S.identity callee start r? t)
      (fun _ s' => Unweighted S s') s := by
  unfold enter
  refine (unweighted_propagate hS hs _ _).bind fun _ s₁ h₁ => ?_
  have hnoted : Ensures (fun _ => True)
      (noteEntry S ⟨start, t.1, e.node, e.target⟩)
      (fun _ s' => Unweighted S s') s₁ :=
    ensures_noteEntry_of _ fun _ _ _ => h₁.aside rfl rfl rfl rfl
  refine hnoted.bind fun _ s₂ h₂ => ?_
  cases r? with
  | none => exact Ensures.pure h₂
  | some r =>
    dsimp only
    rw [ht, hS.comp_identity]
    exact unweighted_applySummaries hS h₂ e callee r t.1

theorem unweighted_visitCallee (hs : Unweighted S s) (e : PathEdge D)
    (r? : Option Node) (fresh : List Proc) (callee : Proc) :
    Ensures (fun _ => True) (visitCallee S e S.identity r? fresh callee)
      (fun _ s' => Unweighted S s') s := by
  unfold visitCallee
  refine Ensures.get_bind ?_
  dsimp only
  split
  · split
    · exact Ensures.modify (hs.aside rfl rfl rfl rfl)
    · exact Ensures.pure hs
  next start _ =>
    refine (unweighted_callFlow hS hs e.node callee start e.target).bind
      fun ts s₁ h₁ => ?_
    exact Ensures.forM_keep h₁.1 fun t ht s₂ h₂ =>
      unweighted_enter hS h₂ e callee start r? (h₁.2 t ht)

theorem unweighted_processCall (hs : Unweighted S s) (e : PathEdge D) :
    Ensures (fun _ => True) (processCall S e)
      (fun _ s' => Unweighted S s') s := by
  unfold processCall
  refine (unweighted_jumpFunction hs e).bind fun w s₁ h₁ => ?_
  obtain ⟨rfl, rfl⟩ := h₁
  refine Ensures.get_bind (Ensures.get_bind (Ensures.modify_bind ?_))
  refine (Ensures.forM_keep (P := Unweighted S) ?_ fun callee _ s₂ h₂ =>
    unweighted_visitCallee hS h₂ e _ _ callee).bind fun _ s₂ h₂ => ?_
  · exact hs.aside rfl rfl rfl rfl
  · split
    · exact unweighted_carry hS
        (unweighted_evaluate hS h₂ _ _ fun _ => hS.flow) _ _ _
    · exact Ensures.pure h₂

/-- And so are the compositions at an exit, which are grouped the other
way. -/
theorem unweighted_returnTo (hs : Unweighted S s) (e : PathEdge D)
    (callee : Proc) (i : Incoming D) :
    Ensures (fun _ => True) (returnTo S e S.identity callee i)
      (fun _ s' => Unweighted S s') s := by
  unfold returnTo
  refine Ensures.get_bind ?_
  dsimp only
  split
  · exact Ensures.pure hs
  · refine (unweighted_entryFunction hs i.site callee i.callFact i.entry).bind
      fun w s₁ h₁ => ?_
    obtain ⟨rfl, rfl⟩ := h₁
    refine (unweighted_evaluate hS hs _ _ fun _ => hS.returnFlow).bind
      fun ts s₁ h₁ => ?_
    refine Ensures.get_bind (Ensures.forM_keep h₁.1 fun t ht s₂ h₂ => ?_)
    refine Ensures.forM_keep h₂ fun c hc s₃ h₃ => ?_
    have hjump : c.2 = S.identity := h₁.1.jump (State.mem_sourcesOf.mp hc)
    rw [h₁.2 t ht, hjump, hS.comp_identity, hS.comp_identity, hS.comp_identity]
    exact unweighted_propagate hS h₃ _ _

/-- A summary is the jump function at the exit. -/
theorem unweighted_processExit (hs : Unweighted S s) (e : PathEdge D) :
    Ensures (fun _ => True) (processExit S e)
      (fun _ s' => Unweighted S s') s := by
  unfold processExit
  refine (unweighted_jumpFunction hs e).bind fun w s₁ h₁ => ?_
  obtain ⟨rfl, rfl⟩ := h₁
  refine Ensures.get_bind ?_
  refine (ensures_askOf_of fun _ => trivial).bind fun callee s₁ h₁ => ?_
  obtain ⟨rfl, _⟩ := h₁
  split
  · exact Ensures.throw trivial
  · refine Ensures.modify_bind
      (Ensures.get_bind (Ensures.forM_keep ?_ fun i _ s₁ h₁ =>
      unweighted_returnTo hS h₁ e callee i))
    refine ⟨hs.jump, fun {k f} hk => ?_, hs.callFlow, hs.updates⟩
    rw [Table.get?_insert] at hk
    split at hk
    · exact (Option.some.inj hk).symm
    · exact hs.summary hk

theorem unweighted_process (hs : Unweighted S s) (e : PathEdge D) :
    Ensures (fun _ => True) (process S e) (fun _ s' => Unweighted S s') s := by
  unfold process
  refine Ensures.get_bind ?_
  split
  · exact unweighted_processCall hS hs e
  · refine (ensures_askOf_of fun _ => trivial).bind fun isExit s₁ h₁ => ?_
    obtain ⟨rfl, _⟩ := h₁
    split
    · exact unweighted_processExit hS hs e
    · exact unweighted_processNormal hS hs e

-- =============================================================== the loop

theorem unweighted_turn (hs : Unweighted S s) :
    Ensures (fun _ => True) (turn S) (fun _ s' => Unweighted S s') s := by
  have hrelist : ∀ pending seen iterations rescans,
      Unweighted S (relisted s pending seen iterations rescans) :=
    fun _ _ _ _ => hs.aside rfl rfl rfl rfl
  exact ensures_turn_of hrelist fun e _ _ =>
    unweighted_process hS (hrelist ..) e

/-- What each turn keeps is kept by the loop. -/
theorem unweighted_tabulate (hs : Unweighted S s) (fuel : Nat) :
    Ensures (fun _ => True) (tabulate S fuel) (fun _ s' => Unweighted S s') s :=
  ensures_turns trivial (fun hs => (unweighted_turn hS hs).mono fun _ _ h =>
    ⟨fun _ => h, fun _ _ => h⟩) fuel hs

/-- Seeds are planted with the identity. -/
theorem unweighted_begin (graph : FlowGraph) :
    Ensures (fun _ => True) (begin S) (fun _ s' => Unweighted S s')
      (State.start S graph) := by
  have hstart : Unweighted S (State.start S graph) := by
    refine ⟨fun {e f} h => ?_, fun {k f} h => ?_, fun {c k ts} h => ?_, rfl⟩
    · cases h
    · cases h
    · cases h
  refine ensures_begin_of hstart (fun seed s hs => ?_) fun hs _ =>
    hs.aside rfl rfl rfl rfl
  unfold plant
  refine Ensures.modify_bind (unweighted_propagate hS ?_ _ _)
  exact hs.aside rfl rfl rfl rfl

end Following

variable [DecidableEq W] [DecidableEq L]

/-- Where every edge carries the identity, no jump function is ever
replaced. -/
theorem jumpFunctionUpdates_of_isUnweighted (hS : S.IsUnweighted) {fuel : Nat}
    {graph : FlowGraph} {r : Results D L}
    (hrun : (solve S fuel graph).1 = .ok r) :
    r.statistics.jumpFunctionUpdates = 0 := by
  obtain ⟨s₁, s₂, s₃, status, values, hbegin, hloop, hvalues, hreport, _⟩ :=
    parts_of_solve hrun
  have hs₂ := (unweighted_tabulate hS ((unweighted_begin hS graph).of_ok hbegin)
      fuel).of_ok hloop
  obtain ⟨_, rfl⟩ := eq_of_valuePhase hvalues
  obtain ⟨_, _, _, hstatistics, _⟩ := eq_of_report hreport
  rw [hstatistics]
  exact hs₂.updates

end Solver

end Tabulation
