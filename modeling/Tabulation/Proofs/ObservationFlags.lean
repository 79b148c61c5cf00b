/-
What a run takes note of does not change what it finds.

Three settings have no part in the following of path edges. Two of them
let a run keep notes: of exploded edges, and of the links between
facts. The third has every join probed, and the run fails if one of
them regresses.

# In step

A run with other flags is in step with the given one: at each moment
the two have the same tables but for their notes (`Alike`), and if they
fail they fail alike. The only exception is a join that regresses in a
run that probes its joins while the other does not. There is no way for
notes to get into a table: they are written, and never read before the
report.

Since keeping notes takes time, the two runs may be on different
clocks, as long as these call the time-out at the same iterations.
-/
import Tabulation.Proofs.Lockstep
import Tabulation.Proofs.Reachability
import Tabulation.Proofs.Solver.Settings

namespace Tabulation

variable {D W L : Type}

-- ================================================================== flags

/-- Which notes a run keeps, whether it probes its joins, and the clock
it is on. -/
structure Flags where
  edges : Bool
  links : Bool
  probes : Bool
  clock : Nat → Duration

/-- The same setup with other flags. Everything that decides what is
followed is left as it is. -/
def Setup.flagged (S : Setup D W L) (F : Flags) : Setup D W L :=
  { S with
    config := { S.config with
      recordEdges := F.edges
      trackLinks := F.links
      checkMonotonicity := F.probes }
    world := { S.world with elapsed := F.clock } }

/-- Whether a clock calls the time-out at an iteration. Two clocks may
differ and still agree on this. -/
def Config.isDue (config : Config) (clock : Nat → Duration) (count : Nat) :
    Bool :=
  config.timeout.any (·.nanoseconds ≤ (clock count).nanoseconds)

/-- Joins are probed only if they are in the setup, and the time-out is
called as there. -/
structure Flags.Fit (F : Flags) (S : Setup D W L) : Prop where
  probes : F.probes = true → S.config.checkMonotonicity = true
  clock : S.config.isDue F.clock = S.config.isDue S.world.elapsed

/-- A join was not above what it joins: of edge functions in the first
phase, or of values in the second. -/
inductive Failure.IsRegression : Failure D W L → Prop
  | function (node : Node) (d : D) (f g joined : W) :
      IsRegression (.rejected (.functionRegressed node d f g joined))
  | value (node : Node) (d : D) (v u joined : L) :
      IsRegression (.rejected (.valueRegressed node d v u joined))

/-- The two reports say the same, but for how long it took and what was
noted. Of the notes they have in common those that both runs were to
keep, or both were not. -/
structure Results.Echoes (r r' : Results D L) (sameEdges sameLinks : Prop) :
    Prop where
  rows : r'.rows = r.rows
  zero : r'.zero = r.zero
  bottom : r'.bottom = r.bottom
  status : r'.status = r.status
  statistics : r'.statistics =
    { r.statistics with elapsed := r'.statistics.elapsed }
  exploded : sameEdges → r'.exploded = r.exploded
  neighbors : sameLinks → r'.neighbors = r.neighbors
  contexts : sameLinks → r'.contexts = r.contexts

/-- A failure that a setup has and that does not show under the flags,
since joins are probed in the setup only. -/
structure Setup.OwnFailure (S : Setup D W L) (F : Flags)
    (failure : Failure D W L) : Prop where
  probed : S.config.checkMonotonicity = true
  unprobed : F.probes = false
  isRegression : failure.IsRegression

/-- What an answer is taken to yield does not depend on the flags. -/
theorem Setup.effective_flagged [DecidableEq D] (S : Setup D W L) (F : Flags) :
    (S.flagged F).effective = S.effective := by
  have hmerge : (S.flagged F).mergeTarget = S.mergeTarget := by
    funext ts t
    exact mergeTarget_congr (S := S) (T := S.flagged F) rfl ts t
  funext d answer
  unfold Setup.effective
  rw [hmerge]
  rfl

namespace Solver

/-- The same tables but for the notes. Notes are the same if both runs
are to keep them, or both are not. -/
inductive Alike (S : Setup D W L) (F : Flags) (s : State D W L) :
    State D W L → Prop
  | mk (links : Links) (exploded : List (ExplodedEdge D))
      (hlinks : F.links = S.config.trackLinks → links = s.links)
      (hedges : F.edges = S.config.recordEdges → exploded = s.exploded) :
      Alike S F s { s with links := links, exploded := exploded }

/-- Two computations that are in step on tables that are alike: they
leave tables that are alike and answer the same, or they fail in the
same way, or the first one fails at a probe that the second does not
make. -/
def InStep {α : Type} (S : Setup D W L) (F : Flags) (x y : SolverM D W L α) :
    Prop :=
  ∀ s t, Alike S F s t → Lockstep (Alike S F) (S.OwnFailure F) (x s) (y t)

variable {S : Setup D W L} {F : Flags} {s t : State D W L} {α β : Type}

namespace Alike

variable (h : Alike S F s t)

include h

/-- One field after the other, what is no note is the same on both
sides. -/
theorem graph : t.graph = s.graph := by cases h; rfl

theorem facts : t.facts = s.facts := by cases h; rfl

theorem jumps : t.jumps = s.jumps := by cases h; rfl

theorem jump? [DecidableEq D] (e : PathEdge D) : t.jump? e = s.jump? e :=
  by cases h; rfl

theorem callFlows : t.callFlows = s.callFlows := by cases h; rfl

theorem incoming : t.incoming = s.incoming := by cases h; rfl

theorem known : t.known = s.known := by cases h; rfl

theorem worklist : t.worklist = s.worklist := by cases h; rfl

/-- Notes are the same only if both runs are to keep them, or both are
not. -/
theorem exploded (hedges : F.edges = S.config.recordEdges) :
    t.exploded = s.exploded := by
  cases h with
  | mk links exploded _ hexploded => exact hexploded hedges

theorem links (hlinks : F.links = S.config.trackLinks) : t.links = s.links := by
  cases h with
  | mk links exploded hnoted _ => exact hnoted hlinks

end Alike

theorem Alike.refl (S : Setup D W L) (F : Flags) (s : State D W L) :
    Alike S F s s :=
  .mk s.links s.exploded (fun _ => rfl) (fun _ => rfl)

/-- A change that has nothing to do with the notes leaves tables alike. -/
theorem Alike.map {g : State D W L → State D W L} (h : Alike S F s t)
    (hg : ∀ s links exploded,
      g { s with links := links, exploded := exploded } =
      { g s with links := links, exploded := exploded }) :
    Alike S F (g s) (g t) := by
  have hown := hg s s.links s.exploded
  cases h with
  | mk links exploded hlinks hedges =>
    rw [hg s links exploded]
    refine .mk links exploded (fun heq => ?_) (fun heq => ?_)
    · rw [hlinks heq]
      exact (congrArg State.links hown).symm
    · rw [hedges heq]
      exact (congrArg State.exploded hown).symm

/-- Tables stay alike whether or not edges are noted. There are four
cases, by which of the two runs is to note them. -/
theorem Alike.explode (h : Alike S F s t) (new : List (ExplodedEdge D)) :
    Alike S F (if S.config.recordEdges
      then { s with exploded := new ++ s.exploded } else s)
      (if F.edges then { t with exploded := new ++ t.exploded } else t) := by
  cases h with
  | mk links exploded hlinks hedges =>
    cases hS : S.config.recordEdges <;> cases hF : F.edges <;>
      rw [hS, hF] at hedges
    · exact .mk links exploded hlinks fun _ => hedges rfl
    · exact .mk links (new ++ exploded) hlinks
        fun heq => by rw [hS, hF] at heq; cases heq
    · exact .mk links exploded hlinks
        fun heq => by rw [hS, hF] at heq; cases heq
    · exact .mk links (new ++ exploded) hlinks fun _ =>
        congrArg (new ++ ·) (hedges rfl)

/-- Tables stay alike whether or not links are noted. -/
theorem Alike.link (h : Alike S F s t) (g : Links → Links) :
    Alike S F (if S.config.trackLinks then { s with links := g s.links } else s)
      (if F.links then { t with links := g t.links } else t) := by
  cases h with
  | mk links exploded hlinks hedges =>
    cases hS : S.config.trackLinks <;> cases hF : F.links <;>
      rw [hS, hF] at hlinks
    · exact .mk links exploded (fun _ => hlinks rfl) hedges
    · exact .mk (g links) exploded
        (fun heq => by rw [hS, hF] at heq; cases heq) hedges
    · exact .mk links exploded
        (fun heq => by rw [hS, hF] at heq; cases heq) hedges
    · exact .mk (g links) exploded (fun _ => congrArg g (hlinks rfl)) hedges

namespace InStep

/-- The next lemmas say that being in step passes through whatever
computations are put together from. -/
protected theorem pure (a : α) : InStep S F (pure a) (pure a) :=
  fun _ _ h => .pure h

protected theorem throw (failure : Failure D W L) :
    InStep S F (throw failure : SolverM D W L α) (throw failure) :=
      fun _ _ h => .throw h

protected theorem bind {x y : SolverM D W L α} {f g : α → SolverM D W L β}
    (h : InStep S F x y) (hfg : ∀ a, InStep S F (f a) (g a)) :
    InStep S F (x >>= f) (y >>= g) :=
  fun s t hst => (h s t hst).bind hfg

protected theorem forM {f g : β → SolverM D W L PUnit} (l : List β)
    (h : ∀ x, InStep S F (f x) (g x)) : InStep S F (l.forM f) (l.forM g) :=
  fun _ _ hst => .forM hst fun x _ => h x

/-- A choice has to be made by something that both runs see alike. -/
protected theorem ite {c : Prop} [Decidable c] {x y x' y' : SolverM D W L α}
    (h : InStep S F x y) (h' : InStep S F x' y') :
    InStep S F (if c then x else x') (if c then y else y') := by
  split
  · exact h
  · exact h'

/-- A change that has nothing to do with the notes. -/
protected theorem modify {g : State D W L → State D W L}
    (hg : ∀ s links exploded,
      g { s with links := links, exploded := exploded } =
      { g s with links := links, exploded := exploded }) :
      InStep S F (modify g) (modify g) :=
  fun _ _ h => .ok (h.map hg)

/-- A change that is made in one run and not in the other, as long as
it is to the notes. -/
theorem note {c c' : Prop} [Decidable c] [Decidable c']
    {g g' : State D W L → State D W L} {f f' : PUnit → SolverM D W L α}
    (hnote : ∀ s t, Alike S F s t →
      Alike S F (if c then g s else s) (if c' then g' t else t))
    (h : InStep S F (f ⟨⟩) (f' ⟨⟩)) :
    InStep S F (if c then modify g >>= f else f ⟨⟩)
      (if c' then modify g' >>= f' else f' ⟨⟩) := by
  intro s t hst
  have hnoted := h _ _ (hnote s t hst)
  by_cases hc : c <;> by_cases hc' : c' <;>
    simp only [hc, hc', if_true, if_false] at hnoted ⊢ <;> exact hnoted

/-- Tables that are alike are read alike, but for the notes. What is
done next may not depend on the notes. -/
theorem get_bind {f g : State D W L → SolverM D W L α}
    (h : ∀ s t, Alike S F s t →
      Lockstep (Alike S F) (S.OwnFailure F) (f s s) (g t t)) :
    InStep S F (get >>= f) (get >>= g) :=
  h

end InStep

open Values in
/-- Computations of the second phase that are in step. They see nothing
of the notes, so their tables are the same. -/
def ValuesInStep (S : Setup D W L) (F : Flags) (x y : ValueM D W L α) : Prop :=
  ∀ v, Lockstep Eq (S.OwnFailure F) (x v) (y v)

namespace ValuesInStep

open Values

protected theorem bind {x y : ValueM D W L α} {f g : α → ValueM D W L β}
    (h : ValuesInStep S F x y) (hfg : ∀ a, ValuesInStep S F (f a) (g a)) :
    ValuesInStep S F (x >>= f) (y >>= g) := by
  refine fun v => (h v).bind fun a v₁ v₂ heq => ?_
  subst heq
  exact hfg a v₁

protected theorem forM {f g : β → ValueM D W L PUnit} (l : List β)
    (h : ∀ x, ValuesInStep S F (f x) (g x)) : ValuesInStep S F (l.forM f)
      (l.forM g) := by
  refine fun v => .forM rfl fun x _ v₁ v₂ heq => ?_
  subst heq
  exact h x v₁

protected theorem ite {c : Prop} [Decidable c] {x y x' y' : ValueM D W L α}
    (h : ValuesInStep S F x y) (h' : ValuesInStep S F x' y') :
    ValuesInStep S F (if c then x else x') (if c then y else y') :=
  fun v => .ite (h v) (h' v)

theorem same (x : ValueM D W L α) : ValuesInStep S F x x := by
  intro v
  cases x v with
  | ok a v' => exact .ok rfl
  | error failure v' => exact .error rfl

end ValuesInStep

/-- Requests have nothing to do with the notes. -/
private theorem serveAll_noted (rs : List Request) (s : State D W L)
    (links : Links) (exploded : List (ExplodedEdge D)) :
    rs.foldl State.serve { s with links := links, exploded := exploded } =
      { rs.foldl State.serve s with links := links, exploded := exploded } := by
  induction rs generalizing s with
  | nil => rfl
  | cons r rs ih =>
    cases r with
    | resolve site target => exact ih (s.serve (.resolve site target))
    | cancel => exact ih (s.serve .cancel)

-- ================================================================= asking

/-- Both runs see the same graph. -/
theorem inStep_look : InStep S F (look S) (look (S.flagged F)) := by
  intro s t h
  show Lockstep _ _ (.ok (S.view s.graph) s) (.ok (S.view t.graph) t)
  rw [h.graph]
  exact .ok h

/-- A question is put to the problem, which the flags leave alone. -/
theorem inStep_ask (answer : Except Fault α) :
    InStep S F (ask answer : SolverM D W L α) (ask answer) := by
  cases answer with
  | ok a => exact .pure a
  | error fault => exact .throw _

theorem inStep_askOf (node : Node) (answer : Option α) :
    InStep S F (askOf node answer : SolverM D W L α) (askOf node answer) := by
  cases answer with
  | some a => exact .pure a
  | none => exact .throw _

variable [DecidableEq D]

/-- Gaps in the tables show in both runs. -/
theorem inStep_jumpFunction (e : PathEdge D) :
    InStep S F (jumpFunction e : SolverM D W L W) (jumpFunction e) := by
  refine InStep.get_bind fun s t h => ?_
  rw [h.jump?]
  cases s.jump? e with
  | some w => exact .pure h
  | none => exact .throw h

theorem inStep_entryFunction (site : Node) (callee : Proc)
    (callFact entry : D) :
    InStep S F (entryFunction site callee callFact entry : SolverM D W L W)
      (entryFunction site callee callFact entry) := by
  refine InStep.get_bind fun s t h => ?_
  dsimp only
  rw [h.callFlows]
  generalize List.find? _ _ = found
  cases found with
  | some t => exact .pure h
  | none => exact .throw h

-- ================================================================== flows

/-- Where the answer of a flow is taken over, one run may note edges
that the other does not. -/
theorem inStep_accept (edge : FlowEdge) (d : D) (answer : List (D × W)) :
    InStep S F (accept S edge d answer)
      (accept (S.flagged F) edge d answer) := by
  unfold accept
  rw [S.effective_flagged]
  refine InStep.bind (.modify fun _ _ _ => rfl) fun _ => ?_
  refine InStep.note (fun s t h => ?_) (.pure _)
  exact h.explode _

/-- Requests are made by number and not by what was noted, so both runs
serve the same ones. -/
theorem inStep_evaluate (edge : FlowEdge) (d : D)
    (answer : Except Fault (List (D × W))) :
    InStep S F (evaluate S edge d answer)
      (evaluate (S.flagged F) edge d answer) := by
  unfold evaluate
  refine InStep.bind (.modify fun s links exploded => ?_) fun _ => ?_
  · exact serveAll_noted _ { s with evaluations := s.evaluations + 1 }
      links exploded
  · exact (inStep_ask answer).bind (inStep_accept edge d)

theorem inStep_normalFlow (node succ : Node) (d : D) :
    InStep S F (normalFlow S node succ d)
      (normalFlow (S.flagged F) node succ d) := by
  unfold normalFlow
  refine (inStep_ask _).bind fun isIdentity => ?_
  cases isIdentity with
  | true => exact inStep_accept _ _ _
  | false => exact inStep_evaluate _ _ _

/-- Call flows on record are the same in both runs. -/
theorem inStep_callFlow (site : Node) (callee : Proc) (start : Node) (d : D) :
    InStep S F (callFlow S site callee start d)
      (callFlow (S.flagged F) site callee start d) := by
  unfold callFlow
  refine InStep.get_bind fun s t h => ?_
  rw [h.callFlows]
  cases s.callFlows.get? site (callee, d) with
  | some ts => exact .pure h
  | none =>
    refine Lockstep.bind (inStep_evaluate _ d _ s t h) fun ts => ?_
    exact InStep.bind (.modify fun _ _ _ => rfl) fun _ => .pure ts

theorem inStep_returnFlow (site : Node) (callee : Proc) (exit r : Node)
    (d callFact : D) :
    InStep S F (returnFlow S site callee exit r d callFact)
      (returnFlow (S.flagged F) site callee exit r d callFact) :=
  inStep_evaluate _ _ _

-- ============================================================ propagation

theorem inStep_enqueue (e : PathEdge D) (w : W) :
    InStep S F (enqueue e w : SolverM D W L Unit) (enqueue e w) :=
  .modify fun _ _ _ => rfl

/-- Here links between facts are noted, or not. -/
theorem inStep_noteMerge (d : D) (origin : Option D) :
    InStep S F (noteMerge S d origin) (noteMerge (S.flagged F) d origin) := by
  cases origin with
  | none => exact .pure _
  | some o =>
    refine InStep.note (fun s t h => ?_) (InStep.pure ())
    have hlink := h.link fun links =>
      links.addNeighbor (s.number d) (s.number o)
    cases h
    exact hlink

/-- And here, together with the caller, which is no note. -/
theorem inStep_noteEntry (i : Incoming D) :
    InStep S F (noteEntry S i) (noteEntry (S.flagged F) i) := by
  unfold noteEntry
  refine InStep.note (fun s t h => ?_) (InStep.get_bind fun s t h => ?_)
  · have hlink := h.link fun links =>
      links.addContext (s.number i.entry) (s.number i.callFact)
    cases h
    exact hlink
  · rw [h.incoming]
    refine InStep.ite ?_ (InStep.pure ()) s t h
    exact .modify fun _ _ _ => rfl

omit [DecidableEq D] in
/-- A probe fails in both runs, or in the one that makes it. The second
run makes no probe that the first does not. -/
private theorem lockstep_probe {σ : Type} {R : σ → σ → Prop} {s t : σ}
    (hF : F.Fit S) (passed : Bool) {failure : Failure D W L}
    (hfailure : failure.IsRegression) {x y : EStateM (Failure D W L) σ α}
    (h : R s t) (hrest : Lockstep R (S.OwnFailure F) (x s) (y t)) :
    Lockstep R (S.OwnFailure F)
      ((if S.config.checkMonotonicity && !passed then throw failure else x) s)
      ((if F.probes && !passed then throw failure else y) t) := by
  have hprobes := hF.probes
  cases passed with
  | true =>
    rw [Bool.not_true, Bool.and_false, Bool.and_false]
    exact hrest
  | false =>
    rw [Bool.not_false, Bool.and_true, Bool.and_true]
    cases hown : S.config.checkMonotonicity with
    | false =>
      rw [hown] at hprobes
      rw [Bool.eq_false_iff.mpr fun h => absurd (hprobes h) nofun]
      exact hrest
    | true =>
      cases hother : F.probes with
      | true => exact .throw h
      | false => exact .excused ⟨hown, hother, hfailure⟩

variable [DecidableEq W] [DecidableEq L]

/-- Joins are probed or not. If they are and the join regresses, this
is the one failure that may show in one run only. -/
theorem inStep_propagate (hF : F.Fit S) (e : PathEdge D) (w : W)
    (origin : Option D) :
    InStep S F (propagate S e w origin)
      (propagate (S.flagged F) e w origin) := by
  unfold propagate
  refine InStep.get_bind fun s t h => ?_
  rw [h.jump?]
  cases s.jump? e with
  | none => exact inStep_enqueue e w s t h
  | some previous =>
    refine lockstep_probe hF _ (.function ..) h ?_
    refine InStep.ite (inStep_noteMerge e.target origin) ?_ s t h
    exact InStep.bind (.modify fun _ _ _ => rfl) fun _ => inStep_enqueue e _

theorem inStep_propagateAll (hF : F.Fit S) (source : D) (node : Node)
    (through : W) (origin : D) (targets : List (D × W)) :
    InStep S F (propagateAll S source node through origin targets)
      (propagateAll (S.flagged F) source node through origin targets) :=
  .forM targets fun _ => inStep_propagate hF _ _ _

-- ================================================= following a path edge

theorem inStep_processNormal (hF : F.Fit S) (e : PathEdge D) :
    InStep S F (processNormal S e) (processNormal (S.flagged F) e) := by
  unfold processNormal
  refine (inStep_jumpFunction e).bind fun jump =>
    inStep_look.bind fun graph => ?_
  refine InStep.forM _ fun succ => ?_
  exact (inStep_normalFlow e.node succ e.target).bind fun targets =>
    inStep_propagateAll hF _ _ _ _ targets

theorem inStep_applySummaries (hF : F.Fit S) (e : PathEdge D) (callee : Proc)
    (r : Node) (entry : D) (through : W) :
    InStep S F (applySummaries S e callee r entry through)
      (applySummaries (S.flagged F) e callee r entry through) := by
  unfold applySummaries
  refine InStep.get_bind fun s t h => ?_
  have hsummaries :
      t.summariesOf callee entry = s.summariesOf callee entry := by
    cases h; rfl
  dsimp only
  rw [hsummaries]
  have hloop := InStep.forM (s.summariesOf callee entry) fun k =>
    InStep.bind
      (inStep_returnFlow e.node callee k.1.exit r k.1.exitFact e.target)
      (inStep_propagateAll hF e.source r (S.comp through k.2) e.target)
  exact InStep.ite (InStep.bind (.modify fun _ _ _ => rfl) fun _ => hloop)
    hloop s t h

theorem inStep_enter (hF : F.Fit S) (e : PathEdge D) (jump : W) (callee : Proc)
    (start : Node) (r? : Option Node) (target : D × W) :
    InStep S F (enter S e jump callee start r? target)
      (enter (S.flagged F) e jump callee start r? target) := by
  unfold enter
  refine (inStep_propagate hF _ _ _).bind fun _ =>
    (inStep_noteEntry _).bind fun _ => ?_
  cases r? with
  | some r => exact inStep_applySummaries hF e callee r _ _
  | none => exact .pure ()

theorem inStep_visitCallee (hF : F.Fit S) (e : PathEdge D) (jump : W)
    (r? : Option Node) (fresh : List Proc) (callee : Proc) :
    InStep S F (visitCallee S e jump r? fresh callee)
      (visitCallee (S.flagged F) e jump r? fresh callee) := by
  unfold visitCallee
  refine inStep_look.bind fun graph => ?_
  cases graph.start? callee with
  | none => exact InStep.ite (.modify fun _ _ _ => rfl) (.pure ())
  | some start =>
    refine (inStep_callFlow e.node callee start e.target).bind fun entries => ?_
    exact .forM entries (inStep_enter hF e jump callee start r?)

theorem inStep_processCall (hF : F.Fit S) (e : PathEdge D) :
    InStep S F (processCall S e) (processCall (S.flagged F) e) := by
  unfold processCall
  refine (inStep_jumpFunction e).bind fun jump =>
    inStep_look.bind fun graph => ?_
  refine InStep.get_bind fun s t h => ?_
  rw [h.known]
  refine InStep.bind (.modify fun _ _ _ => rfl) (fun _ => ?_) s t h
  refine InStep.bind (.forM _ (inStep_visitCallee hF e jump _ _)) fun _ => ?_
  cases graph.returnSite? e.node with
  | none => exact .pure ()
  | some r =>
    exact (inStep_evaluate _ _ _).bind fun targets =>
      inStep_propagateAll hF _ _ _ _ targets

theorem inStep_returnTo (hF : F.Fit S) (e : PathEdge D) (summary : W)
    (callee : Proc) (i : Incoming D) :
    InStep S F (returnTo S e summary callee i)
      (returnTo (S.flagged F) e summary callee i) := by
  unfold returnTo
  refine inStep_look.bind fun graph => ?_
  cases graph.returnSite? i.site with
  | none => exact .pure ()
  | some r =>
    refine (inStep_entryFunction _ _ _ _).bind fun entered => ?_
    refine (inStep_returnFlow _ _ _ _ _ _).bind fun targets =>
      InStep.get_bind fun s t h => ?_
    have hsources : t.sourcesOf i.site i.callFact =
        s.sourcesOf i.site i.callFact := by
      cases h
      rfl
    dsimp only
    rw [hsources]
    refine InStep.forM targets (fun target => ?_) s t h
    exact .forM _ fun caller => inStep_propagate hF _ _ _

theorem inStep_processExit (hF : F.Fit S) (e : PathEdge D) :
    InStep S F (processExit S e) (processExit (S.flagged F) e) := by
  unfold processExit
  refine (inStep_jumpFunction e).bind fun summary =>
    inStep_look.bind fun graph => ?_
  refine (inStep_askOf e.node _).bind fun callee => ?_
  cases graph.start? callee with
  | none => exact .throw _
  | some start =>
    refine InStep.bind (.modify fun _ _ _ => rfl) fun _ =>
      InStep.get_bind fun s t h => ?_
    have hcallers : t.callersOf start e.source =
        s.callersOf start e.source := by
      cases h
      rfl
    rw [hcallers]
    exact InStep.forM _ (inStep_returnTo hF e summary callee) s t h

/-- So a path edge is followed in step, whatever its node is. -/
theorem inStep_process (hF : F.Fit S) (e : PathEdge D) :
    InStep S F (process S e) (process (S.flagged F) e) := by
  unfold process
  refine inStep_look.bind fun graph => InStep.ite (inStep_processCall hF e) ?_
  refine (inStep_askOf e.node _).bind fun isExit => ?_
  exact InStep.ite (inStep_processExit hF e) (inStep_processNormal hF e)

-- =============================================================== the loop

omit [DecidableEq D] [DecidableEq W] [DecidableEq L] in
/-- The worklist is the same, so the same path edge is taken. -/
theorem inStep_next? : InStep S F (next? S) (next? (S.flagged F)) := by
  have horder : (S.flagged F).config.order = S.config.order := rfl
  intro s t h
  unfold next?
  rw [get_bind_apply, get_bind_apply, h.worklist, horder]
  cases S.config.order with
  | fifo =>
    cases s.worklist with
    | nil => exact .pure h
    | cons e rest =>
      cases h with
      | mk links exploded hlinks hedges =>
        exact .ok (.mk links exploded hlinks hedges)
  | lifo =>
    dsimp only
    cases s.worklist.getLast? with
    | none => exact .pure h
    | some e =>
      cases h with
      | mk links exploded hlinks hedges =>
        exact .ok (.mk links exploded hlinks hedges)

omit [DecidableEq D] [DecidableEq W] [DecidableEq L] in
/-- The clocks agree on when to stop, and the other reasons are the
same. -/
theorem Alike.stopReason? (hF : F.Fit S) (h : Alike S F s t) :
    Solver.stopReason? (S.flagged F) t = Solver.stopReason? S s := by
  have hreason : ∀ (S : Setup D W L) (s : State D W L),
      Solver.stopReason? S s = if s.cancelled || S.world.cancelled
      s.stats.worklistIterations then some .cancelled
      else if S.config.maxIterations.any (· ≤ s.stats.worklistIterations)
        then some .iterationLimit
      else if S.config.isDue S.world.elapsed s.stats.worklistIterations
        then some .timeout
      else none := fun _ _ => rfl
  have hdue : (S.flagged F).config.isDue (S.flagged F).world.elapsed =
      S.config.isDue S.world.elapsed := hF.clock
  rw [hreason, hreason, hdue]
  cases h
  rfl

omit [DecidableEq W] [DecidableEq L] in
/-- Looking for call sites that have grown reads the graph and the
known callees. -/
theorem inStep_rescan : InStep S F (rescan S) (rescan (S.flagged F)) := by
  intro s t h
  unfold rescan
  rw [get_bind_apply, get_bind_apply]
  cases h with
  | mk links exploded hlinks hedges =>
    refine Lockstep.ite (.pure (.mk links exploded hlinks hedges)) ?_
    exact .ok (.mk links exploded hlinks hedges)

/-- A turn is in step: it stops for the same reason, or takes the same
path edge. -/
theorem inStep_turn (hF : F.Fit S) :
    InStep S F (turn S) (turn (S.flagged F)) := by
  unfold turn
  refine inStep_next?.bind fun e? => ?_
  cases e? with
  | none =>
    refine inStep_rescan.bind fun found => ?_
    exact InStep.ite (.pure none) (.pure _)
  | some e =>
    refine InStep.get_bind fun s t h => ?_
    rw [h.stopReason? hF]
    cases Solver.stopReason? S s with
    | some reason =>
      exact InStep.bind (.modify fun _ _ _ => rfl) (fun _ => .pure _) s t h
    | none =>
      refine InStep.bind (.modify fun _ _ _ => rfl) (fun _ => ?_) s t h
      exact (inStep_process hF e).bind fun _ => .pure none

/-- So the loop is in step, by induction on the fuel. -/
theorem inStep_tabulate (hF : F.Fit S) (fuel : Nat) :
    InStep S F (tabulate S fuel) (tabulate (S.flagged F) fuel) := by
  induction fuel with
  | zero => exact .throw _
  | succ fuel ih =>
    unfold tabulate
    refine (inStep_turn hF).bind fun status? => ?_
    cases status? with
    | some status => exact .pure status
    | none => exact ih

-- ============================================================== beginning

theorem inStep_plant (hF : F.Fit S) (seed : Seed D L) :
    InStep S F (plant S seed) (plant (S.flagged F) seed) :=
  InStep.bind (.modify fun _ _ _ => rfl) fun _ => inStep_propagate hF _ _ _

theorem inStep_plantEntry (hF : F.Fit S) (p : Proc) :
    InStep S F (plantEntry S p) (plantEntry (S.flagged F) p) := by
  unfold plantEntry
  refine inStep_look.bind fun graph => ?_
  cases graph.start? p with
  | some start => exact inStep_plant hF _
  | none => exact .throw _

theorem inStep_plantSeed (hF : F.Fit S) (seed : Seed D L) :
    InStep S F (plantSeed S seed) (plantSeed (S.flagged F) seed) := by
  unfold plantSeed
  refine inStep_look.bind fun graph =>
    (inStep_askOf seed.node _).bind fun atStart => ?_
  exact InStep.ite (inStep_plant hF seed) (.throw _)

/-- And so is its beginning: the lattice is checked on the same
samples. -/
theorem inStep_begin (hF : F.Fit S) :
    InStep S F (begin S) (begin (S.flagged F)) := by
  unfold begin
  refine InStep.bind ?_ fun _ => ?_
  · unfold validate
    have hcheck : (S.flagged F).problem.lattice.violation?
        (S.flagged F).samples = S.problem.lattice.violation? S.samples := rfl
    rw [hcheck]
    cases S.problem.lattice.violation? S.samples with
    | some violation => exact .throw _
    | none => exact .pure ()
  · unfold plantAll
    have hplant : InStep S F (do
        S.problem.entries.forM (plantEntry S)
        S.problem.seeds.forM (plantSeed S)
        let graph ← look S
        modify fun s => { s with seenRevision := graph.revision }) (do
        S.problem.entries.forM (plantEntry (S.flagged F))
        S.problem.seeds.forM (plantSeed (S.flagged F))
        let graph ← look (S.flagged F)
        modify fun s => { s with seenRevision := graph.revision }) :=
      (InStep.forM _ (inStep_plantEntry hF)).bind fun _ =>
        (InStep.forM _ (inStep_plantSeed hF)).bind fun _ =>
          inStep_look.bind fun _ => .modify fun _ _ _ => rfl
    exact InStep.ite (InStep.bind (.throw _) fun _ => hplant) hplant

-- ================================================================= values

section Values

open Values

omit [DecidableEq W]

/-- Joins of values are probed too. -/
theorem inStep_reach (hF : F.Fit S) (node : Node) (d : D) (v : L) :
    ValuesInStep S F (reach S node d v) (reach (S.flagged F) node d v) := by
  unfold reach
  refine ValuesInStep.bind (.same _) fun vs => ?_
  cases vs.values.get? node d with
  | none => exact .same _
  | some previous =>
    exact fun vs' => lockstep_probe hF _ (.value ..)
      rfl (ValuesInStep.same _ vs')

theorem inStep_carryToCalls (hF : F.Fit S) (h : Alike S F s t) (graph : Icfg)
    (node : Node) (d : D) (v : L) :
    ValuesInStep S F (carryToCalls S s graph node d v)
      (carryToCalls (S.flagged F) t graph node d v) := by
  have htargets : t.targetsOf d = s.targetsOf d := by
    cases h
    rfl
  unfold carryToCalls
  rw [htargets]
  refine ValuesInStep.bind (.same _) fun proc =>
    ValuesInStep.forM _ fun site => ?_
  exact .forM _ fun _ => inStep_reach hF _ _ _

theorem inStep_carryToCallees (hF : F.Fit S) (h : Alike S F s t) (graph : Icfg)
    (site : Node) (d : D) (v : L) :
    ValuesInStep S F (carryToCallees S s graph site d v)
      (carryToCallees (S.flagged F) t graph site d v) := by
  have hknown : t.knownCallees site = s.knownCallees site := by
    cases h
    rfl
  unfold carryToCallees
  rw [hknown, h.callFlows]
  refine ValuesInStep.forM _ fun callee => ?_
  cases graph.start? callee with
  | none => exact .same _
  | some start => exact .forM _ fun _ => inStep_reach hF _ _ _

/-- Values are carried on along tables that are alike. -/
theorem inStep_carry (hF : F.Fit S) (h : Alike S F s t) (node : Node) (d : D) :
    ValuesInStep S F (carry S s node d) (carry (S.flagged F) t node d) := by
  have hgraph : (S.flagged F).view t.graph = S.view s.graph :=
    congrArg S.view h.graph
  unfold carry
  refine ValuesInStep.bind (.same _) fun vs => ?_
  cases vs.values.get? node d with
  | none => exact .same _
  | some v =>
    dsimp only
    rw [hgraph]
    have hcallees : ValuesInStep S F
        (if (S.view s.graph).isCall node then carryToCallees S s
          (S.view s.graph) node d v
          else pure ())
        (if (S.view s.graph).isCall node then
            carryToCallees (S.flagged F) t (S.view s.graph) node d v
          else pure ()) := .ite
            (inStep_carryToCallees hF h _ node d v) (.same _)
    refine ValuesInStep.bind (.same _) fun atStart => ?_
    exact .ite (.bind (inStep_carryToCalls hF h _ node d v) fun _ => hcallees)
      hcallees

/-- The loop of the second phase, again by induction on the fuel. -/
theorem inStep_settle (hF : F.Fit S) (h : Alike S F s t) (fuel : Nat) :
    ValuesInStep S F (settle S s fuel) (settle (S.flagged F) t fuel) := by
  induction fuel with
  | zero => exact .same _
  | succ fuel ih =>
    unfold settle
    refine ValuesInStep.bind (.same _) fun vs => ?_
    cases vs.pending with
    | nil => exact .same _
    | cons next rest =>
      exact .bind (.same _) fun _ => .bind (inStep_carry hF h _ _) fun _ => ih

omit [DecidableEq L] in
private theorem valuesAtTargets_flagged (h : Alike S F s t)
    (values : Grid Node D L) (cells : List (Node × (D × D) × W)) :
    valuesAtTargets (S.flagged F) t values cells = valuesAtTargets S s
      values cells := by
  have hvalue : valueOf? (S.flagged F) t values = valueOf? S s values := by
    cases h
    rfl
  induction cells with
  | nil => rfl
  | cons cell cells ih =>
    unfold valuesAtTargets
    rw [ih, hvalue]

/-- The whole second phase. -/
theorem inStep_compute (hF : F.Fit S) (h : Alike S F s t) (fuel : Nat) :
    ValuesInStep S F (compute S s fuel) (compute (S.flagged F) t fuel) := by
  have hseeds : t.seeds = s.seeds := by
    cases h
    rfl
  unfold compute
  rw [hseeds]
  refine .bind (.forM _ fun seed => inStep_reach hF _ _ _) fun _ =>
    .bind (inStep_settle hF h fuel) fun _ => ?_
  unfold spread
  refine ValuesInStep.bind (.same _) fun vs => ?_
  rw [valuesAtTargets_flagged h, h.jumps]
  cases valuesAtTargets S s vs.values s.jumps.cells with
  | error failure => exact .same _
  | ok found => exact .forM _ fun _ => inStep_reach hF _ _ _

end Values

omit [DecidableEq W] in
theorem inStep_valuePhase (hF : F.Fit S) (fuel : Nat) (status : Status) :
    InStep S F (valuePhase S fuel status)
      (valuePhase (S.flagged F) fuel status) := by
  unfold valuePhase
  refine InStep.ite (InStep.get_bind fun s t h => ?_) (.pure none)
  have hvalues := inStep_compute hF h fuel {}
  generalize Values.compute S s fuel {} = outcome at hvalues
  generalize Values.compute (S.flagged F) t fuel {} = outcome' at hvalues
  cases hvalues with
  | ok heq =>
    subst heq
    exact InStep.bind (.modify fun _ _ _ => rfl) (fun _ => .pure _) s t h
  | error _ => exact .throw h
  | excused hown => exact .excused hown

-- ============================================================ the report

omit [DecidableEq W] [DecidableEq L] in
/-- Tables that are alike make the same report, or none for the same
reason. The notes go into the report and nowhere else. -/
theorem Alike.report (h : Alike S F s t) (status : Status)
    (values : Option (Grid Node D L)) :
    (∃ fault, report S status values s = .error (.fault fault) s ∧
        report (S.flagged F) status values t = .error (.fault fault) t) ∨
      ∃ r r', report S status values s = .ok r s ∧
        report (S.flagged F) status values t = .ok r' t ∧
        r.Echoes r' (F.edges = S.config.recordEdges)
          (F.links = S.config.trackLinks) := by
  unfold Solver.report
  rw [get_bind_apply, get_bind_apply]
  have hrows : Results.assembleRows ((S.flagged F).view t.graph)
      (reportedValue (S.flagged F) values) t.jumps =
        Results.assembleRows (S.view s.graph) (reportedValue S values)
          s.jumps := by
    cases h
    rfl
  rw [hrows]
  cases Results.assembleRows (S.view s.graph) (reportedValue S values)
    s.jumps with
  | error fault => exact Or.inl ⟨fault, rfl, rfl⟩
  | ok rows =>
    refine Or.inr ⟨_, _, rfl, rfl, rfl, rfl, rfl, rfl, ?_, fun heq => ?_,
      fun heq => ?_, fun heq => ?_⟩
    · cases h
      rfl
    · exact congrArg List.reverse (h.exploded heq)
    · show Results.resolveLinks t.facts t.links.neighbors = _
      rw [h.facts, h.links heq]
    · show Results.resolveLinks t.facts t.links.contexts = _
      rw [h.facts, h.links heq]

/-- All of a run but its report. Up to here two runs are in step; the
reports are compared by themselves, since they are not the same. -/
def search (S : Setup D W L) (fuel : Nat) :
    SolverM D W L (Status × Option (Grid Node D L)) := do
  begin S
  let status ← tabulate S fuel
  let values ← valuePhase S fuel status
  return (status, values)

private theorem run_eq_search (S : Setup D W L) (fuel : Nat) :
    run S fuel = search S fuel >>= fun found => report S found.1 found.2 := by
  unfold run search begin
  simp only [bind_assoc, pure_bind]

theorem inStep_search (hF : F.Fit S) (fuel : Nat) :
    InStep S F (search S fuel) (search (S.flagged F) fuel) :=
  (inStep_begin hF).bind fun _ => (inStep_tabulate hF fuel).bind fun status =>
    (inStep_valuePhase hF fuel status).bind fun _ => .pure _

/-- A run with other flags ends as the given one, unless that fails at
a join and the other does not probe joins. -/
private theorem solve_flagged (hF : F.Fit S) (fuel : Nat) (graph : FlowGraph) :
    (∃ failure, (solve S fuel graph).1 = .error failure ∧
      S.OwnFailure F failure) ∨
      ((solve (S.flagged F) fuel graph).2 = (solve S fuel graph).2 ∧
        ((∃ failure, (solve S fuel graph).1 = .error failure ∧
            (solve (S.flagged F) fuel graph).1 = .error failure) ∨
          ∃ r r', (solve S fuel graph).1 = .ok r ∧
            (solve (S.flagged F) fuel graph).1 = .ok r' ∧
            r.Echoes r' (F.edges = S.config.recordEdges)
            (F.links = S.config.trackLinks))) := by
  have hstart : State.start (S.flagged F) graph = State.start S graph := rfl
  have hsearch :=
    inStep_search hF fuel _ _ (Alike.refl S F (State.start S graph))
  unfold solve
  rw [run_eq_search, run_eq_search, hstart]
  cases hx : search S fuel (State.start S graph) with
  | error failure s =>
    rw [bind_of_error hx]
    rw [hx] at hsearch
    cases hy : search (S.flagged F) fuel (State.start S graph) with
    | error failure' t =>
      rw [bind_of_error hy]
      rw [hy] at hsearch
      cases hsearch with
      | error h => exact Or.inr ⟨h.graph, Or.inl ⟨failure, rfl, rfl⟩⟩
      | excused hown => exact Or.inl ⟨failure, rfl, hown⟩
    | ok found t =>
      rw [hy] at hsearch
      cases hsearch with
      | excused hown => exact Or.inl ⟨failure, rfl, hown⟩
  | ok found s =>
    rw [bind_of_ok hx]
    rw [hx] at hsearch
    cases hy : search (S.flagged F) fuel (State.start S graph) with
    | error failure t =>
      rw [hy] at hsearch
      cases hsearch
    | ok found' t =>
      rw [bind_of_ok hy]
      rw [hy] at hsearch
      cases hsearch with
      | ok h =>
        -- the report reads the flags once more, in what it hands out
        rcases h.report found.1 found.2 with ⟨fault, hr, hr'⟩ | ⟨r, r', hr,
            hr', hechoes⟩
        · rw [hr, hr']
          exact Or.inr ⟨h.graph, Or.inl ⟨_, rfl, rfl⟩⟩
        · rw [hr, hr']
          exact Or.inr ⟨h.graph, Or.inr ⟨r, r', rfl, rfl, hechoes⟩⟩

/-- Whatever notes a run is to keep, it fails for the same reason or
reports the same, as long as it is not stopped at another iteration.
And what a run reports that probes its joins, it reports without
probing them as well. -/
theorem flags_do_not_influence (S : Setup D W L) (fuel : Nat)
    (graph : FlowGraph) (clock : Nat → Duration)
    (hclock : S.config.isDue clock = S.config.isDue S.world.elapsed) :
    (∀ edges links,
      (solve (S.flagged ⟨edges, links, S.config.checkMonotonicity, clock⟩) fuel
        graph).2 = (solve S fuel graph).2 ∧
      ((∃ failure, (solve S fuel graph).1 = .error failure ∧
          (solve (S.flagged ⟨edges, links, S.config.checkMonotonicity, clock⟩)
            fuel graph).1 = .error failure) ∨
        ∃ r r', (solve S fuel graph).1 = .ok r ∧
          (solve (S.flagged ⟨edges, links, S.config.checkMonotonicity, clock⟩)
            fuel graph).1 = .ok r' ∧
          r.Echoes r' (edges = S.config.recordEdges)
            (links = S.config.trackLinks))) ∧
    ∀ r, (solve S fuel graph).1 = .ok r →
      ∃ r',
        (solve (S.flagged ⟨S.config.recordEdges, S.config.trackLinks, false,
        clock⟩) fuel graph).1 = .ok r' ∧ r.Echoes r' True True := by
  constructor
  · intro edges links
    have hfit : Flags.Fit ⟨edges, links, S.config.checkMonotonicity, clock⟩ S :=
      ⟨id, hclock⟩
    rcases solve_flagged hfit fuel graph with ⟨failure, _, hown⟩ | hsame
    · -- both runs probe their joins, or neither does
      exact absurd (hown.probed.symm.trans hown.unprobed) nofun
    · exact hsame
  · intro r hr
    have hfit : Flags.Fit ⟨S.config.recordEdges, S.config.trackLinks, false,
      clock⟩ S := ⟨nofun, hclock⟩
    rcases solve_flagged hfit fuel graph with ⟨failure, hfail, _⟩ |
      ⟨_, ⟨failure, hfail, _⟩ | ⟨r₁, r', hr₁, hr', hechoes⟩⟩
    · cases hr.symm.trans hfail
    · cases hr.symm.trans hfail
    · cases hr.symm.trans hr₁
      exact ⟨r', hr', hechoes.rows, hechoes.zero, hechoes.bottom,
        hechoes.status, hechoes.statistics, fun _ => hechoes.exploded rfl,
        fun _ => hechoes.neighbors rfl, fun _ => hechoes.contexts rfl⟩

/-- A clock that goes on by a nanosecond an iteration. -/
def tick (count : Nat) : Duration := ⟨count⟩

/-- On `twoCalls`, one run keeps notes and takes its time, the other
does neither, and they find the same. -/
theorem flags_do_not_influence_twoCalls :
    ∃ r r', (solve twoCallsSetup 100 twoCalls.build.graph).1 = .ok r ∧
      (solve (twoCallsSetup.flagged ⟨true, true, true, tick⟩) 100
        twoCalls.build.graph).1 =
        .ok r' ∧
      r.exploded = [] ∧ r'.exploded.length = 18 ∧
      r'.statistics.elapsed = tick 16 ∧ r.Echoes r' False False := by
  have heval : (solve twoCallsSetup 100 twoCalls.build.graph).1.toOption.map
      (·.exploded.isEmpty) = some true := by decide +kernel
  have hnoted : (solve (twoCallsSetup.flagged ⟨true, true, true, tick⟩) 100
      twoCalls.build.graph).1.toOption.map
        (fun r => (r.exploded.length, r.statistics.elapsed)) =
          some (18, tick 16) := by
    decide +kernel
  obtain ⟨r, hr, hempty⟩ := exists_ok_of_map heval
  obtain ⟨r', hr', hlength⟩ := exists_ok_of_map hnoted
  have hdue : twoCallsSetup.config.isDue tick =
      twoCallsSetup.config.isDue twoCallsSetup.world.elapsed := rfl
  obtain ⟨hsame, -⟩ :=
    flags_do_not_influence twoCallsSetup 100 twoCalls.build.graph tick hdue
  rcases (hsame true true).2 with ⟨failure, hfail, -⟩ | ⟨r₁, r₁', hr₁,
      hr₁', hechoes⟩
  · cases hr.symm.trans hfail
  · cases hr.symm.trans hr₁
    cases hr'.symm.trans hr₁'
    exact ⟨r, r', hr, hr', List.isEmpty_iff.1 hempty, congrArg Prod.fst hlength,
      congrArg Prod.snd hlength, hechoes.rows, hechoes.zero, hechoes.bottom,
      hechoes.status, hechoes.statistics, nofun, nofun, nofun⟩

end Solver

end Tabulation
