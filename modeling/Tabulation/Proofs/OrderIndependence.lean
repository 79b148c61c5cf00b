/-
The analyses of the example language do not depend on the order of the
worklist.

Oldest first or newest first, both runs come to their ends
(`Termination`). They are twins, so what they have found is the same
(`Determinacy`). What is left to see is that the analyses are
determinate.

# Linear constants

Codes and values form an ordered algebra (`OrderedAlgebra`), and calls
and returns are crossed by the identity.

# Reachability

There are three codes in a chain, and flow functions use the identity
only.
-/
import Tabulation.Proofs.OrderedAlgebra
import Tabulation.Proofs.Termination

namespace Tabulation

-- ======================================================== linear constants

namespace LinearConstants

/-- Calls and returns of linear constant propagation are crossed by the
identity, so a run of it has one outcome only. -/
private theorem isDeterminate (P : Program) (entries : List Proc)
    (seeds : List (Seed LocalFact ConstValue))
    (requests : Nat → FlowEdge → LocalFact → List Request) (config : Config)
    (world : World) (I : Icfg) :
    (seeded P entries seeds requests config world).IsDeterminate I := by
  refine Setup.isDeterminate_of_identity LinearEdge.isOrdered
    ConstValue.isSemilattice LinearEdge.eval_mono ?_ ?_ I
  · intro c g start d t ht
    refine Setup.identity_of_mem_targets LinearEdge.isOrdered
      (fun l hl u hu => ?_) ht
    obtain ⟨s, _, h⟩ := Program.exists_stmt_of_bind hl
    cases h
    exact snd_of_mem_callFlow hu
  · intro c g x r d callFact t ht
    refine Setup.identity_of_mem_targets LinearEdge.isOrdered
      (fun l hl u hu => ?_) ht
    obtain ⟨s, _, h⟩ := Program.exists_stmt_of_bind hl
    obtain ⟨sx, _, h⟩ := Program.exists_stmt_of_bind h
    cases h
    exact snd_of_mem_returnFlow hu

end LinearConstants

-- ============================================================ reachability

namespace BinaryEdge

variable {L : Type} {V : ValueLattice L}

/-- The function to the bottom is below all others. -/
private theorem allBottom_le (f : BinaryEdge) :
    (functions V).Le allBottom f := by
  cases f <;> rfl

/-- The function to the top is above all others. -/
private theorem le_allTop (f : BinaryEdge) : (functions V).Le f allTop := by
  cases f <;> rfl

/-- Composition keeps the order of codes, on both sides. -/
private theorem comp_mono {f f' g g' : BinaryEdge} (hf : (functions V).Le f f')
    (hg : (functions V).Le g g') :
    (functions V).Le (comp f g) (comp f' g') := by
  cases g with
  | allBottom => exact allBottom_le _
  | allTop =>
    cases g' with
    | allTop => rfl
    | _ => cases hg
  | identity =>
    cases g' with
    | allBottom => cases hg
    | identity => exact hf
    | allTop => exact le_allTop _

/-- The three codes form an ordered algebra. -/
private theorem isOrdered (V : ValueLattice L) : (functions V).IsOrdered where
  join_assoc := fun f g h => by cases f <;> cases g <;> cases h <;> rfl
  join_comm := fun f g => by cases f <;> cases g <;> rfl
  join_idem := fun f => by cases f <;> rfl
  comp_mono := comp_mono
  comp_identity := fun _ => rfl
  identity_comp := fun f => by cases f <;> rfl

/-- Each of the three functions is monotone. -/
private theorem eval_mono [DecidableEq L] (hV : V.IsSemilattice)
    (f : BinaryEdge) {v u : L} (h : V.leq v u = true) :
    V.leq (eval V f v) (eval V f u) = true := by
  cases f with
  | identity => exact h
  | _ => exact hV.leq_refl _

end BinaryEdge

/-- Every reachability problem is determinate, whatever its flow
functions: the codes that they use are the identity. -/
theorem ReachabilityProblem.isDeterminate {D : Type} [DecidableEq D]
    (P : ReachabilityProblem D) (config : Config) (world : World) (I : Icfg) :
    Setup.IsDeterminate { problem := P.toProblem, config, world } I := by
  have hweight : ∀ {answer : Except Fault (List D)} {l : List (D × BinaryEdge)},
      answer.map (fun facts => FlowFunction.withWeight facts .identity) =
      .ok l → ∀ t ∈ l, t.2 = BinaryEdge.identity := by
    intro answer l hl t ht
    obtain ⟨facts, _, rfl⟩ := exists_facts hl
    obtain ⟨_, _, rfl⟩ := List.mem_map.mp ht
    rfl
  refine Setup.isDeterminate_of_identity (BinaryEdge.isOrdered _)
    Binary.isSemilattice (BinaryEdge.eval_mono Binary.isSemilattice)
    (fun {c g start d t} ht => ?_) (fun {c g x r d callFact t} ht => ?_) I
  · refine Setup.identity_of_mem_targets (BinaryEdge.isOrdered _)
      (fun l hl => ?_) ht
    exact hweight hl
  · refine Setup.identity_of_mem_targets (BinaryEdge.isOrdered _)
      (fun l hl => ?_) ht
    exact hweight hl

-- =============================================================== both orders

open Solver

variable {W L : Type} [DecidableEq W] [DecidableEq L]

/-- The order of the worklist is no limit. -/
theorem Unlimited.reorder {config : Config} {world : World}
    (h : Unlimited config world) (order : WorklistOrder) :
    Unlimited { config with order } world :=
  ⟨h.maxIterations, h.timeout, h.uncancelled⟩

/-- A call site of a program lists each of its targets once, because a
target that is there is not added again. -/
theorem Draft.calleesOnce_build (d : Draft) : d.build.graph.CalleesOnce := by
  rw [graph_build]
  exact (FlowGraph.calleesOnce_empty.mutateAll _).mutateAll _

/-- On every program, twins both come to their ends, and have found the
same. That there are results at all is `Analyzes.exists_complete`, for
each of the two. -/
theorem Analyzes.exists_agree {steps : List Draft.Step}
    {S T : Setup LocalFact W L} (hS : Analyzes (Draft.ofSteps steps).build S)
    (hT : Analyzes (Draft.ofSteps steps).build T)
    (hsteps : Draft.IsProper steps) (htwins : S.Twins T)
    (hdeterminate : S.IsDeterminate (S.view (Draft.ofSteps steps).build.graph))
    (hstarts : (Draft.ofSteps steps).build.Starts S.problem.entries
      (S.problem.seeds.map Seed.node)) (hfree : Unlimited S.config S.world)
    (hfree' : Unlimited T.config T.world) :
    ∃ r r', EndsIn S (Draft.ofSteps steps).build.graph r ∧
      EndsIn T (Draft.ofSteps steps).build.graph r' ∧ r.Agree r' := by
  have hrequests : ∀ {R : Setup LocalFact W L}, R.problem.IsPure →
      ResolvesWithin R.problem.requests ∅ := by
    intro R hpure k edge d r hr
    rw [hpure k edge d] at hr
    exact absurd hr List.not_mem_nil
  obtain ⟨r, hr⟩ := hS.exists_complete hsteps hstarts hfree
    (hrequests htwins.isPure)
  rw [← htwins.problem] at hstarts
  obtain ⟨r', hr'⟩ := hT.exists_complete hsteps hstarts hfree'
    (hrequests htwins.symm.isPure)
  refine ⟨r, r', hr, hr', ?_⟩
  obtain ⟨hcomplete, enough, hrun⟩ := hr
  obtain ⟨hcomplete', enough', hrun'⟩ := hr'
  refine agree_of_isDeterminate htwins hdeterminate (hS.wellFormed hsteps) ?_
    (hrun enough (Nat.le_refl _)) hcomplete (hrun' enough' (Nat.le_refl _))
    hcomplete'
  rw [hS.view_eq]
  exact Draft.calleesOnce_build _

/-- Oldest first or newest first, linear constant propagation and the
analysis of uninitialized variables come to their ends on every
program, and have found the same. -/
theorem fifo_agrees_with_lifo {steps : List Draft.Step}
    (hsteps : Draft.IsProper steps) (entries : List Proc) {config : Config}
    {world world' : World} (hfree : Unlimited config world)
    (hfree' : Unlimited config world') :
    (∀ seeds : List (Seed LocalFact ConstValue),
      (Draft.ofSteps steps).build.Starts entries (seeds.map Seed.node) →
      ∃ r r',
        EndsIn
          (LinearConstants.seeded (Draft.ofSteps steps).build entries seeds
            (fun _ _ _ => []) { config with order := .fifo } world)
          (Draft.ofSteps steps).build.graph r ∧
        EndsIn
          (LinearConstants.seeded (Draft.ofSteps steps).build entries seeds
            (fun _ _ _ => []) { config with order := .lifo } world')
          (Draft.ofSteps steps).build.graph r' ∧
        r.Agree r') ∧
    ∀ seeds : List (Node × LocalFact),
      (Draft.ofSteps steps).build.Starts entries (seeds.map Prod.fst) →
      ∃ r r',
        EndsIn
          (Uninitialized.seeded (Draft.ofSteps steps).build entries seeds
            (fun _ _ _ => []) { config with order := .fifo } world)
          (Draft.ofSteps steps).build.graph r ∧
        EndsIn
          (Uninitialized.seeded (Draft.ofSteps steps).build entries seeds
            (fun _ _ _ => []) { config with order := .lifo } world')
          (Draft.ofSteps steps).build.graph r' ∧
        r.Agree r' := by
  constructor
  · intro seeds hstarts
    exact (LinearConstants.analyzes ..).exists_agree
      (LinearConstants.analyzes ..) hsteps
      ⟨rfl, rfl, rfl, rfl, rfl, fun _ _ _ => rfl⟩
      (LinearConstants.isDeterminate ..) hstarts (hfree.reorder .fifo)
      (hfree'.reorder .lifo)
  · intro seeds hstarts
    exact (Uninitialized.analyzes ..).exists_agree (Uninitialized.analyzes ..)
      hsteps ⟨rfl, rfl, rfl, rfl, rfl, fun _ _ _ => rfl⟩
      (ReachabilityProblem.isDeterminate ..)
        (Uninitialized.starts_seeded hstarts)
      (hfree.reorder .fifo) (hfree'.reorder .lifo)

/-- A procedure that calls itself with an argument that grows, called
with two constants; between the calls, one of a procedure without a
body. -/
def descent : List Draft.Step := [
  .declare "main" [],
  .declare "descend" ["p"],
  .declare "absent" [],
  .write ⟨0⟩ (.const "x" Word.zero),
  .write ⟨0⟩ (.call (.direct ⟨1⟩) ["x"] (some "y")),
  .write ⟨0⟩ (.call (.direct ⟨2⟩) ["y"] none),
  .write ⟨0⟩ (.const "x" Word.one),
  .write ⟨0⟩ (.call (.direct ⟨1⟩) ["x"] (some "y")),
  .write ⟨1⟩ (.decl "q"),
  .write ⟨1⟩ (.linear "q" "p" Word.one Word.one),
  .write ⟨1⟩ (.call (.direct ⟨1⟩) ["q"] (some "p")),
  .write ⟨1⟩ (.ret (some "p")),
  .branch ⟨1⟩ ⟨5⟩ ⟨8⟩]

theorem isProper_descent : Draft.IsProper descent :=
  ⟨Draft.answered_of_isOk (by decide +kernel), by decide⟩

/-- Linear constants of `descent`, with exploded edges recorded. -/
def descentConstants (order : WorklistOrder) :
    Setup LocalFact LinearEdge ConstValue :=
  LinearConstants.seeded (Draft.ofSteps descent).build [⟨0⟩]
    [⟨⟨5⟩, .var "p", .const Word.one⟩] (fun _ _ _ => [])
      { order, recordEdges := true } {}

/-- Uninitialized variables of `descent`, with exploded edges recorded. -/
def descentUninitialized (order : WorklistOrder) :
    Setup LocalFact BinaryEdge Binary :=
  Uninitialized.seeded (Draft.ofSteps descent).build [⟨0⟩] [(⟨5⟩, .var "p")]
    (fun _ _ _ => []) { order, recordEdges := true } {}

/-- Runs that take different numbers of turns have found the same. -/
theorem fifo_agrees_with_lifo_descent :
    (solve (descentConstants .fifo) 100
      (Draft.ofSteps descent).build.graph).1.toOption.map
      (fun r => r.statistics.worklistIterations) = some 29 ∧
    (solve (descentConstants .lifo) 100
      (Draft.ofSteps descent).build.graph).1.toOption.map
      (fun r => r.statistics.worklistIterations) = some 26 ∧
    (∃ r r',
      EndsIn (descentConstants .fifo) (Draft.ofSteps descent).build.graph r ∧
      EndsIn (descentConstants .lifo) (Draft.ofSteps descent).build.graph r' ∧
      r.Agree r') ∧
    ∃ r r',
      EndsIn (descentUninitialized .fifo)
        (Draft.ofSteps descent).build.graph r ∧
      EndsIn (descentUninitialized .lifo)
        (Draft.ofSteps descent).build.graph r' ∧
      r.Agree r' := by
  have hfree : Unlimited { recordEdges := true } {} := ⟨rfl, rfl, fun _ => rfl⟩
  have hstarts : (Draft.ofSteps descent).build.Starts [⟨0⟩] [⟨5⟩] := by
    refine ⟨fun p hp => ?_, by decide +kernel, Or.inl nofun⟩
    rw [List.mem_singleton.mp hp]
    exact ⟨⟨0⟩, by decide +kernel⟩
  have h := fifo_agrees_with_lifo isProper_descent [⟨0⟩] hfree hfree
  exact ⟨by decide +kernel, by decide +kernel, h.1 _ hstarts, h.2 _ hstarts⟩

end Tabulation
