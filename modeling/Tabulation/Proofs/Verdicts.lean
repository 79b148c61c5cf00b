/-
The verdicts on the analyses of the example language.

An analysis of a program fails only because of how it was set up. The
verdict can be read off beforehand (`verdict?`): there is nothing to
start from, or else an entry has no body, or else a seed is not at a
start; of several such entries or seeds, the first counts. Without a
verdict there are results, whatever values the analysis starts from and
whatever its joins are tried on.

That nothing else goes wrong has two sides. Joins pass on all values,
not only on the samples that came with an analysis
(`Analyzes.startingFrom`), so another choice of samples cannot make one
fail. And an outcome that was seen on little fuel would be seen on
enough (`Solver/Fuel`), where there are results.
-/
import Tabulation.Proofs.Solver.Fuel
import Tabulation.Proofs.Termination

namespace Tabulation

section Vocabulary

variable {D W L : Type}

/-- The problem with other seeds, another value at the entries and
other samples. Flow functions and entries stay as they are. -/
def Problem.startingFrom (problem : Problem D W L) (seeds : List (Seed D L))
    (initial : L) (samples : List L) : Problem D W L :=
  { problem with seeds, initial, samples }

/-- Verdicts on how a solver was set up. The rest of the errors come of
laws that fail, of flow functions or of gaps in the tables. -/
inductive SolveError.OnSetup : SolveError D W L → Prop
  | noSeeds : OnSetup .noSeeds
  | missingStart (p : Proc) : OnSetup (.missingStart p)
  | seedNotAtStart (n : Node) (d : D) : OnSetup (.seedNotAtStart n d)

namespace Solver

variable [DecidableEq D] [DecidableEq W] [DecidableEq L] (S : Setup D W L)

/-- The first entry without a body, in the order in which they are
planted. -/
def bodiless? (I : Icfg) : Option Proc :=
  S.problem.entries.find? fun p => (I.start? p).isNone

/-- The first seed that is not at a start, in the order in which they
are planted. -/
def misplaced? (I : Icfg) : Option (Seed D L) :=
  S.problem.seeds.find? fun seed => decide (I.isStart? seed.node ≠ some true)

/-- The verdict on what a run starts from, if it cannot start from
that. Entries come before seeds. -/
def verdict? (I : Icfg) : Option (SolveError D W L) :=
  if S.problem.entries.isEmpty && S.problem.seeds.isEmpty then some .noSeeds
  else
    ((bodiless? S I).map .missingStart).or
      ((misplaced? S I).map fun seed => .seedNotAtStart seed.node seed.fact)

/-- Solving ends with the verdict on the setup if there is one, and
with results if there is none. It has no other failures. -/
structure Settles (graph : FlowGraph) : Prop where
  rejected : ∀ {e}, verdict? S (S.view graph) = some e →
    ∀ fuel, (solve S fuel graph).1 = .error (.rejected e)
  solved : verdict? S (S.view graph) = none →
    ∃ r enough, ∀ fuel, enough ≤ fuel → (solve S fuel graph).1 = .ok r
  failure : ∀ {fuel failure}, (solve S fuel graph).1 = .error failure →
    failure = .outOfFuel ∨ ∃ e, failure = .rejected e ∧ e.OnSetup

end Solver

end Vocabulary

namespace Solver

variable {D W L : Type}
variable {S : Setup D W L} {graph : FlowGraph} {s : State D W L}
variable {E : Failure D W L → Prop}

-- ================================================================ refusals

/-- A verdict of this kind is one on the setup. -/
private theorem onSetup_of_verdict? {I : Icfg} {e : SolveError D W L}
    (h : verdict? S I = some e) : e.OnSetup := by
  unfold verdict? at h
  split at h
  · cases h
    exact .noSeeds
  · rcases Option.or_eq_some_iff.mp h with h | ⟨_, h⟩
    · obtain ⟨p, _, rfl⟩ := Option.map_eq_some_iff.mp h
      exact .missingStart p
    · obtain ⟨seed, _, rfl⟩ := Option.map_eq_some_iff.mp h
      exact .seedNotAtStart _ _

variable [DecidableEq D] [DecidableEq W] [DecidableEq L]

/-- An entry without a body is refused. -/
private theorem refused_plantEntry {p : Proc}
    (hstart : (S.view graph).start? p = none) (hs : s.graph = graph) :
    Ensures (· = .rejected (.missingStart p)) (plantEntry S p)
      (fun _ _ => False) s := by
  unfold plantEntry
  refine Ensures.get_bind ?_
  rw [hs, hstart]
  exact Ensures.throw rfl

/-- A seed that is not at a start is refused. -/
private theorem refused_plantSeed {seed : Seed D L}
    (hstart : (S.view graph).isStart? seed.node = some false)
    (hs : s.graph = graph) :
    Ensures (· = .rejected (.seedNotAtStart seed.node seed.fact))
      (plantSeed S seed) (fun _ _ => False) s := by
  unfold plantSeed
  refine Ensures.get_bind ?_
  rw [hs, hstart]
  exact Ensures.throw rfl

section Passing

variable (hjoin : ∀ f g,
    S.isUpperBound (S.problem.functions.join f g) f g = true)

include hjoin

/-- Where joins pass, planting cannot fail. -/
private theorem graph_plant (seed : Seed D L) (hs : s.graph = graph) :
    Ensures E (plant S seed) (fun _ s' => s'.graph = graph) s := by
  unfold plant
  refine Ensures.modify_bind
    ((ensures_propagate_of none fun f _ _ hbad => ?_).mono fun _ s' h => ?_)
  · rw [hjoin] at hbad
    cases hbad
  · rcases h with ⟨_, rfl⟩ | ⟨links, _, rfl⟩ | ⟨f, _, _, _, rfl⟩
    · exact hs
    · exact hs
    · exact hs

/-- An entry with a body is planted, and the graph stays as it is. -/
private theorem graph_plantEntry {p : Proc}
    (hstart : ((S.view graph).start? p).isNone = false) (hs : s.graph = graph) :
    Ensures E (plantEntry S p) (fun _ s' => s'.graph = graph) s := by
  unfold plantEntry
  refine Ensures.get_bind ?_
  rw [hs]
  obtain ⟨n, hn⟩ :=
    Option.isSome_iff_exists.mp (Option.isNone_eq_false_iff.mp hstart)
  rw [hn]
  exact graph_plant hjoin _ hs

/-- A seed at a start is planted, and the graph stays as it is. -/
private theorem graph_plantSeed {seed : Seed D L}
    (hstart : (S.view graph).isStart? seed.node = some true)
    (hs : s.graph = graph) :
    Ensures E (plantSeed S seed) (fun _ s' => s'.graph = graph) s := by
  unfold plantSeed
  refine Ensures.get_bind ?_
  rw [hs, hstart]
  exact graph_plant hjoin seed hs

/-- A run on which there is a verdict does not begin. What comes before
the entry or seed of the verdict is planted without failure, so the
verdict is on the first that fails. -/
private theorem refused_begin
    (hlattice : S.problem.lattice.violation? S.samples = none)
    (howned : ∀ seed ∈ S.problem.seeds,
      (S.view graph).isStart? seed.node ≠ none) {e : SolveError D W L}
    (hverdict : verdict? S (S.view graph) = some e) :
    Ensures (· = .rejected e) (begin S) (fun _ _ => False)
      (State.start S graph) := by
  have hvalid : Ensures (· = .rejected e) (validate S)
      (fun _ s' => s' = State.start S graph) (State.start S graph) := by
    unfold validate
    rw [hlattice]
    exact Ensures.pure rfl
  refine hvalid.bind fun _ s₁ h₁ => ?_
  have hs₁ : s₁.graph = graph := congrArg State.graph h₁
  unfold plantAll
  unfold verdict? at hverdict
  split at hverdict
  next hnone =>
    cases hverdict
    rw [if_pos hnone]
    exact Ensures.throw rfl
  next hsome =>
    rw [if_neg hsome]
    -- the first entry without a body, or, where all have one, the
    -- first seed that is misplaced
    rcases Option.or_eq_some_iff.mp hverdict with h | ⟨hentries, h⟩
    · obtain ⟨p, hp, rfl⟩ := Option.map_eq_some_iff.mp h
      have hbodiless := List.find?_some hp
      refine (Ensures.forM_find (P := fun s => s.graph = graph) hp hs₁
        (fun q _ hq s' => graph_plantEntry hjoin hq)
        fun s' => refused_plantEntry
          (Option.isNone_iff_eq_none.mp hbodiless)).bind
        fun _ _ h => h.elim
    · obtain ⟨seed, hseed, rfl⟩ := Option.map_eq_some_iff.mp h
      have hbodies := List.find?_eq_none.mp (Option.map_eq_none_iff.mp hentries)
      refine (Ensures.forM_keep (P := fun s => s.graph = graph) hs₁
          fun q hq s' =>
        graph_plantEntry hjoin (Bool.eq_false_iff.mpr (hbodies q hq))).bind
          fun _ s₂ hs₂ => ?_
      have hmisplaced : (S.view graph).isStart? seed.node = some false := by
        have hfound := List.find?_some hseed
        have hnot : (S.view graph).isStart? seed.node ≠ some true :=
          of_decide_eq_true hfound
        have hsome := howned seed (List.mem_of_find?_eq_some hseed)
        cases hstart : (S.view graph).isStart? seed.node with
        | none => exact absurd hstart hsome
        | some b =>
          cases b with
          | true => exact absurd hstart hnot
          | false => rfl
      refine (Ensures.forM_find (P := fun s => s.graph = graph) hseed hs₂
        (fun x _ hx s' => ?_) fun s' => refused_plantSeed hmisplaced).bind
        fun _ _ h => h.elim
      exact graph_plantSeed hjoin (not_not.mp (of_decide_eq_false hx))

end Passing

/-- What does not begin has no results, on any fuel. -/
private theorem solve_of_refused {e : SolveError D W L}
    (h : Ensures (· = .rejected e) (begin S) (fun _ _ => False)
      (State.start S graph)) (fuel : Nat) :
    (solve S fuel graph).1 = .error (.rejected e) := by
  cases hbegin : begin S (State.start S graph) with
  | ok a s => exact (h.of_ok hbegin).elim
  | error failure s =>
    cases h.of_error hbegin
    unfold solve
    rw [run_eq, bind_of_error hbegin]

end Solver

-- ================================================================ analyses

open Solver

variable {W L : Type} [DecidableEq L] {steps : List Draft.Step}

namespace Analyzes

variable {S : Setup LocalFact W L}

/-- Where joins pass on all values, an analysis may start from any of
them. Facts, flow functions and edge functions are those it had. -/
theorem startingFrom {P : Program} (hS : Analyzes P S)
    (hjoin : ∀ f g v, S.problem.functions.isAbove S.problem.lattice
      (S.problem.functions.join f g) f g v = true)
    (seeds : List (Seed LocalFact L)) (initial : L) (samples : List L) :
    Analyzes P
      { S with problem := S.problem.startingFrom seeds initial samples } where
  view_eq := hS.view_eq
  zero_eq := hS.zero_eq
  exists_isIdentityAt := hS.exists_isIdentityAt
  exists_flow := hS.exists_flow
  exists_returnFlow := hS.exists_returnFlow
  flow_mentions := hS.flow_mentions
  returnFlow_mentions := hS.returnFlow_mentions
  isSemilattice := hS.isSemilattice
  extremes := hS.extremes
  isUpperBound := fun f g => List.all_eq_true.mpr fun v _ => hjoin f g v
  exists_rank := by
    obtain ⟨rank, bound, hrank⟩ := hS.exists_rank
    exact ⟨rank, bound, hrank.bounded, fun {f g} _ hne =>
      hrank.descends (fun _ => hS.isUpperBound f g) hne⟩
  exists_valueRank := hS.exists_valueRank

variable (hS : Analyzes (Draft.ofSteps steps).build S)

include hS

/-- Without a verdict there is something to start from, and all of it
is in place. -/
theorem starts_of_verdict?
    (h : verdict? S (S.view (Draft.ofSteps steps).build.graph) = none) :
    (Draft.ofSteps steps).build.Starts S.problem.entries
      (S.problem.seeds.map Seed.node) := by
  unfold verdict? at h
  split at h
  next => cases h
  next hsome =>
    obtain ⟨hentries, hseeds⟩ := Option.or_eq_none_iff.mp h
    have hbodies := List.find?_eq_none.mp (Option.map_eq_none_iff.mp hentries)
    have hplaced := List.find?_eq_none.mp (Option.map_eq_none_iff.mp hseeds)
    rw [hS.view_eq] at hbodies hplaced
    refine ⟨fun p hp => ?_, fun n hn => ?_, ?_⟩
    · exact Option.isSome_iff_exists.mp
        (Option.isNone_eq_false_iff.mp (Bool.eq_false_iff.mpr (hbodies p hp)))
    · obtain ⟨seed, hseed, rfl⟩ := List.mem_map.mp hn
      by_contra hnot
      exact hplaced seed hseed (decide_eq_true hnot)
    · by_contra hnone
      rw [not_or, not_not, not_not] at hnone
      refine hsome ?_
      rw [hnone.1, List.map_eq_nil_iff.mp hnone.2]
      rfl

variable [DecidableEq W]

/-- Every analysis whose seeds are at statements ends with its verdict,
or with results. What was seen on some fuel is what enough fuel comes
to, so there is no third outcome but running out of it. -/
theorem settles (hsteps : Draft.IsProper steps) (hpure : S.problem.IsPure)
    (hseeds : ∀ seed ∈ S.problem.seeds,
      ∃ stmt, (Draft.ofSteps steps).build.stmts.get? seed.node = some stmt) :
    Settles S (Draft.ofSteps steps).build.graph := by
  have howned : ∀ seed ∈ S.problem.seeds,
      (S.view (Draft.ofSteps steps).build.graph).isStart? seed.node ≠ none := by
    intro seed hseed
    obtain ⟨stmt, hstmt⟩ := hseeds seed hseed
    obtain ⟨p, hp⟩ := hsteps.isLaidOut.owned hstmt
    rw [hS.view_eq]
    show ((Draft.ofSteps steps).build.graph.procOf? seed.node).map _ ≠ none
    rw [hp]
    exact nofun
  have hrejected : ∀ {e}, verdict? S
      (S.view (Draft.ofSteps steps).build.graph) = some e →
      ∀ fuel, (solve S fuel (Draft.ofSteps steps).build.graph).1 =
      .error (.rejected e) :=
      fun h => solve_of_refused (refused_begin hS.isUpperBound
      (hS.isSemilattice.violation?_eq_none hS.extremes _) howned h)
  have hsolved : verdict? S (S.view (Draft.ofSteps steps).build.graph) = none →
      ∃ r enough, ∀ fuel, enough ≤ fuel →
        (solve S fuel (Draft.ofSteps steps).build.graph).1 = .ok r := by
    intro h
    have hrequests : ResolvesWithin S.problem.requests ∅ := by
      intro k edge d r hr
      rw [hpure k edge d] at hr
      exact absurd hr List.not_mem_nil
    obtain ⟨r, henough, _⟩ :=
      hS.exists_solved hsteps (hS.starts_of_verdict? h) hrequests
    exact ⟨r, henough⟩
  refine ⟨hrejected, hsolved, fun {fuel failure} hfailure => ?_⟩
  -- a failure on some fuel is the outcome on more, unless it is the
  -- fuel
  cases hverdict : verdict? S (S.view (Draft.ofSteps steps).build.graph) with
  | some e =>
    have hanswer := hfailure.symm.trans (hrejected hverdict fuel)
    exact Or.inr ⟨e, Except.error.inj hanswer, onSetup_of_verdict? hverdict⟩
  | none =>
    obtain ⟨r, enough, hr⟩ := hsolved hverdict
    rcases solve_of_le S (Nat.le_max_left fuel enough)
      (Draft.ofSteps steps).build.graph with hout | hsame
    · exact Or.inl (Except.error.inj (hfailure.symm.trans hout))
    · have hok := hr (max fuel enough) (Nat.le_max_right fuel enough)
      rw [hsame, hfailure] at hok
      cases hok

end Analyzes

/-- Linear constant propagation and the analysis of uninitialized
variables fail only because of how they are set up, and end with
results otherwise. It does not matter which values they start from,
which samples joins are tried on, and how the solver is configured. -/
theorem analyses_settle (hsteps : Draft.IsProper steps) (entries : List Proc)
    (config : Config) (world : World) :
    (∀ (seeds : List (Seed LocalFact ConstValue)) (initial : ConstValue)
        (samples : List ConstValue),
      (∀ seed ∈ seeds, ∃ stmt,
        (Draft.ofSteps steps).build.stmts.get? seed.node = some stmt) →
      Settles
        { problem :=
            (LinearConstants.problem (Draft.ofSteps steps).build
              entries).startingFrom seeds initial samples
          config, world }
        (Draft.ofSteps steps).build.graph) ∧
    ∀ (seeds : List (Seed LocalFact Binary)) (initial : Binary)
        (samples : List Binary),
      (∀ seed ∈ seeds, ∃ stmt,
        (Draft.ofSteps steps).build.stmts.get? seed.node = some stmt) →
      Settles
        { problem :=
            (Uninitialized.problem (Draft.ofSteps steps).build
              entries).toProblem.startingFrom seeds initial samples
          config, world }
        (Draft.ofSteps steps).build.graph := by
  constructor
  · intro seeds initial samples hseeds
    have hS := LinearConstants.analyzes (Draft.ofSteps steps).build entries []
      (fun _ _ _ => []) config world
    exact (hS.startingFrom LinearEdge.isAbove_join seeds initial
      samples).settles hsteps (fun _ _ _ => rfl) hseeds
  · intro seeds initial samples hseeds
    have hS := Uninitialized.analyzes (Draft.ofSteps steps).build entries []
      (fun _ _ _ => []) config world
    exact (hS.startingFrom BinaryEdge.isAbove_join seeds initial
      samples).settles hsteps (fun _ _ _ => rfl) hseeds

/-- The constants of `counting`, with any value at the entries. -/
def countingConstants (entries : List Proc)
    (seeds : List (Seed LocalFact ConstValue)) :
    Setup LocalFact LinearEdge ConstValue where
  problem := (LinearConstants.problem (Draft.ofSteps counting).build
    entries).startingFrom seeds .top [.const Word.one]
  config := { order := .lifo }

/-- An entry without a body comes before a seed that is not at a start,
and that seed after one that is. Without either, there are results. -/
theorem analyses_settle_counting :
    (∀ fuel,
      (solve (countingConstants [⟨0⟩, ⟨7⟩] [⟨⟨3⟩, .var "q", .top⟩]) fuel
        (Draft.ofSteps counting).build.graph).1 =
      .error (.rejected (.missingStart ⟨7⟩))) ∧
    (∀ fuel,
      (solve
        (countingConstants [⟨0⟩]
          [⟨⟨2⟩, .var "p", .const Word.one⟩, ⟨⟨3⟩, .var "q", .top⟩]) fuel
        (Draft.ofSteps counting).build.graph).1 =
      .error (.rejected (.seedNotAtStart ⟨3⟩ (.var "q")))) ∧
    ∃ r enough, ∀ fuel, enough ≤ fuel →
      (solve (countingConstants [⟨0⟩] [⟨⟨2⟩, .var "p", .const Word.one⟩]) fuel
        (Draft.ofSteps counting).build.graph).1 = .ok r := by
  have hsettles : ∀ entries seeds,
      (∀ seed ∈ seeds,
        ((Draft.ofSteps counting).build.stmts.get? seed.node).isSome) →
      Settles (countingConstants entries seeds)
        (Draft.ofSteps counting).build.graph :=
    fun entries seeds hseeds =>
      (analyses_settle isProper_counting entries { order := .lifo } {}).1 seeds
        .top [.const Word.one] fun seed hseed =>
        Option.isSome_iff_exists.mp (hseeds seed hseed)
  refine ⟨(hsettles _ _ ?_).rejected ?_, (hsettles _ _ ?_).rejected ?_,
      (hsettles _ _ ?_).solved ?_⟩
  all_goals decide +kernel

end Tabulation
