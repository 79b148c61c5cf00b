/-
What the check of the lattice laws shows, and what it leaves open.

The check looks at single values and at pairs. If it is given all
values and finds nothing, then the laws that it looks at hold
(`PairLaws`), and they make the order of the join reflexive and
antisymmetric, with the bottom below everything, the top above
everything, and joins above what they join.

# What is left open

A semilattice needs more: that the order is transitive, and that a join
is below every other bound. Both are laws about three values, neither
follows from those about two, and together they are what is missing
(`PairLaws.join_assoc_iff`).

# Going round

Three values of which each is below the next pass the check (`Hand`). A
loop that carries each of them on to the next one raises its jump
function forever: every join is above both of its parts, and the run
has no end (`solve_rounds`).
-/
import Tabulation.Proofs.Solver.Settings
import Tabulation.Proofs.Solver.Settling
import Tabulation.Proofs.Solver.Values

namespace Tabulation

namespace ValueLattice

variable {L : Type} [DecidableEq L] {V : ValueLattice L} {samples : List L}
variable {a b c : L}

-- ================================================== laws about two values

/-- The laws that the check looks at, for all values. None of them is
about more than two values at once. -/
structure PairLaws (V : ValueLattice L) : Prop where
  extremes : V.top ≠ V.bottom
  join_idem : ∀ a, V.join a a = a
  join_bottom : ∀ a, V.join a V.bottom = a
  join_top : ∀ a, V.join a V.top = V.top
  join_comm : ∀ a b, V.join a b = V.join b a
  leq_join : ∀ a b, V.leq a (V.join a b) = true

/-- What the check looks at for two values. -/
private theorem violationBetween?_eq_none_iff :
    V.violationBetween? a b = none ↔ V.join a b = V.join b a ∧
      V.leq a (V.join a b) = true ∧ V.leq b (V.join a b) = true := by
  unfold violationBetween?
  dsimp only
  split
  next hne => simp [hne]
  next heq =>
    split
    next hbad =>
      simp only [reduceCtorEq, false_iff]
      rintro ⟨_, ha, hb⟩
      simp [ha, hb] at hbad
    next hok =>
      simp only [Bool.or_eq_true, Bool.not_eq_true', not_or,
          Bool.not_eq_false] at hok
      exact ⟨fun _ => ⟨not_not.mp heq, hok⟩, fun _ => rfl⟩

/-- What it looks at for one value, and for that value with every
other. -/
private theorem violationAt?_eq_none_iff {probes : List L} :
    V.violationAt? probes a = none ↔ V.join a a = a ∧ V.join a V.bottom = a ∧
      V.join a V.top = V.top ∧
      ∀ b ∈ probes, V.violationBetween? a b = none := by
  unfold violationAt?
  split
  next hne => simp [hne]
  next hidem =>
    split
    next hne => simp [hne]
    next hbottom =>
      split
      next hne => simp [hne]
      next htop =>
        rw [List.findSome?_eq_none_iff]
        simp [not_not.mp hidem, not_not.mp hbottom, not_not.mp htop]

/-- Given all values, the check passes exactly if the laws about two
values hold. The check adds the extremes to its samples, which changes
nothing here. -/
private theorem violation?_eq_none_iff (hall : ∀ v, v ∈ samples) :
    V.violation? samples = none ↔ V.PairLaws := by
  have hprobe : ∀ v, v ∈ V.probes samples := fun v =>
    List.mem_cons_of_mem _ (List.mem_cons_of_mem _ (hall v))
  unfold violation?
  split
  next heq => exact ⟨nofun, fun h => absurd heq h.extremes⟩
  next hne =>
    rw [List.findSome?_eq_none_iff]
    simp only [violationAt?_eq_none_iff, violationBetween?_eq_none_iff]
    constructor
    · intro h
      refine ⟨hne, fun a => (h a (hprobe a)).1, fun a => (h a (hprobe a)).2.1,
        fun a => (h a (hprobe a)).2.2.1, fun a b => ?_, fun a b => ?_⟩
      · exact ((h a (hprobe a)).2.2.2 b (hprobe b)).1
      · exact ((h a (hprobe a)).2.2.2 b (hprobe b)).2.1
    · intro h a _
      refine ⟨h.join_idem a, h.join_bottom a, h.join_top a,
        fun b _ => ⟨h.join_comm a b, h.leq_join a b, ?_⟩⟩
      rw [h.join_comm]
      exact h.leq_join b a

-- ============================================================== the order

namespace PairLaws

variable (h : V.PairLaws)

include h

theorem leq_refl (a : L) : V.leq a a = true := V.leq_iff.mpr (h.join_idem a)

/-- The order is antisymmetric because joins commute. -/
theorem leq_antisymm (hab : V.leq a b = true) (hba : V.leq b a = true) :
    a = b := by
  rw [← V.leq_iff.mp hba, h.join_comm]
  exact V.leq_iff.mp hab

theorem bottom_leq (a : L) : V.leq V.bottom a = true := by
  rw [V.leq_iff, h.join_comm]
  exact h.join_bottom a

theorem leq_top (a : L) : V.leq a V.top = true := V.leq_iff.mpr (h.join_top a)

theorem leq_join_right (a b : L) : V.leq b (V.join a b) = true := by
  rw [h.join_comm]
  exact h.leq_join b a

/-- Where the order is transitive and joins are least, the order of
joining does not matter. -/
theorem join_assoc
    (htrans : ∀ a b c, V.leq a b = true → V.leq b c = true → V.leq a c = true)
    (hleast : ∀ a b c, V.leq a c = true → V.leq b c = true →
      V.leq (V.join a b) c = true) (a b c : L) :
    V.join (V.join a b) c = V.join a (V.join b c) := by
  -- both sides are the least value above all three
  have hleft : V.leq (V.join (V.join a b) c)
      (V.join a (V.join b c)) = true := by
    have hbc := h.leq_join_right a (V.join b c)
    refine hleast _ _ _ (hleast _ _ _ (h.leq_join _ _) ?_) ?_
    · exact htrans _ _ _ (h.leq_join b c) hbc
    · exact htrans _ _ _ (h.leq_join_right b c) hbc
  have hright : V.leq (V.join a (V.join b c))
      (V.join (V.join a b) c) = true := by
    have hab := h.leq_join (V.join a b) c
    refine hleast _ _ _ ?_ (hleast _ _ _ ?_ (h.leq_join_right _ _))
    · exact htrans _ _ _ (h.leq_join a b) hab
    · exact htrans _ _ _ (h.leq_join_right a b) hab
  exact h.leq_antisymm hleft hright

/-- Of the laws of a semilattice, only associativity is not among those
about two values. -/
theorem isSemilattice_iff : V.IsSemilattice ↔
    ∀ a b c, V.join (V.join a b) c = V.join a (V.join b c) := by
  refine ⟨fun hV => hV.join_assoc,
      fun hassoc => ⟨hassoc, h.join_comm, h.join_idem, ?_, ?_⟩⟩
  · intro a
    rw [h.join_comm]
    exact h.join_bottom a
  · intro a
    rw [h.join_comm]
    exact h.join_top a

/-- What the laws about two values lack of those of a semilattice. -/
theorem join_assoc_iff :
    (∀ a b c, V.join (V.join a b) c = V.join a (V.join b c)) ↔
    (∀ a b c, V.leq a b = true → V.leq b c = true → V.leq a c = true) ∧
      ∀ a b c, V.leq a c = true → V.leq b c = true →
      V.leq (V.join a b) c = true := by
  constructor
  · intro hassoc
    have hV : V.IsSemilattice := h.isSemilattice_iff.mpr hassoc
    exact ⟨fun _ _ _ => hV.leq_trans, fun _ _ _ => hV.join_leq⟩
  · rintro ⟨htrans, hleast⟩
    exact h.join_assoc htrans hleast

end PairLaws

end ValueLattice

-- ============================================================ going round

/-- Three values of which each is below the next, and two extremes. -/
inductive Hand where
  | none
  | rock
  | paper
  | scissors
  | any
deriving DecidableEq, Repr

namespace Hand

/-- The one that is next above. -/
def beater : Hand → Hand
  | rock => paper
  | paper => scissors
  | scissors => rock
  | h => h

/-- Of two hands the one that beats the other. -/
def join (a b : Hand) : Hand :=
  if a = any ∨ b = any then any
  else if a = none then b
  else if b = none then a
  else if a.beater = b then b
  else a

/-- Hands with their join. The order goes round, so it is not
transitive. -/
def lattice : ValueLattice Hand where
  join := join
  top := any
  bottom := none

def all : List Hand := [none, rock, paper, scissors, any]

end Hand

/-- A function on hands, by its answers. -/
structure HandMap where
  none : Hand
  rock : Hand
  paper : Hand
  scissors : Hand
  any : Hand
deriving DecidableEq, Repr

namespace HandMap

/-- A function on hands, as a table of its five answers. -/
def ofFunction (f : Hand → Hand) : HandMap where
  none := f .none
  rock := f .rock
  paper := f .paper
  scissors := f .scissors
  any := f .any

def eval (m : HandMap) : Hand → Hand
  | .none => m.none
  | .rock => m.rock
  | .paper => m.paper
  | .scissors => m.scissors
  | .any => m.any

/-- Edge functions on hands. Composition and join are those of
functions, pointwise. -/
def functions : EdgeFunctions HandMap Hand where
  eval := eval
  comp := fun f g => ofFunction fun h => g.eval (f.eval h)
  join := fun f g => ofFunction fun h => Hand.join (f.eval h) (g.eval h)
  identity := ofFunction id
  allTop := ofFunction fun _ => .any
  allBottom := ofFunction fun _ => .none

theorem eval_ofFunction (f : Hand → Hand) (h : Hand) :
    (ofFunction f).eval h = f h := by
  cases h <;> rfl

/-- So a code means what it is composed of, and nothing is lost by
going through tables. -/
theorem isExact_functions : functions.IsExact where
  eval_comp := fun _ _ => eval_ofFunction _
  eval_identity := eval_ofFunction _

end HandMap

namespace Solver

/-- One step to a node that loops. -/
def rounds : FlowGraph :=
  FlowGraph.mutateAll {} [.addNode ⟨0⟩ ⟨0⟩, .addNode ⟨0⟩ ⟨1⟩, .addEdge ⟨0⟩ ⟨1⟩,
    .addEdge ⟨1⟩ ⟨1⟩]

/-- A hand is taken on the step, and each time round it is taken by the
one that beats it. -/
def roundsSetup : Setup Bool HandMap Hand where
  problem :=
    { lattice := Hand.lattice
      functions := HandMap.functions
      zero := false
      entries := [⟨0⟩]
      initial := .none
      samples := Hand.all
      flow := fun edge d =>
        if d then .ok [(true, .ofFunction Hand.beater)]
        else if edge.source = ⟨0⟩ then
          .ok [(false, .ofFunction id), (true, .ofFunction fun _ => .rock)]
        else .ok [(false, .ofFunction id)] }
  config := { checkMonotonicity := true }

/-- The path edge that is never done with: the fact at the node that
loops. -/
def around : PathEdge Bool := ⟨false, ⟨1⟩, true⟩

/-- Nothing but the loop is pending, with one of the three hands. It is
the invariant of the endless run. -/
structure Circling (s : State Bool HandMap Hand) : Prop where
  graph_eq : s.graph = rounds
  uncancelled : s.cancelled = false
  worklist_eq : s.worklist = [around]
  jump : ∃ h, (h = .rock ∨ h = .paper ∨ h = .scissors) ∧
    s.jump? around = some (.ofFunction fun _ => h)

/-- The hand that beats `h` took over, and the loop is pending again. -/
structure TakenOver (h : Hand) (s s' : State Bool HandMap Hand) : Prop where
  graph_eq : s'.graph = s.graph
  cancelled_eq : s'.cancelled = s.cancelled
  worklist_eq : s'.worklist = s.worklist ++ [around]
  jump_eq : s'.jump? around = some (.ofFunction fun _ => h.beater)

variable {s : State Bool HandMap Hand} {h : Hand}

/-- The next hand is another one, and the join passes the check. -/
private theorem propagate_around (hh : h = .rock ∨ h = .paper ∨ h = .scissors)
    (hjump : s.jump? around = some (.ofFunction fun _ => h)) :
    ∃ s', propagate roundsSetup around (.ofFunction fun _ => h.beater)
      (some true) s = .ok () s' ∧ TakenOver h s s' := by
  have hstored : propagate roundsSetup around (.ofFunction fun _ => h.beater)
      (some true) s = enqueue around (.ofFunction fun _ => h.beater)
        { s with
          stats.jumpFunctionUpdates :=
            s.stats.jumpFunctionUpdates + 1 } := by
    unfold propagate
    rw [get_bind_apply, hjump]
    rcases hh with rfl | rfl | rfl <;> rfl
  exact ⟨_, hstored, rfl, rfl, rfl,
      (State.jump?_setJump _ _ _ _).trans (if_pos rfl)⟩

/-- Following the loop carries the hand round once: a normal step back
to the same node. -/
private theorem process_around (hgraph : s.graph = rounds)
    (hh : h = .rock ∨ h = .paper ∨ h = .scissors)
    (hjump : s.jump? around = some (.ofFunction fun _ => h)) :
    ∃ s', process roundsSetup around s = .ok () s' ∧ TakenOver h s s' := by
  have hknown : jumpFunction around s = .ok (.ofFunction fun _ => h) s := by
    unfold jumpFunction
    rw [get_bind_apply, hjump]
    rfl
  -- the tables once the flow function of the loop is evaluated
  let s₁ : State Bool HandMap Hand :=
    { s.intern [true] with evaluations := s.evaluations + 1 }
  obtain ⟨s', hreached, htaken⟩ := propagate_around (s := s₁) hh hjump
  refine ⟨s', ?_, htaken.graph_eq, htaken.cancelled_eq, htaken.worklist_eq,
      htaken.jump_eq⟩
  cases s
  subst hgraph
  calc process roundsSetup around _
    _ = processNormal roundsSetup around _ := rfl
    _ = _ := bind_of_ok hknown _
    _ = ((propagate roundsSetup around (.ofFunction fun _ => h.beater)
          (some true) >>= fun _ => pure ()) >>= fun _ => pure ()) s₁ := by
        rcases hh with rfl | rfl | rfl <;> rfl
    _ = _ := bind_of_ok (bind_of_ok hreached _) _

/-- A turn leads to the next hand, and to the same situation. -/
private theorem turn_circling (hs : Circling s) :
    ∃ s', turn roundsSetup s = .ok none s' ∧ Circling s' := by
  obtain ⟨hgraph, hcancelled, hworklist, h, hh, hjump⟩ := hs
  let s₁ : State Bool HandMap Hand :=
    { s with
      worklist := []
      stats.worklistIterations := s.stats.worklistIterations + 1 }
  obtain ⟨s', hprocess, htaken⟩ := process_around (s := s₁) hgraph hh hjump
  refine ⟨s', ?_, htaken.graph_eq.trans hgraph,
    htaken.cancelled_eq.trans hcancelled, htaken.worklist_eq, h.beater, ?_,
    htaken.jump_eq⟩
  · cases s
    subst hgraph hcancelled hworklist
    calc turn roundsSetup _
      _ = (process roundsSetup around >>= fun _ => pure none) s₁ := rfl
      _ = .ok none s' := bind_of_ok hprocess _
  · rcases hh with rfl | rfl | rfl <;> decide

/-- So the loop uses up any fuel, by induction on it. -/
private theorem tabulate_circling (hs : Circling s) (fuel : Nat) :
    ∃ s', tabulate roundsSetup fuel s = .error .outOfFuel s' := by
  induction fuel generalizing s with
  | zero => exact ⟨s, rfl⟩
  | succ fuel ih =>
    obtain ⟨s₁, hturn, hs₁⟩ := turn_circling hs
    rw [tabulate_of_more fuel hturn]
    exact ih hs₁

/-- The run has no end: the two turns before the loop lead to it. -/
private theorem solve_rounds (fuel : Nat) :
    (solve roundsSetup fuel rounds).1 = .error .outOfFuel := by
  obtain ⟨s₁, s₂, s₃, hbegin, hfirst, hsecond, hs₃⟩ : ∃ s₁ s₂ s₃,
      begin roundsSetup (State.start roundsSetup rounds) = .ok () s₁ ∧
        turn roundsSetup s₁ = .ok none s₂ ∧ turn roundsSetup s₂ = .ok none s₃ ∧
        Circling s₃ :=
    ⟨_, _, _, rfl, rfl, rfl, ⟨rfl, rfl, rfl, .rock, .inl rfl, rfl⟩⟩
  have hloop : ∃ s', tabulate roundsSetup fuel s₁ = .error .outOfFuel s' := by
    rcases fuel with _ | _ | fuel
    · exact ⟨s₁, rfl⟩
    · exact ⟨s₂, tabulate_of_more 0 hfirst⟩
    · rw [tabulate_of_more _ hfirst, tabulate_of_more _ hsecond]
      exact tabulate_circling hs₃ fuel
  obtain ⟨s', hloop⟩ := hloop
  have hrun : run roundsSetup fuel (State.start roundsSetup rounds) =
      .error .outOfFuel s' := by
    rw [run_eq, bind_of_ok hbegin, bind_of_error hloop]
  unfold solve
  rw [hrun]

end Solver

-- ======================================================= the whole check

namespace ValueLattice

/-- If the check finds nothing among all values, the laws about two
values hold, and no more is known: the order is reflexive and
antisymmetric, between the extremes, with joins above what they join.
The join is that of a semilattice if and only if the order is also
transitive and joins are below all other bounds. -/
theorem order_of_passed_check {L : Type} [DecidableEq L] (V : ValueLattice L)
    (samples : List L) (hall : ∀ v, v ∈ samples) :
    (V.violation? samples = none ↔ V.PairLaws) ∧
      (V.violation? samples = none →
        (∀ a, V.leq a a = true) ∧
        (∀ a b, V.leq a b = true → V.leq b a = true → a = b) ∧
        (∀ a, V.leq V.bottom a = true) ∧ (∀ a, V.leq a V.top = true) ∧
        (∀ a b, V.leq a (V.join a b) = true ∧ V.leq b (V.join a b) = true) ∧
        (V.IsSemilattice ↔ ∀ a b c, V.join (V.join a b) c =
          V.join a (V.join b c)) ∧
        ((∀ a b c, V.join (V.join a b) c = V.join a (V.join b c)) ↔
          (∀ a b c, V.leq a b = true → V.leq b c = true → V.leq a c = true) ∧
            ∀ a b c, V.leq a c = true → V.leq b c = true →
            V.leq (V.join a b) c = true)) := by
  refine ⟨V.violation?_eq_none_iff hall, fun hpassed => ?_⟩
  have h : V.PairLaws := (V.violation?_eq_none_iff hall).mp hpassed
  exact ⟨h.leq_refl, fun _ _ => h.leq_antisymm, h.bottom_leq, h.leq_top,
    fun a b => ⟨h.leq_join a b, h.leq_join_right a b⟩, h.isSemilattice_iff,
    h.join_assoc_iff⟩

/-- Hands pass the check, although each is below the next one and not
below the one after; and a run over them, with edge functions that
compose and join as they should, has no end. -/
theorem order_of_passed_check_hand :
    Hand.lattice.violation? Hand.all = none ∧ Hand.lattice.PairLaws ∧
      ¬(∀ a b c, Hand.lattice.leq a b = true → Hand.lattice.leq b c = true →
        Hand.lattice.leq a c = true) ∧
      ¬Hand.lattice.IsSemilattice ∧ HandMap.functions.IsExact ∧
      (∀ f g h, HandMap.functions.eval (HandMap.functions.join f g) h =
        Hand.lattice.join (HandMap.functions.eval f h)
          (HandMap.functions.eval g h)) ∧
      ∀ fuel, (Solver.solve Solver.roundsSetup fuel Solver.rounds).1 =
        .error .outOfFuel := by
  have hall : ∀ h, h ∈ Hand.all := by
    intro h
    cases h <;> decide
  have hpassed : Hand.lattice.violation? Hand.all = none := by decide
  obtain ⟨hiff, hrest⟩ := order_of_passed_check Hand.lattice Hand.all hall
  have hround : ¬(∀ a b c, Hand.lattice.leq a b = true →
      Hand.lattice.leq b c = true → Hand.lattice.leq a c = true) :=
      fun htrans =>
    absurd (htrans .rock .paper .scissors (by decide) (by decide)) (by decide)
  obtain ⟨_, _, _, _, _, hsemilattice, hassoc⟩ := hrest hpassed
  refine ⟨hpassed, hiff.mp hpassed, hround, fun hV => ?_,
    HandMap.isExact_functions, fun _ _ => HandMap.eval_ofFunction _,
    Solver.solve_rounds⟩
  exact hround (hassoc.mp (hsemilattice.mp hV)).1

end ValueLattice

end Tabulation
