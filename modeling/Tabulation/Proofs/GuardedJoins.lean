/-
What the check of joins guarantees: a run fails, or it loses nothing.

A problem may bring a join of edge functions that obeys no law at all.
With the check on, and all values of a finite lattice among the
samples, a join is accepted only if it is above both sides at every
value. That alone makes the jump functions of a complete run closed:
whatever flows out of a path edge is found at its target, with a jump
function above the one that leads there (`Solver.Covering`). It makes
every run come to an end too, because a function that is replaced is
replaced by a larger one, and there are finitely many functions on
finitely many values.

Edge functions need not be monotone. A path edge is followed again when
its jump function has changed, so the last jump function has been
carried along every edge.

# Old and new functions

A return is composed from a caller and a summary, and either may be
replaced later. When nothing is pending, the summaries are the jump
functions at the exits, and every pair has met with its last functions
(`Saturated`).
-/
import Mathlib.Algebra.Group.Action.Defs
import Mathlib.Data.Set.Finite.Basic
import Tabulation.Proofs.JoinOverPaths
import Tabulation.Proofs.Solver.Settling

namespace Tabulation

variable {D W L : Type} [DecidableEq L]

-- ====================================================== heights of values

/-- A sum of numbers that are all at most `n`. -/
private theorem sum_map_le {α : Type} (l : List α) {f : α → Nat} {n : Nat}
    (h : ∀ a, f a ≤ n) : (l.map f).sum ≤ l.length * n := by
  have hsum := List.sum_le_card_nsmul (l.map f) n fun x hx => by
    obtain ⟨a, _, rfl⟩ := List.mem_map.mp hx
    exact h a
  rw [List.length_map, smul_eq_mul] at hsum
  exact hsum

namespace ValueLattice

variable {V : ValueLattice L} {values : List L} {a b : L}

variable (V values) in
/-- The number of values above a value, itself included. On a finite
lattice this falls as values rise, and so bounds how often one can. -/
def height (v : L) : Nat := (values.map fun u => (V.leq v u).toNat).sum

/-- There are no more values above than there are values. -/
private theorem height_le_length (v : L) :
    V.height values v ≤ values.length := by
  have h := sum_map_le values fun u => (V.leq v u).toNat_le
  rw [Nat.mul_one] at h
  exact h

/-- What is above a value is above all that is below it. -/
private theorem height_le_of_leq (h : V.IsSemilattice)
    (hab : V.leq a b = true) : V.height values b ≤ V.height values a := by
  refine List.sum_le_sum fun u _ => ?_
  cases hbu : V.leq b u with
  | false => exact Nat.zero_le _
  | true =>
    rw [h.leq_trans hab hbu]

/-- A larger value has fewer values above it: the smaller one is above
itself, and not above the larger one. -/
private theorem height_lt_of_leq (h : V.IsSemilattice)
    (hvalues : ∀ v, v ∈ values) (hab : V.leq a b = true) (hne : b ≠ a) :
    V.height values b < V.height values a := by
  refine List.sum_lt_sum _ _ (fun u _ => ?_) ⟨a, hvalues a, ?_⟩
  · cases hbu : V.leq b u with
    | false => exact Nat.zero_le _
    | true => rw [h.leq_trans hab hbu]
  · have hba : V.leq b a = false := by
      rw [Bool.eq_false_iff]
      exact fun hba => hne (h.leq_antisymm hba hab)
    rw [hba, h.leq_refl a]
    exact Nat.zero_lt_one

/-- On a lattice with finitely many values, heights are a rank. -/
theorem isRank_height (h : V.IsSemilattice) (hvalues : ∀ v, v ∈ values) :
    V.IsRank (V.height values) values.length where
  bounded := height_le_length
  descends := fun {v u} hne =>
    height_lt_of_leq h hvalues (h.leq_join_left v u) hne

end ValueLattice

-- ========================================================== accepted joins

namespace Setup

variable {S : Setup D W L}

variable (S) in
/-- One edge function is below another at every value. Codes for
functions may differ and yet be the same here. -/
def Pointwise (f g : W) : Prop :=
  ∀ v, S.problem.lattice.leq (S.problem.functions.eval f v)
    (S.problem.functions.eval g v) = true

/-- A join that passes the check on all values is above both sides. The
check tries samples, and here the samples are all there is. -/
theorem pointwise_of_isUpperBound (hsamples : ∀ v, v ∈ S.problem.samples)
    {joined f g : W} (h : S.isUpperBound joined f g = true) :
    S.Pointwise f joined ∧ S.Pointwise g joined := by
  have hat : ∀ v, S.problem.functions.isAbove S.problem.lattice joined f g
      v = true := by
    intro v
    refine List.all_eq_true.mp h v
      (List.mem_cons_of_mem _ (List.mem_cons_of_mem _ ?_))
    exact List.mem_append_left _ (hsamples v)
  constructor
  · exact fun v => ((Bool.and_eq_true _ _).mp (hat v)).1
  · exact fun v => ((Bool.and_eq_true _ _).mp (hat v)).2

/-- Jump functions grow in this order, since a join that would not is
refused. -/
private theorem isGrowthOrder_pointwise (hlat : S.problem.lattice.IsSemilattice)
    (hcheck : S.config.checkMonotonicity = true)
    (hsamples : ∀ v, v ∈ S.problem.samples) : S.IsGrowthOrder S.Pointwise where
  refl := fun _ _ => hlat.leq_refl _
  trans := fun huv hvw x => hlat.leq_trans (huv x) (hvw x)
  join_above := fun h => pointwise_of_isUpperBound hsamples (h hcheck)

variable (S) in
/-- The heights of all outputs of an edge function together. It falls
when the function rises at any value at all. -/
def functionHeight (f : W) : Nat :=
  (S.problem.samples.map fun v =>
    S.problem.lattice.height S.problem.samples
      (S.problem.functions.eval f v)).sum

/-- Under the check these heights are a rank of edge functions. A
function that is replaced by another one rises at some value, as
different codes are different functions. -/
private theorem isRank_functionHeight (hlat : S.problem.lattice.IsSemilattice)
    (hfunctions : Function.Injective S.problem.functions.eval)
    (hcheck : S.config.checkMonotonicity = true)
    (hsamples : ∀ v, v ∈ S.problem.samples) :
    S.IsRank S.functionHeight
      (S.problem.samples.length * S.problem.samples.length) where
  bounded := fun f => sum_map_le _ fun v => ValueLattice.height_le_length _
  descends := by
    intro f g hok hne
    obtain ⟨hf, _⟩ := pointwise_of_isUpperBound hsamples (hok hcheck)
    obtain ⟨v, hv⟩ := Function.ne_iff.mp fun heq => hne (hfunctions heq)
    refine List.sum_lt_sum _ _ (fun u _ => ?_) ⟨v, hsamples v, ?_⟩
    · exact ValueLattice.height_le_of_leq hlat (hf u)
    · exact ValueLattice.height_lt_of_leq hlat hsamples (hf v) hv

end Setup

/-- On two values, the three functions are different. So a change of
code is a change of function. -/
theorem BinaryEdge.injective_eval :
    Function.Injective (BinaryEdge.eval Binary.lattice) := by
  intro f g h
  have hbottom := congrFun h .bottom
  have htop := congrFun h .top
  cases f with
  | allBottom =>
    cases g with
    | allBottom => rfl
    | allTop => cases hbottom
    | identity => cases htop
  | allTop =>
    cases g with
    | allBottom => cases hbottom
    | allTop => rfl
    | identity => cases hbottom
  | identity =>
    cases g with
    | allBottom => cases htop
    | allTop => cases hbottom
    | identity => rfl

namespace Solver

variable [DecidableEq D]
variable {S : Setup D W L} {graph : FlowGraph} {s : State D W L}

-- ======================================================= nothing is lost

variable (S) in
/-- A path edge is on record with a jump function that is at least `f`
at every value. -/
def Covers (s : State D W L) (e : PathEdge D) (f : L → L) : Prop :=
  ∃ f', s.jump? e = some f' ∧
    ∀ v, S.problem.lattice.leq (f v) (S.problem.functions.eval f' v) = true

variable (S) in
/-- Whatever flows out of a path edge is covered at its target, with
the jump functions and summaries that the tables hold. -/
structure Covering (I : Icfg) (s : State D W L) : Prop where
  seed : ∀ seed ∈ S.seedsOn I, Covers S s ⟨seed.fact, seed.node, seed.fact⟩ id
  normal : ∀ {e f m d w}, s.jump? e = some f → I.isCall e.node = false →
    I.isExit? e.node = some false → m ∈ I.successors e.node →
    (d, w) ∈ S.normalTargets e.node m e.target →
    Covers S s ⟨e.source, m, d⟩
      (S.problem.functions.eval w ∘ S.problem.functions.eval f)
  pass : ∀ {e f r d w}, s.jump? e = some f → I.isCall e.node = true →
    I.returnSite? e.node = some r → (d, w) ∈ S.passTargets e.node r e.target →
    Covers S s ⟨e.source, r, d⟩
      (S.problem.functions.eval w ∘ S.problem.functions.eval f)
  entry : ∀ {e f g start d w}, s.jump? e = some f → I.Enters e.node g start →
    (d, w) ∈ S.callTargets e.node g start e.target → Covers S s ⟨d, start, d⟩ id
  /-- The summaries are the jump functions at the exits. -/
  summary : ∀ {g d x b h}, s.summaries.get? ⟨g, d, x, b⟩ = some h ↔
    I.Leaves x g ∧ s.jump? ⟨d, x, b⟩ = some h
  through : ∀ {e f g start d w x b h r t u}, s.jump? e = some f →
    I.Enters e.node g start → (d, w) ∈ S.callTargets e.node g start e.target →
    s.summaries.get? ⟨g, d, x, b⟩ = some h → I.returnSite? e.node = some r →
    (t, u) ∈ S.returnTargets e.node g x r b e.target →
    Covers S s ⟨e.source, r, t⟩
      (S.problem.functions.eval u ∘ S.problem.functions.eval h ∘
        S.problem.functions.eval w ∘ S.problem.functions.eval f)

/-- What is above a code in this order is above the function it stands
for. -/
theorem AtLeast.covers {e : PathEdge D} {f : W}
    (h : AtLeast S.Pointwise s e f) :
    Covers S s e (S.problem.functions.eval f) :=
  h

variable [DecidableEq W]

/-- A complete run under the check covers all that flows. At the end of
the loop the tables are saturated in the order of functions at every
value, and one clause after the other is read off from that. -/
theorem covering_of_completed (hwf : (S.view graph).WellFormed)
    (hpure : S.problem.IsPure) (hlat : S.problem.lattice.IsSemilattice)
    (hexact : S.problem.functions.IsExact)
    (hcheck : S.config.checkMonotonicity = true)
    (hsamples : ∀ v, v ∈ S.problem.samples) {fuel : Nat} {r : Results D L}
    {s₁ : State D W L} {values : Option (Grid Node D L)}
    (h : Completed S fuel graph r s₁ s values) :
    Covering S (S.view graph) s := by
  have hle := Setup.isGrowthOrder_pointwise hlat hcheck hsamples
  obtain ⟨hsaturated, met, hfinished⟩ :=
    saturated_of_isPure hle hpure hwf.start_owned h.begun h.looped
  have hstable := hsaturated.stable
  have hgraph := hfinished.graph_eq hpure
  have hsummary := fun k h => hfinished.summary_iff hsaturated hgraph
    (k := k) (h := h)
  have hidentity : S.problem.functions.eval S.identity = id :=
    funext hexact.eval_identity
  have hcomp : ∀ f g, S.problem.functions.eval (S.comp f g) =
      S.problem.functions.eval g ∘ S.problem.functions.eval f :=
    fun f g => funext (hexact.eval_comp f g)
  subst hgraph
  refine ⟨fun seed hseed => ?_, fun hf hcall hexit hm hd => ?_,
    fun hf hcall hr hd => ?_, fun hf henter hd => ?_, hsummary _ _,
    fun hf henter hd hh hr ht => ?_⟩
  · rw [← hidentity]
    exact hfinished.present seed hseed
  · rw [← hcomp]
    exact hstable.normal hf hcall hexit hm hd
  · rw [← hcomp]
    exact hstable.pass hf hcall hr hd
  · rw [← hidentity]
    exact hstable.entry hf henter hd
  -- composed from the call or from the exit: as functions, both ways
  -- are the same
  · obtain ⟨hleave, hh⟩ := (hsummary _ _).mp hh
    rcases hstable.returned hf hh henter hd hleave hr ht with hback | hback
    · have hcovers := hback.covers
      rw [hcomp, hcomp, hcomp] at hcovers
      exact hcovers
    · have hcovers := hback.covers
      rw [hcomp, hcomp, hcomp] at hcovers
      exact hcovers

-- ======================================================= coming to an end

/-- A flow graph owns finitely many nodes: those it has listed. -/
private theorem finite_owned (g : FlowGraph) : {n | Owned g.icfg n}.Finite := by
  refine g.owner.keys.finite_toSet.subset fun n hn => ?_
  exact Table.mem_keys.mpr hn

/-- Every run under the check comes to an end. There are finitely many
path edges over finitely many nodes and facts, and the height of
functions bounds how often each can change. -/
theorem halts_of_checked [Finite D] (hwf : (S.view graph).WellFormed)
    (hnodes : {n | Owned (S.view graph) n}.Finite) (hpure : S.problem.IsPure)
    (hlat : S.problem.lattice.IsSemilattice)
    (hfunctions : Function.Injective S.problem.functions.eval)
    (hcheck : S.config.checkMonotonicity = true)
    (hsamples : ∀ v, v ∈ S.problem.samples) :
    Halts (· ≠ .outOfFuel) (run S) (fun _ _ => True) (State.start S graph) := by
  have := Fintype.ofFinite D
  have hall : ∀ d : D, d ∈ (Finset.univ : Finset D).toList :=
    fun d => Finset.mem_toList.mpr (Finset.mem_univ d)
  have hfacts : S.Confines (Finset.univ : Finset D).toList :=
    ⟨fun _ _ => hall _, fun _ _ => hall _, fun _ _ _ => hall _,
      fun _ _ => hall _⟩
  have hadmits : Admits S (S.view graph) (· ≠ .outOfFuel) :=
    ⟨fun _ _ => nofun, fun _ _ => nofun, fun _ _ _ => nofun, fun _ _ _ => nofun,
      fun _ _ _ => nofun, fun _ _ _ _ _ => nofun⟩
  have hguards : Guards S (S.view graph)
      (fun s => Kept S (S.view graph) s ∧
      Contained (S.view graph) (Finset.univ : Finset D).toList s ∧
      s.graph = graph) (· ≠ .outOfFuel) :=
    guards_of_contained (Setup.isSteady_of_isPure hpure) hwf hfacts
      (fun hs h => (h.graph_eq hpure).trans hs) (fun _ _ _ _ hs => hs)
        (fun _ => nofun)
      (fun _ _ _ => nofun) (fun _ _ _ _ _ => nofun)
  have howned : ∀ {n}, Owned (S.view graph) n → n ∈ hnodes.toFinset.toList :=
    fun hn => Finset.mem_toList.mpr (hnodes.mem_toFinset.mpr hn)
  -- without requests there is one revision only
  have hrevision : ∀ {s : State D W L}, (Kept S (S.view graph) s ∧
      Contained (S.view graph) (Finset.univ : Finset D).toList s ∧
      s.graph = graph) →
      (S.view s.graph).revision ≤ (S.view graph).revision := by
    intro s hs
    rw [hs.2.2]
  exact ((halts_run hwf hadmits hguards
    (fun hs => ⟨hs.kept, hs.contained hwf fun seed _ => hall seed.fact,
      hs.graph_eq⟩)
    (fun hs => hs.2.1) howned
    (Setup.isRank_functionHeight hlat hfunctions hcheck hsamples) hrevision hlat
    (ValueLattice.isRank_height hlat hsamples)).mono fun _ _ _ => trivial).allow
    fun _ h => h.1

/-- With the check on and all values among the samples, solving comes
to an end whatever the join of edge functions does, and a complete run
covers all that flows out of its path edges. -/
theorem halts_and_covers [Finite D] (hwf : (S.view graph).WellFormed)
    (hnodes : {n | Owned (S.view graph) n}.Finite) (hpure : S.problem.IsPure)
    (hlat : S.problem.lattice.IsSemilattice)
    (hexact : S.problem.functions.IsExact)
    (hfunctions : Function.Injective S.problem.functions.eval)
    (hcheck : S.config.checkMonotonicity = true)
    (hsamples : ∀ v, v ∈ S.problem.samples) :
    (∃ enough, (solve S enough graph).1 ≠ .error .outOfFuel ∧
      ∀ fuel, enough ≤ fuel → solve S fuel graph = solve S enough graph) ∧
    ∀ fuel r, (solve S fuel graph).1 = .ok r → r.status = .complete →
      ∃ s₁ s values, Completed S fuel graph r s₁ s values ∧
      Covering S (S.view graph) s := by
  constructor
  · obtain ⟨enough, hmore, hends⟩ := exists_enough
      (halts_of_checked hwf hnodes hpure hlat hfunctions hcheck hsamples)
    refine ⟨enough, ?_, hmore⟩
    rcases hends with ⟨r, _, hr, _⟩ | ⟨failure, hfail, hne⟩
    · rw [hr]
      nofun
    · rw [hfail]
      exact fun heq => hne (Except.error.inj heq)
  · intro fuel r hrun hcomplete
    obtain ⟨s₁, s, values, h⟩ := completed_of_solve hrun hcomplete
    exact ⟨s₁, s, values, h,
        covering_of_completed hwf hpure hlat hexact hcheck hsamples h⟩

/-- The token of `twoVisitsSetup`, under a join that takes any two
functions to the top. -/
def lawlessSetup : Setup Bool BinaryEdge Binary :=
  { twoVisitsSetup with
    problem :=
      { twoVisitsSetup.problem with
        functions :=
          { BinaryEdge.functions Binary.lattice with
            join := fun _ _ => .allTop }
        samples := [.bottom, .top] } }

/-- The second visit joins the identity to itself, and the join is
larger than both. The run goes on from there, and covers all that
flows. -/
theorem halts_and_covers_twoVisits :
    lawlessSetup.problem.functions.join .identity .identity ≠ .identity ∧
    (∃ enough, (solve lawlessSetup enough twoVisits.build.graph).1 ≠
        .error .outOfFuel ∧
      ∀ fuel, enough ≤ fuel →
        solve lawlessSetup fuel twoVisits.build.graph =
          solve lawlessSetup enough twoVisits.build.graph) ∧
    ∃ r s₁ s values, r.status = .complete ∧
      Completed lawlessSetup 100 twoVisits.build.graph r s₁ s values ∧
      Covering lawlessSetup twoVisits.build.graph.icfg s := by
  have hlaid : twoVisits.build.IsLaidOut :=
    Draft.isLaidOut_build (Draft.isNumbered_ofSteps _)
      (by unfold Draft.IsScoped; decide)
  have heval : (solve lawlessSetup 100 twoVisits.build.graph).1.toOption.map
      (fun r => r.status) = some .complete := by decide +kernel
  obtain ⟨r, hrun, hcomplete⟩ := exists_ok_of_map heval
  have hexact : lawlessSetup.problem.functions.IsExact :=
    ⟨(BinaryEdge.isDistributive Binary.isSemilattice).eval_comp, fun _ => rfl⟩
  have hboth := halts_and_covers hlaid.wellFormed (finite_owned _)
    (fun _ _ _ => rfl) Binary.isSemilattice hexact BinaryEdge.injective_eval
    rfl fun v => by cases v <;> decide
  obtain ⟨s₁, s, values, h, hcovering⟩ := hboth.2 100 r hrun hcomplete
  exact ⟨nofun, hboth.1, r, s₁, s, values, hcomplete, h, hcovering⟩

end Solver

end Tabulation
