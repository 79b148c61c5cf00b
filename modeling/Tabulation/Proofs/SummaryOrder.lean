/-
A summary is applied from the call, or from the exit.

When a call finds a summary of its callee, it composes from the left:
the jump function of the caller, the call, the summary, the return.
When an exit finds a call that waits, what happened since the call is
composed first, and then put behind the jump function of the caller.
Which of the two comes later depends on the order of the worklist.

# Where they differ

Words have a range, and a composition whose coefficients leave it is
given up. The two ways make different compositions on their way, so one
may be given up where the other is not
(`overflow_depends_on_grouping`). Then one of the two values is the
top. Two different constants never come out, as both ways round the
same effect; and if none of the compositions overflows the two come to
the same code.

# Whole runs

What holds of one summary holds of runs. Two complete runs of one
problem in different orders report for each fact the same value, unless
one of them reports the top: a value other than the top is exact for
some path, and the other run is above the values of all paths.

Nor can that happen if neither run makes a composition at a return that
overflows. What is asked for concerns the compositions behind the
tables that a run leaves (`Solver.ReturnsFit`), and not all that could
be made of what follows by the rules: a function that was joined with
another before a call took it up, or a way to compose that was not
taken, may overflow as it likes. A composition that fits is below all
compositions of larger functions, in either way
(`LinearEdge.compose_le`). So each of the two runs is below the other.
-/
import Tabulation.Problem.Rules
import Tabulation.Proofs.LinearProblems
import Tabulation.Proofs.OrderIndependence

namespace Tabulation

open Supergraph LinearEdge

-- ============================================================= one summary

namespace LinearEdge

/-- As a call applies a summary: to the jump function of the caller
with the call. -/
def atCall (j c s r : LinearEdge) : Grouping LinearEdge :=
  .pair (.pair (.pair (.single j) (.single c)) (.single s)) (.single r)

/-- As an exit applies a summary: with the call and the return, behind
the jump function of the caller. -/
def atExit (j c s r : LinearEdge) : Grouping LinearEdge :=
  .pair (.single j) (.pair (.pair (.single c) (.single s)) (.single r))

variable {j c s r : LinearEdge}

/-- The four functions that a return is composed of, as a chain. -/
private theorem isNormal_of_mem_chain (hj : j.IsNormal) (hc : c.IsNormal)
    (hs : s.IsNormal) (hr : r.IsNormal) : ∀ f ∈ [j, c, s, r], f.IsNormal := by
  intro f hf
  simp only [List.mem_cons, List.not_mem_nil, or_false] at hf
  rcases hf with rfl | rfl | rfl | rfl <;> assumption

/-- For codes in normal form the order of codes is that of their
effects. -/
private theorem le_of_below {f g : LinearEdge} (hf : f.IsNormal)
    (hg : g.IsNormal) (h : ∀ a, (f.evalExact a).Below (g.evalExact a)) :
    functions.Le f g := by
  rw [le_iff]
  by_cases hbottom : f = allBottom
  · exact Or.inr (Or.inl hbottom)
  by_cases htop : g = allTop
  · exact Or.inr (Or.inr htop)
  -- numbers are not taken to the bottom by the one, nor to the top by the other
  refine Or.inl (eq_of_evalExact hf hg fun i => ?_)
  rcases h (.int i) with hvalue | hvalue | hvalue
  · cases f with
    | allBottom => exact absurd rfl hbottom
    | _ => cases hvalue
  · cases g with
    | allTop => exact absurd rfl htop
    | _ => cases hvalue
  · exact hvalue

/-- And for all codes, a larger one has a larger effect. -/
private theorem below_of_le {f g : LinearEdge} (h : functions.Le f g)
    (a : ExactValue) : (f.evalExact a).Below (g.evalExact a) := by
  rcases le_iff.mp h with rfl | rfl | rfl
  · exact .refl _
  · exact ExactValue.bottom_below _
  · exact ExactValue.below_top _

/-- Smaller functions one after the other have a smaller effect. -/
private theorem evalExactAll_below {fs gs : List LinearEdge}
    (h : List.Forall₂ functions.Le fs gs) {a b : ExactValue} (hab : a.Below b) :
    (evalExactAll fs a).Below (evalExactAll gs b) := by
  induction h generalizing a b with
  | nil => exact hab
  | @cons f g fs gs hfg _ ih =>
    exact ih ((f.evalExact_mono hab).trans (below_of_le hfg b))

/-- A grouping that fits is below every grouping of larger functions,
whether that fits or not. This is the one place where it matters that
compositions fit. -/
private theorem compose_le {F G : Grouping LinearEdge}
    (hF : ∀ f ∈ F.chain, f.IsNormal) (hG : ∀ f ∈ G.chain, f.IsNormal)
    (hfits : F.Fits) (h : List.Forall₂ functions.Le F.chain G.chain) :
    functions.Le (F.compose comp) (G.compose comp) := by
  refine le_of_below (F.rounds_compose hF).normal (G.rounds_compose hG).normal
    fun a => ?_
  rw [F.evalExact_compose hF hfits]
  rcases (G.rounds_compose hG).evalExact a with htop | hexact
  · rw [htop]
    exact ExactValue.below_top _
  · rw [hexact]
    exact evalExactAll_below h (.refl a)

/-- What a return comes to by compositions none of which overflows. -/
inductive FittingReturn (f w h v : LinearEdge) : LinearEdge → Prop
  | atCall : (atCall f w h v).Fits →
      FittingReturn f w h v (comp (comp (comp f w) h) v)
  | atExit : (atExit f w h v).Fits →
      FittingReturn f w h v (comp f (comp (comp w h) v))

/-- Applied in both ways, a summary gives the exact value, or it is
given up. -/
private theorem exact_or_top (hj : j.IsNormal) (hc : c.IsNormal)
    (hs : s.IsNormal) (hr : r.IsNormal) (v : ConstValue) :
    (eval (comp (comp (comp j c) s) r) v = .top ∨
      (eval (comp (comp (comp j c) s) r) v).toExact =
        evalExactAll [j, c, s, r] v.toExact) ∧
    (eval (comp j (comp (comp c s) r)) v = .top ∨
      (eval (comp j (comp (comp c s) r)) v).toExact =
        evalExactAll [j, c, s, r] v.toExact) := by
  have hchain := isNormal_of_mem_chain hj hc hs hr
  exact ⟨((atCall j c s r).rounds_compose hchain).eval (Or.inr rfl),
    ((atExit j c s r).rounds_compose hchain).eval (Or.inr rfl)⟩

/-- A function that is constant, an extreme or the identity. -/
def IsSlopeless : LinearEdge → Prop
  | linear _ _ => False
  | _ => True

/-- Only a slope can overflow. -/
private theorem overflows_of_isSlopeless {f g : LinearEdge}
    (hg : g.IsSlopeless) : overflows f g = false := by
  cases g with
  | linear a b => exact absurd hg id
  | _ => cases f <;> rfl

private theorem isSlopeless_comp {f g : LinearEdge} (hf : f.IsSlopeless)
    (hg : g.IsSlopeless) : (comp f g).IsSlopeless := by
  cases g with
  | linear a b => exact absurd hg id
  | identity => cases f <;> exact hf
  | _ => exact trivial

private theorem isSlopeless_join {f g : LinearEdge} (hf : f.IsSlopeless)
    (hg : g.IsSlopeless) : (join f g).IsSlopeless := by
  rcases join_cases f g with ⟨h, _⟩ | ⟨h, _⟩ | h
  · rw [h]
    exact hf
  · rw [h]
    exact hg
  · rw [h]
    exact trivial

end LinearEdge

-- ================================================================ whole runs

variable {D : Type}

/-- The same problem, with the worklist in another order and in other
surroundings. -/
def Setup.reorder {W L : Type} (S : Setup D W L) (order : WorklistOrder)
    (world : World) : Setup D W L :=
  { S with config := { S.config with order }, world }

variable {S : Setup D LinearEdge ConstValue} {graph : FlowGraph}
variable {order : WorklistOrder}
variable {world : World}

theorem Setup.IsLinear.reorder (hS : S.IsLinear) :
    (S.reorder order world).IsLinear :=
  ⟨hS.functions, hS.lattice, hS.flow, hS.returnFlow⟩

/-- Linear functions are ordered by their joins, and composition keeps
the order. -/
theorem Setup.IsLinear.isMonotone (hS : S.IsLinear) : S.IsMonotone where
  ordered := by
    rw [hS.functions]
    exact LinearEdge.isOrdered
  isSemilattice := hS.isSemilattice
  eval_mono := by
    intro w v u hle
    rw [hS.lattice] at hle ⊢
    rw [hS.eval_eq, hS.eval_eq]
    exact LinearEdge.eval_mono w hle

/-- Returns that fit are among those that a run may make. -/
theorem Setup.IsLinear.returns (hS : S.IsLinear) {f w h v u : LinearEdge}
    (hu : FittingReturn f w h v u) : S.Returns f w h v u := by
  cases hu with
  | atCall _ =>
    simp only [← hS.comp_eq]
    exact .atCall
  | atExit _ =>
    simp only [← hS.comp_eq]
    exact .atExit

variable [DecidableEq D]

/-- No composition overflows that was made at a return for what a
complete run has found: its jump functions follow by the rules, with
returns that fit in the way they were composed. Only the path edges of
this run count, and for each of them one way to come by its jump
function, such as the one the run took. -/
def Solver.ReturnsFit (S : Setup D LinearEdge ConstValue) (fuel : Nat)
    (graph : FlowGraph) : Prop :=
  Solver.FoundBy S fuel graph FittingReturn

/-- Returns that fit are below all that runs may make of them. So the
general comparison of two runs applies (`agree_of_twins`). -/
theorem Setup.IsLinear.returnsBelow (hS : S.IsLinear) (I : Icfg) :
    S.ReturnsBelow I FittingReturn := by
  refine ⟨?_⟩
  intro d₁ d a d₂ t c start x r g f f' w h h' v u u' hf hf' hle henter hw hh hh'
    hle' hleave hr hv hu hu'
  have hderivable : ∀ {e f}, DerivableBy S I FittingReturn e f →
    Derivable S I e f := fun he => he.imp fun _ _ _ _ _ _ _ => hS.returns
  have hin : w.IsNormal := hS.isNormal_of_step
    (Step.call (k := []) henter.isCall henter.callee henter.start hw)
  have hout : v.IsNormal := hS.isNormal_of_step
    (Step.ret (k := []) hleave.notCall hleave.isExit hleave.procOf hr hv)
  have hchain :=
    isNormal_of_mem_chain (hS.isNormal_of_derivable (hderivable hf)) hin
    (hS.isNormal_of_derivable (hderivable hh)) hout
  have hchain' := isNormal_of_mem_chain (hS.isNormal_of_derivable hf') hin
    (hS.isNormal_of_derivable hh') hout
  rw [hS.functions] at hle hle' ⊢
  have hlarger : List.Forall₂ LinearEdge.functions.Le [f, w, h, v]
    [f', w, h', v] := .cons hle (.cons (LinearEdge.isOrdered.refl w)
      (.cons hle' (.cons (LinearEdge.isOrdered.refl v) .nil)))
  -- whichever way the larger functions are composed in, the chain is the same
  have hcode : ∃ G : Grouping LinearEdge,
      G.chain = [f', w, h', v] ∧ u' = G.compose LinearEdge.comp := by
    cases hu' with
    | atCall =>
      simp only [hS.comp_eq]
      exact ⟨atCall f' w h' v, rfl, rfl⟩
    | atExit =>
      simp only [hS.comp_eq]
      exact ⟨atExit f' w h' v, rfl, rfl⟩
  obtain ⟨G, hG, rfl⟩ := hcode
  rw [← hG] at hchain' hlarger
  cases hu with
  | atCall hfits =>
    exact compose_le (F := atCall f w h v) hchain hchain' hfits hlarger
  | atExit hfits =>
    exact compose_le (F := atExit f w h v) hchain hchain' hfits hlarger

/-- Where constants are copied and nothing is computed from them, no
return overflows. -/
theorem Setup.IsLinear.returnsFit (hS : S.IsLinear) (hpure : S.problem.IsPure)
    (hwf : (S.view graph).WellFormed)
    (hanswers : ∀ {d answer}, S.Answers d answer →
      ∀ t ∈ answer, t.2.IsSlopeless) (fuel : Nat) :
    Solver.ReturnsFit S fuel graph := by
  have hidentity : S.identity.IsSlopeless := by
    rw [hS.identity_eq]
    exact trivial
  have hjoin : ∀ {f g : LinearEdge}, f.IsSlopeless → g.IsSlopeless →
      (S.problem.functions.join f g).IsSlopeless := by
    intro f g hf hg
    rw [hS.join_eq]
    exact isSlopeless_join hf hg
  have hjump : ∀ {e f}, Derivable S (S.view graph) e f → f.IsSlopeless := by
    intro e f h
    refine h.weight_of_answers hidentity ?_ hjoin hanswers
    intro f g hf hg
    rw [hS.comp_eq]
    exact isSlopeless_comp hf hg
  have htarget : ∀ {d : D} {t : D × LinearEdge},
      (∃ answer, S.Answers d answer ∧ t ∈ S.effective d answer) →
      t.2.IsSlopeless := by
    rintro d t ⟨answer, hanswer, ht⟩
    exact Setup.weight_of_mem_effective hidentity hjoin (hanswers hanswer) t ht
  refine ⟨fun {r s} hrun hcomplete {e f} hf => ?_⟩
  have hderivable := (Solver.foundBy_returns hpure hwf fuel).derivable hrun
    hcomplete hf
  refine hderivable.imp ?_
  intro d₁ d a d₂ t c start x r g f w h v u _ _ hw hh _ _ hv hu
  -- every part of a return is slopeless, so no grouping of them can
  -- overflow
  have hin := htarget (Setup.exists_answer_of_flow hw)
  have hout := htarget (Setup.exists_answer_of_returnTargets hv)
  have hsince := isSlopeless_comp (isSlopeless_comp hin (hjump hh)) hout
  cases hu with
  | atCall =>
    simp only [hS.comp_eq]
    exact .atCall
      ⟨⟨⟨trivial, trivial, overflows_of_isSlopeless hin⟩, trivial,
      overflows_of_isSlopeless (hjump hh)⟩, trivial,
      overflows_of_isSlopeless hout⟩
  | atExit =>
    simp only [hS.comp_eq]
    exact .atExit ⟨trivial,
      ⟨⟨trivial, trivial, overflows_of_isSlopeless (hjump hh)⟩, trivial,
      overflows_of_isSlopeless hout⟩, overflows_of_isSlopeless hsince⟩

namespace Solver

variable {fuel fuel' : Nat} {r r' : Results D ConstValue}
variable {T : Setup D LinearEdge ConstValue}

/-- What one run reports, unless it is the top, is below what any other
run reports. It is exact for some path, and the other run is above all
paths. -/
private theorem resultAt_below (hS : S.IsLinear) (hT : T.IsLinear)
    (hsame : S.SameFlows T) (hview : T.view = S.view)
    (hwf : (S.view graph).WellFormed) (hlists : (S.view graph).ListsOwnCalls)
    (hpure : S.problem.IsPure) (hpure' : T.problem.IsPure)
    (hvalues : S.config.computeValues = true)
    (hvalues' : T.config.computeValues = true)
    (hrun : (solve S fuel graph).1 = .ok r) (hcomplete : r.status = .complete)
    (hrun' : (solve T fuel' graph).1 = .ok r')
    (hcomplete' : r'.status = .complete) {n : Node} {d : D}
    (htop : r.resultAt n d ≠ .top) :
    (r.resultAt n d).toExact.Below (r'.resultAt n d).toExact := by
  rcases exact_resultAt hS hwf hlists hpure hvalues hrun hcomplete n d
    with h | h | h
  · rw [h]
    exact ExactValue.bottom_below _
  · exact absurd h htop
  · -- the path that has this value is one of the other run, too
    rw [← hview] at hwf h
    obtain ⟨seed, hseed, ws, k, hpath, ha⟩ := h
    rw [← hsame.seedsOn] at hseed
    exact below_resultAt hT hwf hpure' hvalues' hrun' hcomplete'
      ⟨seed, hseed, ws, k, hpath.transfer hsame, ha⟩

/-- Two complete runs in different orders report the same value, unless
one reports the top; and the same value in any case if no composition
that they make at a return overflows. -/
private theorem resultAt_reorder (hS : S.IsLinear)
    (hwf : (S.view graph).WellFormed) (hlists : (S.view graph).ListsOwnCalls)
    (honce : ∀ c, ((S.view graph).callees c).Nodup) (hpure : S.problem.IsPure)
    (hvalues : S.config.computeValues = true)
    (hrun : (solve S fuel graph).1 = .ok r) (hcomplete : r.status = .complete)
    (hrun' : (solve (S.reorder order world) fuel' graph).1 = .ok r')
    (hcomplete' : r'.status = .complete) (n : Node) (d : D) :
    (r.resultAt n d = r'.resultAt n d ∨ r.resultAt n d = .top ∨
      r'.resultAt n d = .top) ∧
      (ReturnsFit S fuel graph →
      ReturnsFit (S.reorder order world) fuel' graph →
      r.resultAt n d = r'.resultAt n d) := by
  have hsame : S.SameFlows (S.reorder order world) := by
    refine Setup.Replays.sameFlows ⟨?_, rfl, rfl⟩
    have hrequests : S.problem.requests = fun _ _ _ => [] := by
      funext k edge d
      exact hpure k edge d
    rw [← hrequests]
    rfl
  constructor
  · by_cases htop : r.resultAt n d = .top
    · exact Or.inr (Or.inl htop)
    by_cases htop' : r'.resultAt n d = .top
    · exact Or.inr (Or.inr htop')
    refine Or.inl (ConstValue.toExact_inj (ExactValue.Below.antisymm ?_ ?_))
    · exact resultAt_below hS hS.reorder hsame rfl hwf hlists hpure hpure
        hvalues hvalues hrun hcomplete hrun' hcomplete' htop
    · exact resultAt_below hS.reorder hS hsame.symm rfl hwf hlists hpure hpure
        hvalues hvalues hrun' hcomplete' hrun hcomplete htop'
  · intro hfit hfit'
    have htwins : S.Twins (S.reorder order world) :=
      ⟨rfl, rfl, rfl, rfl, rfl, hpure⟩
    have hagree := agree_of_twins htwins hS.isMonotone (hS.returnsBelow _) hfit
      hfit' hwf honce hrun hcomplete hrun' hcomplete'
    exact (hagree.resultAt n d).symm

end Solver

-- ============================================================= the theorem

/-- In a problem over linear functions a summary gives the same in both
ways to apply it, to one caller and in whole runs, unless a composition
that is made overflows; and then what is given up is all that differs. -/
theorem summaries_agree_unless_given_up {S : Setup D LinearEdge ConstValue}
    (hS : S.IsLinear) :
    (∀ {j c s r : LinearEdge}, j.IsNormal → c.IsNormal → s.IsNormal →
      r.IsNormal → ((atCall j c s r).Fits → (atExit j c s r).Fits →
        S.comp (S.comp (S.comp j c) s) r = S.comp j (S.comp (S.comp c s) r)) ∧
      ∀ v : ConstValue,
        (eval (S.comp (S.comp (S.comp j c) s) r) v = .top ∨
          (eval (S.comp (S.comp (S.comp j c) s) r) v).toExact =
            evalExactAll [j, c, s, r] v.toExact) ∧
        (eval (S.comp j (S.comp (S.comp c s) r)) v = .top ∨
          (eval (S.comp j (S.comp (S.comp c s) r)) v).toExact =
            evalExactAll [j, c, s, r] v.toExact) ∧
        (eval (S.comp (S.comp (S.comp j c) s) r) v =
            eval (S.comp j (S.comp (S.comp c s) r)) v ∨
          eval (S.comp (S.comp (S.comp j c) s) r) v = .top ∨
          eval (S.comp j (S.comp (S.comp c s) r)) v = .top)) ∧
    ∀ {graph : FlowGraph} {order : WorklistOrder} {world : World}
      {fuel fuel' : Nat} {r r' : Results D ConstValue},
      S.problem.IsPure → (S.view graph).WellFormed →
      (S.view graph).ListsOwnCalls → (∀ c, ((S.view graph).callees c).Nodup) →
      S.config.computeValues = true → (Solver.solve S fuel graph).1 = .ok r →
      r.status = .complete →
      (Solver.solve (S.reorder order world) fuel' graph).1 = .ok r' →
      r'.status = .complete → ∀ n d,
        (r.resultAt n d = r'.resultAt n d ∨ r.resultAt n d = .top ∨
          r'.resultAt n d = .top) ∧
        (Solver.ReturnsFit S fuel graph →
          Solver.ReturnsFit (S.reorder order world) fuel' graph →
          r.resultAt n d = r'.resultAt n d) := by
  constructor
  · intro j c s r hj hc hs hr
    simp only [hS.comp_eq]
    have hchain := isNormal_of_mem_chain hj hc hs hr
    refine ⟨fun hcall hexit => ?_, fun v => ?_⟩
    · exact Grouping.compose_eq_of_fits (F := atCall j c s r)
        (G := atExit j c s r) rfl hchain hcall hexit
    · obtain ⟨hcall, hexit⟩ := exact_or_top hj hc hs hr v
      refine ⟨hcall, hexit, ?_⟩
      rcases hcall with hcall | hcall
      · exact Or.inr (Or.inl hcall)
      · rcases hexit with hexit | hexit
        · exact Or.inr (Or.inr hexit)
        · exact Or.inl (ConstValue.toExact_inj (hcall.trans hexit.symm))
  · intro graph order world fuel fuel' r r' hpure hwf hlists honce hvalues hrun
      hcomplete hrun' hcomplete' n d
    exact Solver.resultAt_reorder hS hwf hlists honce hpure hvalues hrun
      hcomplete hrun' hcomplete' n d

-- ============================================================= a late call

/-- What holds of the edge functions of rules and of the fallback holds
of all answers. -/
theorem FlowRule.weight_of_mem_eval {W : Type} {Q : W → Prop}
    {rules : List (FlowRule D W)} {fallback : D → List (D × W)}
    (hrules : ∀ rule ∈ rules, ∀ t ∈ rule.targets, Q t.2)
    (hfallback : ∀ d, ∀ t ∈ fallback d, Q t.2) {edge : FlowEdge} {d : D}
    {callFact : Option D} :
    ∀ t ∈ eval rules fallback edge d callFact, Q t.2 := by
  unfold eval
  cases hfind : rules.find? fun rule => rule.applies edge d callFact with
  | none => exact hfallback d
  | some rule => exact hrules rule (List.mem_of_find?_eq_some hfind)

/-- A procedure that is called twice, the second time some statements
later. -/
def lateCall : List Draft.Step := [
  .declare "main" [],
  .declare "scaled" [],
  .write ⟨0⟩ .nop,
  .write ⟨0⟩ (.call (.direct ⟨1⟩) [] none),
  .write ⟨0⟩ .nop,
  .write ⟨0⟩ .nop,
  .write ⟨0⟩ (.call (.direct ⟨1⟩) [] none),
  .write ⟨0⟩ .nop,
  .write ⟨1⟩ .nop]

/-- A fact that starts with the constant zero goes into both calls of
`lateCall` by `call`, through the procedure by `body`, and back from
the second call. -/
def lateCallRules (call body : LinearEdge) : List (FlowRule Bool LinearEdge) :=
  [ ⟨.normal, [some 0], .exactly false, none, [(true, .const Word.zero)]⟩,
    ⟨.normal, [some 6], .exactly true, none, [(true, body)]⟩,
    ⟨.call, [], .exactly true, none, [(true, call)]⟩,
    ⟨.ret, [some 4], .exactly true, none, [(true, .identity)]⟩,
    ⟨.ret, [], .exactly true, none, []⟩,
    ⟨.callToReturn, [some 4], .exactly true, none, []⟩]

/-- The table of `lateCall`. -/
def lateCallSetup (call body : LinearEdge) :
    Setup Bool LinearEdge ConstValue where
  problem :=
    { lattice := ConstValue.lattice
      functions := LinearEdge.functions
      zero := false
      entries := [⟨0⟩]
      initial := .bottom
      flow := fun edge d =>
        .ok (FlowRule.eval (lateCallRules call body) (fun d => [(d, .identity)])
            edge d none)
      returnFlow := fun edge d c =>
        .ok (FlowRule.eval (lateCallRules call body) (fun d => [(d, .identity)])
            edge d (some c)) }

private theorem isProper_lateCall : Draft.IsProper lateCall :=
  ⟨Draft.answered_of_isOk (by decide +kernel), by decide⟩

/-- The graph of `lateCall` is as the theorem asks for. -/
private theorem seen_lateCall (call body : LinearEdge) :
    ((lateCallSetup call body).view
      (Draft.ofSteps lateCall).build.graph).WellFormed ∧
      ((lateCallSetup call body).view
        (Draft.ofSteps lateCall).build.graph).ListsOwnCalls ∧
      ∀ c, (((lateCallSetup call body).view
        (Draft.ofSteps lateCall).build.graph).callees c).Nodup := by
  have hview : (lateCallSetup call body).view = FlowGraph.icfg := rfl
  rw [hview]
  have hP := isProper_lateCall.isLaidOut
  have honce := Draft.calleesOnce_build (Draft.ofSteps lateCall)
  exact ⟨hP.wellFormed, hP.listsOwnCalls, honce.nodup_callees_icfg⟩

/-- What holds of the edge functions of `lateCall` holds of all its
answers. -/
private theorem weight_of_answers_lateCall {Q : LinearEdge → Prop}
    {call body : LinearEdge} (hidentity : Q .identity)
    (hzero : Q (.const Word.zero)) (hcall : Q call) (hbody : Q body) {d : Bool}
    {answer : List (Bool × LinearEdge)}
    (h : (lateCallSetup call body).Answers d answer) : ∀ t ∈ answer, Q t.2 := by
  have hrules : ∀ rule ∈ lateCallRules call body,
      ∀ t ∈ rule.targets, Q t.2 := by
    simp [lateCallRules, hidentity, hzero, hcall, hbody]
  have hfallback : ∀ d : Bool, ∀ t ∈ [(d, LinearEdge.identity)], Q t.2 := by
    simp [hidentity]
  rcases h with rfl | ⟨edge, h⟩ | ⟨edge, c, h⟩
  · exact hfallback d
  · cases h
    exact FlowRule.weight_of_mem_eval hrules hfallback
  · cases h
    exact FlowRule.weight_of_mem_eval hrules hfallback

/-- The problem is linear if the two functions it is made with are in
normal form. -/
private theorem isLinear_lateCall {call body : LinearEdge}
    (hcall : call.IsNormal) (hbody : body.IsNormal) :
    (lateCallSetup call body).IsLinear where
  functions := rfl
  lattice := rfl
  flow := fun h => weight_of_answers_lateCall trivial trivial hcall hbody
    (Or.inr (Or.inl ⟨_, h⟩))
  returnFlow := fun h =>
    weight_of_answers_lateCall trivial trivial hcall hbody
      (Or.inr (Or.inr ⟨_, _, h⟩))

/-- Two functions that scale; the product of their scales is not a
word. -/
def largeScale : LinearEdge :=
  .linear ⟨2305843009213693952, by decide, by decide⟩ Word.zero

/-- The second of the two. -/
def smallScale : LinearEdge := .linear ⟨8, by decide, by decide⟩ Word.zero

/-- Zero can be scaled twice, but the two scales cannot be composed. So
the order in which a summary is applied shows, and with it the order of
the worklist. -/
theorem overflow_depends_on_grouping :
    (∀ f ∈ [.const Word.zero, largeScale, smallScale, .identity], IsNormal f) ∧
    eval (comp (comp (comp (.const Word.zero) largeScale) smallScale) .identity)
      .bottom = .const Word.zero ∧
    eval (comp (.const Word.zero) (comp (comp largeScale smallScale) .identity))
      .bottom = .top ∧
    (Solver.solve ((lateCallSetup largeScale smallScale).reorder .fifo {}) 100
      (Draft.ofSteps lateCall).build.graph).1.toOption.map
      (fun r => (r.status, r.resultAt ⟨5⟩ true)) =
        some (.complete, .const Word.zero) ∧
    (Solver.solve ((lateCallSetup largeScale smallScale).reorder .lifo {}) 100
      (Draft.ofSteps lateCall).build.graph).1.toOption.map
      (fun r => (r.status, r.resultAt ⟨5⟩ true)) = some (.complete, .top) := by
  refine ⟨by decide, by decide, by decide, by decide +kernel, by decide +kernel⟩

/-- Scaled twice, the report after the late call is zero or given up,
as the order has it; and a constant that the procedure puts in place of
it comes back in both orders. -/
theorem summaries_agree_unless_given_up_lateCall :
    comp (comp (comp smallScale .identity) (.const Word.one)) .identity =
      comp smallScale (comp (comp .identity (.const Word.one)) .identity) ∧
    (∃ r r',
      (Solver.solve (lateCallSetup largeScale smallScale) 100
        (Draft.ofSteps lateCall).build.graph).1 = .ok r ∧ r.status = .complete ∧
      (Solver.solve ((lateCallSetup largeScale smallScale).reorder .lifo {}) 100
        (Draft.ofSteps lateCall).build.graph).1 = .ok r' ∧
        r'.status = .complete ∧ r.resultAt ⟨5⟩ true = .const Word.zero ∧
        r'.resultAt ⟨5⟩ true = .top ∧ ∀ n d, r.resultAt n d = r'.resultAt n d ∨
        r.resultAt n d = .top ∨
        r'.resultAt n d = .top) ∧
    ∃ r r',
      (Solver.solve (lateCallSetup .identity (.const Word.one)) 100
        (Draft.ofSteps lateCall).build.graph).1 = .ok r ∧ r.status = .complete ∧
      (Solver.solve ((lateCallSetup .identity (.const Word.one)).reorder .lifo
        {}) 100 (Draft.ofSteps lateCall).build.graph).1 = .ok r' ∧
        r'.status = .complete ∧ r.resultAt ⟨5⟩ true = .const Word.one ∧
        ∀ n d, r.resultAt n d = r'.resultAt n d := by
  have hlinear : (lateCallSetup .identity (.const Word.one)).IsLinear :=
    isLinear_lateCall trivial trivial
  refine ⟨?_, ?_, ?_⟩
  · refine ((summaries_agree_unless_given_up hlinear).1 (j := smallScale)
      (c := .identity) (s := .const Word.one) (r := .identity) (by decide)
      trivial trivial trivial).1 ?_ ?_
    · exact ⟨⟨⟨trivial, trivial, rfl⟩, trivial, rfl⟩, trivial, rfl⟩
    · exact ⟨trivial, ⟨⟨trivial, trivial, rfl⟩, trivial, rfl⟩, rfl⟩
  · have heval : (Solver.solve (lateCallSetup largeScale smallScale) 100
        (Draft.ofSteps lateCall).build.graph).1.toOption.map
        (fun r => (r.status, r.resultAt ⟨5⟩ true)) =
          some (.complete, .const Word.zero) := by
      decide +kernel
    have heval' :
        (Solver.solve ((lateCallSetup largeScale smallScale).reorder .lifo {})
        100 (Draft.ofSteps lateCall).build.graph).1.toOption.map
        (fun r => (r.status, r.resultAt ⟨5⟩ true)) =
          some (.complete, .top) := by
      decide +kernel
    obtain ⟨r, hrun, hr⟩ := Solver.exists_ok_of_map heval
    obtain ⟨r', hrun', hr'⟩ := Solver.exists_ok_of_map heval'
    simp only [Prod.mk.injEq] at hr hr'
    have hscaled : (lateCallSetup largeScale smallScale).IsLinear :=
      isLinear_lateCall (by decide) (by decide)
    obtain ⟨hwf, hlists, honce⟩ := seen_lateCall largeScale smallScale
    have hagree := (summaries_agree_unless_given_up hscaled).2
      (fun _ _ _ => rfl) hwf hlists honce rfl hrun hr.1 hrun' hr'.1
    exact ⟨r, r', hrun, hr.1, hrun', hr'.1, hr.2, hr'.2,
        fun n d => (hagree n d).1⟩
  · have heval : (Solver.solve (lateCallSetup .identity (.const Word.one)) 100
        (Draft.ofSteps lateCall).build.graph).1.toOption.map
        (fun r => (r.status, r.resultAt ⟨5⟩ true)) =
          some (.complete, .const Word.one) := by
      decide +kernel
    have heval' :
        (Solver.solve ((lateCallSetup .identity (.const Word.one)).reorder .lifo
        {}) 100 (Draft.ofSteps lateCall).build.graph).1.toOption.map
        (fun r => r.status) = some .complete := by decide +kernel
    obtain ⟨r, hrun, hr⟩ := Solver.exists_ok_of_map heval
    obtain ⟨r', hrun', hr'⟩ := Solver.exists_ok_of_map heval'
    simp only [Prod.mk.injEq] at hr
    obtain ⟨hwf, hlists, honce⟩ := seen_lateCall .identity (.const Word.one)
    have hfit := hlinear.returnsFit (fun _ _ _ => rfl) hwf
      (weight_of_answers_lateCall trivial trivial trivial trivial) 100
    have hlinear' :
      ((lateCallSetup .identity (.const Word.one)).reorder .lifo {}).IsLinear :=
      hlinear.reorder
    have hfit' := hlinear'.returnsFit (fun _ _ _ => rfl) hwf
      (weight_of_answers_lateCall trivial trivial trivial trivial) 100
    have hagree := (summaries_agree_unless_given_up hlinear).2
      (fun _ _ _ => rfl) hwf hlists honce rfl hrun hr.1 hrun' hr'
    exact ⟨r, r', hrun, hr.1, hrun', hr', hr.2,
        fun n d => (hagree n d).2 hfit hfit'⟩

end Tabulation
