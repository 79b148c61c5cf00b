/-
Constant propagation invents no constants, and leaves no variable that
it reaches without a value.

Soundness says that a report is not too low. This is the other side. A
constant that a complete run reports is what the edge functions along
some path from an entry compute, over whole numbers of any size; and
the bottom is reported for the variables that were not reached and for
no others.

# Why a reached variable has a value

Zero starts with the bottom, and linear functions hand the bottom on.
But a path leaves zero only by an assignment of a constant or of a sum,
whose edge functions do not look at their input, and no path comes back
to zero. From one variable to the next, values that are not the bottom
stay so (`Fills`).
-/
import Tabulation.Proofs.ConstantSoundness
import Tabulation.Proofs.Program.Analysis
import Tabulation.Proofs.Reachability
import Tabulation.Proofs.ZeroFact

namespace Tabulation

/-- What a complete run reports to hold, a path leads to. -/
theorem Solver.reaches_of_value? {D W L : Type} [DecidableEq D] [DecidableEq W]
    [DecidableEq L] {S : Setup D W L} {fuel : Nat} {graph : FlowGraph}
    {r : Results D L} (hwf : (S.view graph).WellFormed)
    (hpure : S.problem.IsPure) (hrun : (solve S fuel graph).1 = .ok r)
    (hcomplete : r.status = .complete) {n : Node} {d : D} {v : L}
    (h : r.value? n d = some v) : Supergraph.Reaches S (S.view graph) n d := by
  obtain ⟨s₁, s, values, hdone⟩ := completed_of_solve hrun hcomplete
  obtain ⟨_, met, hs⟩ := saturated_of_isPure (Coverage.bare S).isGrowthOrder
    hpure hwf.start_owned hdone.begun hdone.looped
  obtain ⟨⟨source, w, hw⟩, _⟩ := hdone.value?_eq_some.mp h
  have hder := hs.sound.jump hw
  rw [hs.graph_eq hpure] at hder
  exact hder.reaches hwf hs.atStart

namespace LinearConstants

open Supergraph LocalFact LinearEdge

variable {P : Program} {entries : List Proc} {config : Config} {world : World}

-- ================================================== what flows give a value

/-- Along an edge, a variable is given a value: out of nothing if the
edge leaves zero, and otherwise out of a value. -/
def Fills (d e : LocalFact) (w : LinearEdge) : Prop :=
  ∀ x a, e = var x → (d = zero ∨ a ≠ .bottom) → w.evalExact a ≠ .bottom

variable {d e : LocalFact} {w : LinearEdge}

/-- The identity hands on a value, so it fills unless it leaves zero
for a variable. -/
theorem fills_identity (h : d = zero → e = zero) : Fills d e .identity := by
  intro x a he ha
  rcases ha with hd | ha
  · exact absurd ((h hd).symm.trans he) nofun
  · exact ha

theorem fills_const (d e : LocalFact) (c : Word) : Fills d e (.const c) :=
  fun _ _ _ _ => nofun

theorem fills_allTop (d e : LocalFact) : Fills d e .allTop :=
  fun _ _ _ _ => nofun

/-- A linear function fills from one variable to another: it has a
slope, and then only the bottom gives the bottom, or it is constant. -/
theorem fills_ofCoefficients (x : Var) (e : LocalFact) (a b : Word) :
    Fills (var x) e (.ofCoefficients a b) := by
  intro y v _ hv
  have hne := hv.resolve_left nofun
  cases v with
  | bottom => exact absurd rfl hne
  | int i =>
    rw [evalExact_ofCoefficients_int]
    nofun
  | top =>
    by_cases ha : a = Word.zero
    · rw [ha]
      nofun
    · rw [evalExact_ofCoefficients_extreme ha b fun i h => by cases h]
      nofun

theorem fills_of_mem_pass (h : (e, w) ∈ pass d) : Fills d e w := by
  cases List.mem_singleton.mp h
  exact fills_identity id

/-- An assignment fills if the function on the right does. -/
theorem fills_of_mem_assign {dst src x : Var} {f : LinearEdge}
    (hf : Fills (var x) (var dst) f) (h : (e, w) ∈ assign dst src f x) :
    Fills (var x) e w := by
  unfold assign at h
  rcases List.mem_append.mp h with h | h
  · split at h
    · exact fills_of_mem_pass h
    · exact absurd h List.not_mem_nil
  · split at h
    · cases List.mem_singleton.mp h
      exact hf
    · exact absurd h List.not_mem_nil

/-- Every statement fills what it yields. From zero there are only
constants, sums and zero itself. -/
theorem fills_of_mem_normalFlow {s : Stmt} (h : (e, w) ∈ normalFlow s d) :
    Fills d e w := by
  have hkept : ∀ {c : Prop} [Decidable c], (e, w) ∈ (if c then [] else pass d) →
      Fills d e w := by
    intro c _ h
    split at h
    · exact absurd h List.not_mem_nil
    · exact fills_of_mem_pass h
  cases d with
  | zero =>
    cases s with
    | const dst c =>
      rcases List.mem_append.mp h with h | h
      · exact fills_of_mem_pass h
      · cases List.mem_singleton.mp h
        exact fills_const _ _ c
    | add dst lhs rhs =>
      rcases List.mem_append.mp h with h | h
      · exact fills_of_mem_pass h
      · cases List.mem_singleton.mp h
        exact fills_allTop _ _
    | _ => exact fills_of_mem_pass h
  | var x =>
    cases s with
    | copy dst src => exact fills_of_mem_assign (fills_identity nofun) h
    | linear dst src a b =>
      exact fills_of_mem_assign (fills_ofCoefficients x _ a b) h
    | const dst c => exact hkept h
    | add dst lhs rhs => exact hkept h
    | _ => exact fills_of_mem_pass h

/-- Parameters are filled from arguments, and zero goes to zero. -/
theorem fills_of_mem_callFlow {s : Stmt} {params : List Var}
    (h : (e, w) ∈ callFlow s params d) : Fills d e w := by
  cases d with
  | zero => exact fills_of_mem_pass h
  | var x =>
    obtain rfl : w = .identity := snd_of_mem_callFlow h
    exact fills_identity nofun

theorem fills_of_mem_returnFlow {s sx : Stmt} (h : (e, w) ∈ returnFlow s sx d) :
    Fills d e w := by
  cases d with
  | zero => exact fills_of_mem_pass h
  | var x =>
    obtain rfl : w = .identity := snd_of_mem_returnFlow h
    exact fills_identity nofun

theorem fills_of_mem_callToReturnFlow {s : Stmt}
    (h : (e, w) ∈ callToReturnFlow s d) : Fills d e w := by
  unfold callToReturnFlow at h
  split at h
  · split at h
    · exact absurd h List.not_mem_nil
    · exact fills_of_mem_pass h
  · exact fills_of_mem_pass h

/-- Whatever is asked, answers fill. -/
theorem fills_of_flow {edge : FlowEdge} {answer : List (LocalFact × LinearEdge)}
    (h : flow P edge d = .ok answer) (hmem : (e, w) ∈ answer) :
    Fills d e w := by
  cases edge with
  | normal n m =>
    obtain ⟨s, _, h⟩ := Program.exists_stmt_of_bind h
    cases h
    exact fills_of_mem_normalFlow hmem
  | call c g st =>
    obtain ⟨s, _, h⟩ := Program.exists_stmt_of_bind h
    cases h
    exact fills_of_mem_callFlow hmem
  | ret c g x r =>
    obtain ⟨s, _, h⟩ := Program.exists_stmt_of_bind h
    obtain ⟨sx, _, h⟩ := Program.exists_stmt_of_bind h
    cases h
    exact fills_of_mem_returnFlow hmem
  | callToReturn c r =>
    obtain ⟨s, _, h⟩ := Program.exists_stmt_of_bind h
    cases h
    exact fills_of_mem_callToReturnFlow hmem

-- =================================================== the values along paths

/-- A plain answer yields what it says, and zero besides at most. -/
theorem IsPlain.mem_answer {answer : List (LocalFact × LinearEdge)}
    (h : IsPlain d answer)
    (hmem : (e, w) ∈ (setup P entries config world).effective d answer) :
    (e, w) ∈ answer ∨ e = zero := by
  have hfact : e ∈ ((setup P entries config world).effective d answer).map
    Prod.fst := List.mem_map.mpr ⟨(e, w), hmem, rfl⟩
  rcases (Setup.mem_fst_effective _).mp hfact with hanswer | ⟨_, _, hzero⟩
  · obtain ⟨⟨e', v⟩, hv, rfl⟩ := List.mem_map.mp hanswer
    have htarget : (e', w) ∈ (setup P entries config world).targets d
      (.ok answer) := hmem
    rw [Setup.targets_unique _ htarget (h.mem_effective hv)]
    exact Or.inl hv
  · exact Or.inr hzero

/-- Steps of paths fill as answers do. Zero that the solver adds is
no variable. -/
theorem fills_of_step {I : Icfg} {a b : Place LocalFact}
    (h : Step (setup P entries config world) I a w b) :
    Fills a.fact b.fact w := by
  obtain ⟨answer, hanswer, hw⟩ := Setup.exists_answer_of_step h
  have hplain : IsPlain a.fact answer ∧ ∀ {e w}, (e, w) ∈ answer →
      Fills a.fact e w := by
    rcases hanswer with rfl | ⟨_, h⟩ | ⟨_, _, h⟩
    · exact ⟨isPlain_pass _ _, fills_of_mem_pass⟩
    · exact ⟨isPlain_of_flow h, fills_of_flow h⟩
    · exact ⟨isPlain_of_flow h, fills_of_flow h⟩
  rcases hplain.1.mem_answer hw with hmem | hzero
  · exact hplain.2 hmem
  · exact fun x _ hx _ => absurd (hzero.symm.trans hx) nofun

/-- Where a path from zero has come to a variable, it has a value. The
induction is on the path, and asks only about its last step. -/
private theorem ne_bottom_of_path {I : Icfg} {st : Node} {ws : List LinearEdge}
    {q : Place LocalFact}
    (h : Path (setup P entries config world) I ⟨st, zero, []⟩ ws q)
    (a : ExactValue) {x : Var} (hx : q.fact = var x) :
    evalExactAll ws a ≠ .bottom := by
  induction h generalizing x with
  | here => cases hx
  | @snoc ws w b c _ hstep ih =>
    rw [evalExactAll_append]
    refine fills_of_step hstep x _ hx ?_
    cases hb : b.fact with
    | zero => exact Or.inl rfl
    | var y => exact Or.inr (ih hb)

-- ============================================================== the reports

section Reports

variable {steps : List Draft.Step} {fuel : Nat}
variable {r : Results LocalFact ConstValue}

/-- All paths come from zero at an entry, which has no value there. -/
private theorem exists_entry_of_yieldsExact {I : Icfg} {n : Node}
    {d : LocalFact} {a : ExactValue}
    (h : YieldsExact (setup P entries config world) I n d a) :
    ∃ p ∈ entries, ∃ st, I.start? p = some st ∧ ∃ ws k,
      Path (setup P entries config world) I ⟨st, zero, []⟩ ws ⟨n, d, k⟩ ∧
        evalExactAll ws .bottom = a := by
  obtain ⟨seed, hseed, ws, k, hpath, ha⟩ := h
  obtain ⟨node, fact, value⟩ := seed
  obtain ⟨rfl, rfl, p, hp, hst⟩ := Setup.eq_of_mem_seedsOn rfl hseed
  exact ⟨p, hp, node, hst, ws, k, hpath, ha⟩

/-- A variable that a complete run has reached has a value, since some
path leads to it and the report is above the values of all paths. -/
private theorem resultAt_ne_bottom (hsteps : Draft.IsProper steps)
    (hvalues : config.computeValues = true)
    (hrun : (Solver.solve (setup (Draft.ofSteps steps).build entries config
      world) fuel (Draft.ofSteps steps).build.graph).1 = .ok r)
    (hcomplete : r.status = .complete) {n : Node} {x : Var} {v : ConstValue}
    (hreached : r.value? n (var x) = some v) :
    r.resultAt n (var x) ≠ .bottom := by
  have hP := hsteps.isLaidOut
  have hpure :
    (setup (Draft.ofSteps steps).build entries config world).problem.IsPure :=
    fun _ _ _ => rfl
  obtain ⟨seed, hseed, ws, k, hpath⟩ :=
    Solver.reaches_of_value? hP.wellFormed hpure hrun hcomplete hreached
  have hyields : YieldsExact
      (setup (Draft.ofSteps steps).build entries config world)
      (Draft.ofSteps steps).build.graph.icfg n (var x)
      (evalExactAll ws seed.value.toExact) := ⟨seed, hseed, ws, k, hpath, rfl⟩
  have hbelow := Solver.below_resultAt (isLinear ..) hP.wellFormed hpure hvalues
    hrun hcomplete hyields
  intro hbottom
  rw [hbottom] at hbelow
  -- the value of that path is not the bottom, and the report is above it
  obtain ⟨p, _, st, _, ws', k', hpath', ha⟩ :=
    exists_entry_of_yieldsExact hyields
  refine ne_bottom_of_path hpath' .bottom rfl (ha.trans ?_)
  exact ExactValue.eq_bottom_of_below hbelow

/-- The bottom is reported for the variables that cannot be reached and
for no others, and a constant is what some path from zero at an entry
computes over whole numbers of any size. -/
theorem bottom_iff_unreachable_and_path_of_const (hsteps : Draft.IsProper steps)
    (hvalues : config.computeValues = true)
    (hrun : (Solver.solve
      (setup (Draft.ofSteps steps).build entries config world) fuel
      (Draft.ofSteps steps).build.graph).1 = .ok r)
    (hcomplete : r.status = .complete) (n : Node) (x : Var) :
    (r.resultAt n (var x) = .bottom ↔ r.holdsFact n (var x) = .unreachable) ∧
    ∀ c : Word, r.resultAt n (var x) = .const c →
      ∃ p ∈ entries, ∃ st,
        (Draft.ofSteps steps).build.graph.start? p = some st ∧
        ∃ ws k,
          Path (setup (Draft.ofSteps steps).build entries config world)
            (Draft.ofSteps steps).build.graph.icfg ⟨st, zero, []⟩ ws
            ⟨n, var x, k⟩ ∧
          evalExactAll ws .bottom = .int c.val := by
  have hP := hsteps.isLaidOut
  constructor
  · rw [Results.holdsFact_eq_unreachable_iff hcomplete]
    constructor
    · intro hbottom
      cases hvalue : r.value? n (var x) with
      | none => rfl
      | some v =>
        exact absurd hbottom (resultAt_ne_bottom hsteps hvalues hrun
            hcomplete hvalue)
    · intro hnone
      obtain ⟨s₁, s, values?, hdone⟩ := Solver.completed_of_solve hrun hcomplete
      rw [Results.resultAt, hnone, Option.getD_none, hdone.bottom_eq]
      rfl
  · intro c hc
    have hexact := Solver.exact_resultAt (isLinear ..) hP.wellFormed
      hP.listsOwnCalls (fun _ _ _ => rfl) hvalues hrun hcomplete n (var x)
    rw [hc] at hexact
    rcases hexact with h | h | h
    · cases h
    · cases h
    · exact exists_entry_of_yieldsExact h

/-- The constant that comes back from the call in `scaling` was
computed on a path through the callee, and the variable of the callee
has not come back. -/
theorem bottom_iff_unreachable_and_path_of_const_scaling :
    ∃ r, (Solver.solve (setup (Draft.ofSteps scaling).build [⟨0⟩] {} {}) 100
      (Draft.ofSteps scaling).build.graph).1 = .ok r ∧ r.status = .complete ∧
      r.resultAt ⟨4⟩ (var "q") = .bottom ∧
      r.holdsFact ⟨4⟩ (var "q") = .unreachable ∧
      (∃ c : Word, r.resultAt ⟨4⟩ (var "z") = .const c ∧ c.val = 19) ∧
      ∃ ws k, Path (setup (Draft.ofSteps scaling).build [⟨0⟩] {} {})
          (Draft.ofSteps scaling).build.graph.icfg ⟨⟨0⟩, zero, []⟩ ws
            ⟨⟨4⟩, var "z", k⟩ ∧
        evalExactAll ws .bottom = .int 19 := by
  have heval :
      (Solver.solve (setup (Draft.ofSteps scaling).build [⟨0⟩] {} {}) 100
      (Draft.ofSteps scaling).build.graph).1.toOption.map
      (fun r => (r.status, r.holdsFact ⟨4⟩ (var "q"),
        (r.resultAt ⟨4⟩ (var "z")).toExact)) =
        some (.complete, .unreachable, .int 19) := by decide +kernel
  obtain ⟨r, hrun, hr⟩ := Solver.exists_ok_of_map heval
  simp only [Prod.mk.injEq] at hr
  obtain ⟨hcomplete, hq, hz⟩ := hr
  have hreport :=
    bottom_iff_unreachable_and_path_of_const isProper_scaling rfl hrun
      hcomplete ⟨4⟩
  obtain ⟨c, hc, hval⟩ : ∃ c : Word, r.resultAt ⟨4⟩ (var "z") = .const c ∧
      c.val = 19 := by
    cases hv : r.resultAt ⟨4⟩ (var "z") with
    | bottom =>
      rw [hv] at hz
      cases hz
    | top =>
      rw [hv] at hz
      cases hz
    | const c =>
      rw [hv] at hz
      exact ⟨c, rfl, ExactValue.int.inj hz⟩
  obtain ⟨p, hp, st, hst, ws, k, hpath, hvalue⟩ := (hreport "z").2 c hc
  obtain rfl := List.mem_singleton.mp hp
  obtain rfl : st = ⟨0⟩ := (Option.some.inj hst).symm
  rw [hval] at hvalue
  exact ⟨r, hrun, hcomplete, (hreport "q").1.mpr hq, hq, ⟨c, hc, hval⟩, ws, k,
      hpath, hvalue⟩

end Reports

end LinearConstants

end Tabulation
