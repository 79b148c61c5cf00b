/-
What constant propagation reports is what programs compute.

A program runs over whole numbers of any size. Whenever it stands
before a node with a number in a variable, a complete run of the
analysis reports that number there, or the top
(`resultAt_of_reachable`).

# Following an execution

An execution is followed by paths of the exploded supergraph, one for
each variable that has a value: the path along which the value came.
All these paths have called from the same sites as the execution,
though with different facts (`Brings`). A statement prolongs each of
them by one step. A return takes the result from a path inside the
callee and everything else from paths that were at the call; so these
are kept for every call that waits (`Tracks`).

# From paths to reports

The values along a path are exact, those of the analysis are words, and
its jump functions compose in an order of their own.
`Proofs/LinearProblems` says that the report stays above all the same.
-/
import Tabulation.Analysis.LinearConstants
import Tabulation.Program.Execution
import Tabulation.Proofs.LinearProblems
import Tabulation.Proofs.Program.Text

namespace Tabulation.LinearConstants

open Supergraph LocalFact

variable {P : Program} {entries : List Proc} {config : Config} {world : World}

/-- Linear constant propagation, set up. It starts from the entries
alone and makes no requests. -/
def setup (P : Program) (entries : List Proc) (config : Config)
    (world : World) : Setup LocalFact LinearEdge ConstValue :=
  { problem := problem P entries, config, world }

-- ================================================== what flows answer

/-- An answer that the solver takes as it stands: it has nothing to
join, zero is crossed by the identity, and functions are in normal
form. -/
structure IsPlain (d : LocalFact) (answer : List (LocalFact × LinearEdge)) :
    Prop where
  agrees : ∀ {e v w}, (e, v) ∈ answer → (e, w) ∈ answer → v = w
  atZero : ∀ {w}, d = zero → (zero, w) ∈ answer → w = .identity
  normal : ∀ {e w}, (e, w) ∈ answer → w.IsNormal

/-- So what the flow function answers is what the solver goes on with. -/
theorem IsPlain.mem_effective {d e : LocalFact}
    {answer : List (LocalFact × LinearEdge)} {w : LinearEdge}
    (h : IsPlain d answer) (hmem : (e, w) ∈ answer) :
    (e, w) ∈ (setup P entries config world).effective d answer := by
  refine Setup.mem_effective (LinearEdge.join_self w)
    (fun v hv => h.agrees hv hmem) hmem ?_
  intro hd he
  change e = zero at he
  rw [he] at hmem
  exact h.atZero hd hmem

theorem isPlain_pass (d e : LocalFact) : IsPlain d (pass e) := by
  unfold pass
  constructor
  · grind
  · grind
  · intro e w h
    cases List.mem_singleton.mp h
    exact trivial

private theorem isPlain_nil (d : LocalFact) : IsPlain d [] := by
  constructor <;> simp

/-- An assignment yields the source twice, under two names, with one
function each. -/
private theorem isPlain_assign (dst src x : Var) {f : LinearEdge}
    (hf : f.IsNormal) : IsPlain (var x) (assign dst src f x) := by
  unfold assign pass
  constructor
  · grind
  · nofun
  · intro e w h
    rcases List.mem_append.mp h with h | h
    · split at h
      · cases List.mem_singleton.mp h
        exact trivial
      · exact absurd h List.not_mem_nil
    · split at h
      · cases List.mem_singleton.mp h
        exact hf
      · exact absurd h List.not_mem_nil

/-- A variable that is made from nothing comes with zero. -/
private theorem isPlain_birth (x : Var) {f : LinearEdge} (hf : f.IsNormal) :
    IsPlain zero (pass zero ++ [(var x, f)]) := by
  unfold pass
  constructor
  · grind
  · grind
  · intro e w h
    rcases List.mem_append.mp h with h | h
    · cases List.mem_singleton.mp h
      exact trivial
    · cases List.mem_singleton.mp h
      exact hf

/-- The flows of statements are put together from these three, case by
case. -/
private theorem isPlain_normalFlow (s : Stmt) (d : LocalFact) :
    IsPlain d (normalFlow s d) := by
  cases d with
  | zero =>
    cases s with
    | const dst c => exact isPlain_birth dst trivial
    | add dst lhs rhs => exact isPlain_birth dst trivial
    | _ => exact isPlain_pass _ _
  | var x =>
    cases s with
    | copy dst src => exact isPlain_assign dst src x trivial
    | linear dst src a b =>
      exact isPlain_assign dst src x (LinearEdge.isNormal_ofCoefficients a b)
    | const dst c | add dst lhs rhs =>
      simp only [normalFlow]
      split
      · exact isPlain_nil _
      · exact isPlain_pass _ _
    | _ => exact isPlain_pass _ _

/-- Several parameters may be bound to one argument, but all with the
identity. -/
private theorem isPlain_callFlow (s : Stmt) (params : List Var)
    (d : LocalFact) : IsPlain d (callFlow s params d) := by
  cases d with
  | zero => exact isPlain_pass _ _
  | var x =>
    cases s with
    | call callee args result =>
      simp only [callFlow, FlowFunction.withWeight]
      refine ⟨?_, nofun, ?_⟩
      · intro e v w hv hw
        obtain ⟨_, _, hv⟩ := List.mem_map.mp hv
        obtain ⟨_, _, hw⟩ := List.mem_map.mp hw
        cases hv
        cases hw
        rfl
      · intro e w h
        obtain ⟨_, _, h⟩ := List.mem_map.mp h
        cases h
        exact trivial
    | _ => exact isPlain_nil _

private theorem isPlain_returnFlow (callStmt exitStmt : Stmt) (d : LocalFact) :
    IsPlain d (returnFlow callStmt exitStmt d) := by
  unfold returnFlow
  split
  · exact isPlain_pass _ _
  · split
    · split
      · exact isPlain_pass _ _
      · exact isPlain_nil _
    · exact isPlain_nil _

private theorem isPlain_callToReturnFlow (s : Stmt) (d : LocalFact) :
    IsPlain d (callToReturnFlow s d) := by
  unfold callToReturnFlow
  split
  · split
    · exact isPlain_nil _
    · exact isPlain_pass _ _
  · exact isPlain_pass _ _

-- =================================================== the steps of paths

section Targets

variable {n c x : Node} {s sc sx : Stmt}

/-- What paths step along is the flow of the statement, also at
identity nodes, where the solver does not ask for it. -/
private theorem normalTargets_eq (h : P.stmts.get? n = some s) (m : Node)
    (d : LocalFact) :
    (setup P entries config world).normalTargets n m d =
      (setup P entries config world).effective d (normalFlow s d) := by
  have hstmt := Program.stmt_eq_ok h
  unfold Setup.normalTargets
  simp only [setup, problem, hstmt, Except.map, flow]
  cases hid : isIdentity s with
  | true =>
    have hpass : normalFlow s d = pass d := by
      cases s <;> first | (cases d <;> rfl) | cases hid
    rw [hpass]
    rfl
  | false => rfl

private theorem callTargets_eq (h : P.stmts.get? c = some s) (g : Proc)
    (start : Node) (d : LocalFact) :
    (setup P entries config world).callTargets c g start d =
      (setup P entries config world).effective d
        (callFlow s (P.params g) d) := by
  unfold Setup.callTargets
  simp only [setup, problem, flow, Program.stmt_eq_ok h]
  rfl

private theorem passTargets_eq (h : P.stmts.get? c = some s) (r : Node)
    (d : LocalFact) :
    (setup P entries config world).passTargets c r d =
      (setup P entries config world).effective d (callToReturnFlow s d) := by
  unfold Setup.passTargets
  simp only [setup, problem, flow, Program.stmt_eq_ok h]
  rfl

/-- The targets of calls, returns and what goes past them are those of
the statements too. -/
private theorem returnTargets_eq (hc : P.stmts.get? c = some sc)
    (hx : P.stmts.get? x = some sx) (g : Proc) (r : Node)
    (d callFact : LocalFact) :
    (setup P entries config world).returnTargets c g x r d callFact =
      (setup P entries config world).effective d (returnFlow sc sx d) := by
  unfold Setup.returnTargets
  simp only [setup, problem, flow, Program.stmt_eq_ok hc, Program.stmt_eq_ok hx]
  rfl

end Targets

/-- Whatever is asked, the answer is plain. -/
theorem isPlain_of_flow {edge : FlowEdge} {d : LocalFact}
    {answer : List (LocalFact × LinearEdge)} (h : flow P edge d = .ok answer) :
    IsPlain d answer := by
  cases edge with
  | normal n m =>
    obtain ⟨s, _, h⟩ := Program.exists_stmt_of_bind h
    cases h
    exact isPlain_normalFlow s d
  | call c g start =>
    obtain ⟨s, _, h⟩ := Program.exists_stmt_of_bind h
    cases h
    exact isPlain_callFlow s (P.params g) d
  | ret c g x r =>
    obtain ⟨s, _, h⟩ := Program.exists_stmt_of_bind h
    obtain ⟨s', _, h⟩ := Program.exists_stmt_of_bind h
    cases h
    exact isPlain_returnFlow s s' d
  | callToReturn c r =>
    obtain ⟨s, _, h⟩ := Program.exists_stmt_of_bind h
    cases h
    exact isPlain_callToReturnFlow s d

variable (P entries config world) in
/-- The analysis is a linear problem, so that the results of
`Proofs/LinearProblems` apply to it. -/
theorem isLinear : (setup P entries config world).IsLinear where
  functions := rfl
  lattice := rfl
  flow := fun h _ ht => (isPlain_of_flow h).normal ht
  returnFlow := fun h _ ht => (isPlain_of_flow h).normal ht

/-- Values are covered by the exact values below them. -/
private theorem measures_coverage :
    (isLinear P entries config world).coverage.Measures fun a v =>
      a.Below v.toExact :=
  (isLinear P entries config world).measures_coverage

private theorem isNormal_of_step {I : Icfg} {a b : Place LocalFact}
    {w : LinearEdge} (h : Step (setup P entries config world) I a w b) :
    w.IsNormal :=
  (isLinear P entries config world).isNormal_of_step h

-- ============================================== following an execution

section Following

variable (P entries config world)

/-- Some path, through open calls at the given sites, brings a fact a
value above the given one. Which facts were at the calls is left open. -/
def Brings (n : Node) (sites : List Node) (d : LocalFact) (a : ExactValue) :
    Prop :=
  ∃ seed ∈ (setup P entries config world).seedsOn P.graph.icfg, ∃ ws k,
    Path (setup P entries config world) P.graph.icfg ⟨seed.node, seed.fact, []⟩
      ws ⟨n, d, k⟩ ∧ k.map Frame.site = sites ∧
      a.Below (LinearEdge.evalExactAll ws seed.value.toExact)

/-- Every number that a variable holds came along a path, and so did
zero. For zero no value is asked for: it is where numbers are made. -/
structure Accounts (n : Node) (σ : Var → Option Int) (sites : List Node) :
    Prop where
  atZero : Brings P entries config world n sites zero .bottom
  atVar : ∀ {x i}, σ x = some i →
    Brings P entries config world n sites (var x) (.int i)

/-- The same for the calls that wait. Each is accounted for at its
site, as it was when the call was made. -/
def Waits : List (Activation (Option Int)) → Prop
  | [] => True
  | a :: k =>
    Accounts P entries config world a.site a.vars (k.map Activation.site) ∧
      Waits k

/-- An execution is followed by paths. -/
structure Tracks (m : Machine (Option Int)) : Prop where
  here : Accounts P entries config world m.node m.vars
    (m.waiting.map Activation.site)
  waiting : Waits P entries config world m.waiting

end Following

section Steps

variable {n m c r x start : Node} {sites : List Node} {d e : LocalFact}
variable {a b : ExactValue}
variable {w : LinearEdge}

/-- A path that goes one step further is followed by one more function,
and functions keep the order. -/
private theorem below_evalExactAll_concat {ws : List LinearEdge}
    {v : ExactValue} (h : a.Below (LinearEdge.evalExactAll ws v))
    (hb : b.Below (w.evalExact a)) :
    b.Below (LinearEdge.evalExactAll (ws ++ [w]) v) := by
  unfold LinearEdge.evalExactAll at h ⊢
  rw [List.foldl_append]
  exact hb.trans (LinearEdge.evalExact_mono w h)

/-- A path goes on under the calls that are open. -/
theorem Brings.within (h : Brings P entries config world n sites d a)
    (hstep : ∀ k, Step (setup P entries config world) P.graph.icfg ⟨n, d, k⟩
      w ⟨m, e, k⟩) (hb : b.Below (w.evalExact a)) :
    Brings P entries config world m sites e b := by
  obtain ⟨seed, hseed, ws, k, hpath, hsites, ha⟩ := h
  exact ⟨seed, hseed, ws ++ [w], k, hpath.snoc (hstep k), hsites,
      below_evalExactAll_concat ha hb⟩

/-- A path opens a call. -/
theorem Brings.enter (h : Brings P entries config world c sites d a)
    (hstep : ∀ k, Step (setup P entries config world) P.graph.icfg ⟨c, d, k⟩ w
      ⟨start, e, ⟨c, d⟩ :: k⟩) (hb : b.Below (w.evalExact a)) :
    Brings P entries config world start (c :: sites) e b := by
  obtain ⟨seed, hseed, ws, k, hpath, hsites, ha⟩ := h
  refine ⟨seed, hseed, ws ++ [w], ⟨c, d⟩ :: k, hpath.snoc (hstep k), ?_,
    below_evalExactAll_concat ha hb⟩
  rw [List.map_cons, hsites]

/-- A path returns from its innermost call. -/
theorem Brings.leave (h : Brings P entries config world x (c :: sites) d a)
    (hstep : ∀ callFact k, Step (setup P entries config world) P.graph.icfg
      ⟨x, d, ⟨c, callFact⟩ :: k⟩ w ⟨r, e, k⟩) (hb : b.Below (w.evalExact a)) :
    Brings P entries config world r sites e b := by
  obtain ⟨seed, hseed, ws, k, hpath, hsites, ha⟩ := h
  obtain ⟨frame, k, rfl, hsite, hrest⟩ := List.map_eq_cons_iff.mp hsites
  obtain ⟨site, callFact⟩ := frame
  obtain rfl : site = c := hsite
  exact ⟨seed, hseed, ws ++ [w], k, hpath.snoc (hstep callFact k), hrest,
    below_evalExactAll_concat ha hb⟩

end Steps

-- ==================================================== one step at a time

section Machines

variable {n m c r x start : Node} {sites : List Node} {σ τ : Var → Option Int}
variable {g : Proc}

/-- The flow of a statement accounts for a number in a variable: it
makes it from nothing, or from a number that a variable held before. -/
def MadeFrom (s : Stmt) (σ : Var → Option Int) (y : Var) (i : Int) : Prop :=
  (∃ w, (var y, w) ∈ normalFlow s zero ∧
    (ExactValue.int i).Below (w.evalExact .bottom)) ∨ ∃ x j w, σ x = some j ∧
    (var y, w) ∈ normalFlow s (var x) ∧
      (ExactValue.int i).Below (w.evalExact (.int j))

/-- Every statement makes its numbers the way its flow says. A sum of
two variables is not linear, and there the flow gives the top. -/
private theorem madeFrom_of_after {s : Stmt} {y : Var} {i : Int}
    (hcall : s.isCall = false) (hret : s.isReturn = false)
    (hy : Machine.after Semantics.integers s σ y = some i) :
    MadeFrom s σ y i := by
  -- a variable that keeps its number keeps its fact
  have hkept : σ y = some i → (var y, .identity) ∈ normalFlow s (var y) →
    MadeFrom s σ y i := fun hσ hmem =>
    Or.inr ⟨y, i, .identity, hσ, hmem, .refl _⟩
  cases s with
  | nop => exact hkept hy List.mem_cons_self
  | use z => exact hkept hy List.mem_cons_self
  | call callee args result => cases hcall
  | ret z => cases hret
  | decl z =>
    simp only [Machine.after, Machine.set] at hy
    split at hy
    · cases hy
    · exact hkept hy List.mem_cons_self
  | const z c =>
    simp only [Machine.after, Stmt.writes, Machine.setResult, Machine.set] at hy
    split at hy
    next heq =>
      cases hy
      refine Or.inl ⟨.const c, ?_, .refl _⟩
      simp [normalFlow, heq]
    next hne => exact hkept hy (by simp [normalFlow, hne, pass])
  | copy z src =>
    simp only [Machine.after, Stmt.writes, Machine.setResult, Machine.set] at hy
    split at hy
    next heq =>
      refine Or.inr ⟨src, i, .identity, hy, ?_, .refl _⟩
      simp [normalFlow, assign, heq]
    next hne => exact hkept hy (by simp [normalFlow, assign, hne, pass])
  | linear z src a b =>
    simp only [Machine.after, Stmt.writes, Machine.setResult, Machine.set] at hy
    split at hy
    next heq =>
      obtain ⟨j, hj, rfl⟩ := Option.map_eq_some_iff.mp hy
      refine Or.inr ⟨src, j, .ofCoefficients a b, hj, ?_, ?_⟩
      · simp [normalFlow, assign, heq]
      · rw [LinearEdge.evalExact_ofCoefficients_int, Int.mul_comm]
        exact .refl _
    next hne => exact hkept hy (by simp [normalFlow, assign, hne, pass])
  | add z lhs rhs =>
    simp only [Machine.after, Stmt.writes, Machine.setResult, Machine.set] at hy
    split at hy
    next heq =>
      refine Or.inl ⟨.allTop, ?_, ExactValue.below_top _⟩
      simp [normalFlow, heq]
    next hne => exact hkept hy (by simp [normalFlow, hne, pass])

/-- A statement that neither calls nor returns. Each number is made
from zero or from one variable, so one path is prolonged for it. -/
theorem Accounts.move (hP : P.IsLaidOut) {s : Stmt}
    (h : Accounts P entries config world n σ sites)
    (hs : P.stmts.get? n = some s) (hcall : s.isCall = false)
    (hret : s.isReturn = false) (hm : m ∈ P.graph.successors n) :
    Accounts P entries config world m
      (Machine.after Semantics.integers s σ) sites := by
  have hflow : ∀ {d e w a b}, Brings P entries config world n sites d a →
      (e, w) ∈ normalFlow s d → b.Below (w.evalExact a) →
      Brings P entries config world m sites e b := by
    intro d e w a b hd hw hb
    refine hd.within (fun k => .normal ?_ ?_ hm ?_) hb
    · show P.graph.isCall n = false
      rw [hP.isCall hs, hcall]
    · show some (P.graph.isExit n) = some false
      rw [hP.isExit hs, hret]
    · rw [normalTargets_eq hs]
      exact (isPlain_normalFlow s d).mem_effective hw
  constructor
  · refine hflow (w := .identity) h.atZero ?_ (ExactValue.bottom_below _)
    cases s <;> simp [normalFlow, pass]
  · intro y i hy
    rcases madeFrom_of_after hcall hret hy
      with ⟨w, hw, hb⟩ | ⟨z, j, w, hz, hw, hb⟩
    · exact hflow h.atZero hw hb
    · exact hflow (h.atVar hz) hw hb

/-- A number that a parameter is bound to comes from an argument. -/
private theorem exists_arg_of_bind {params args : List Var} {y : Var} {i : Int}
    (h : Machine.bind Semantics.integers σ τ params args y = some i) :
    (∃ arg, (arg, y) ∈ args.zip params ∧ σ arg = some i) ∨ τ y = some i := by
  rcases Machine.bind_cases Semantics.integers σ τ params args y with
    ⟨arg, hmem, heq⟩ | ⟨_, heq⟩ | heq
  · exact Or.inl ⟨arg, hmem, heq.symm.trans h⟩
  · exact absurd (heq.symm.trans h) nofun
  · exact Or.inr (heq.symm.trans h)

/-- A call that enters a callee. Parameters take their numbers from the
arguments, and all other variables of the callee have none. -/
theorem Accounts.enter (hP : P.IsLaidOut) {callee : Callee} {args : List Var}
    {result : Option Var} (h : Accounts P entries config world c σ sites)
    (hc : P.stmts.get? c = some (.call callee args result))
    (hg : g ∈ P.graph.callees c) (hstart : P.graph.start? g = some start) :
    Accounts P entries config world start
      (Machine.entered Semantics.integers σ (P.params g) args)
        (c :: sites) := by
  have hflow : ∀ {d e w a b}, Brings P entries config world c sites d a →
      (e, w) ∈ callFlow (.call callee args result) (P.params g) d →
      b.Below (w.evalExact a) →
      Brings P entries config world start (c :: sites) e b := by
    intro d e w a b hd hw hb
    refine hd.enter (fun k => .call (hP.isCall hc) hg hstart ?_) hb
    rw [callTargets_eq hc]
    exact (isPlain_callFlow _ _ d).mem_effective hw
  constructor
  · exact hflow (w := .identity) h.atZero List.mem_cons_self
      (ExactValue.bottom_below _)
  · intro y i hy
    rcases exists_arg_of_bind hy with ⟨arg, hmem, harg⟩ | hnone
    · refine hflow (w := .identity) (h.atVar harg) ?_ (.refl _)
      simp only [callFlow, FlowFunction.withWeight,
          FlowFunction.transfer, bindings]
      refine List.mem_map.mpr
        ⟨var y, List.mem_map.mpr ⟨(var arg, var y), ?_, rfl⟩, rfl⟩
      refine List.mem_filter.mpr ⟨List.mem_map.mpr ⟨(arg, y), hmem, rfl⟩,
          decide_eq_true rfl⟩
    · cases hnone

/-- After a call, variables other than the result hold what they held
before it. They take the path past the call. -/
theorem Accounts.afterCall (hP : P.IsLaidOut) {callee : Callee}
    {args : List Var} {result : Option Var}
    (h : Accounts P entries config world c σ sites)
    (hc : P.stmts.get? c = some (.call callee args result))
    (hr : P.graph.returnSite? c = some r) {v : Option Int}
    (hv : ∀ {z i}, result = some z → v = some i →
      Brings P entries config world r sites (var z) (.int i)) :
    Accounts P entries config world r (Machine.setResult σ result v) sites := by
  have hpast : ∀ {d a}, Brings P entries config world c sites d a →
      (d, .identity) ∈ callToReturnFlow (.call callee args result) d →
      Brings P entries config world r sites d a := by
    intro d a hd hw
    refine hd.within (w := .identity)
      (fun k => .pass (hP.isCall hc) hr ?_) (.refl _)
    rw [passTargets_eq hc]
    exact (isPlain_callToReturnFlow _ d).mem_effective hw
  cases result with
  | none =>
    exact ⟨hpast h.atZero List.mem_cons_self,
        fun hy => hpast (h.atVar hy) List.mem_cons_self⟩
  | some z =>
    refine ⟨hpast h.atZero List.mem_cons_self, fun {y i} hy => ?_⟩
    simp only [Machine.setResult, Machine.set] at hy
    split at hy
    next heq =>
      rw [heq]
      exact hv rfl hy
    next hne => exact hpast (h.atVar hy) (by simp [callToReturnFlow, hne, pass])

/-- A call that goes on without entering a callee leaves nothing in its
result. -/
theorem Accounts.skip (hP : P.IsLaidOut) {callee : Callee} {args : List Var}
    {result : Option Var} (h : Accounts P entries config world c σ sites)
    (hc : P.stmts.get? c = some (.call callee args result))
    (hr : P.graph.returnSite? c = some r) :
    Accounts P entries config world r (Machine.setResult σ result none) sites :=
  h.afterCall hP hc hr nofun

/-- A return to a call that waits. The result comes along a path inside
the callee, and everything else from the paths at the call. -/
theorem Accounts.leave (hP : P.IsLaidOut) {callee : Callee} {args : List Var}
    {result returned : Option Var}
    (h : Accounts P entries config world x σ (c :: sites))
    (hcaller : Accounts P entries config world c τ sites)
    (hx : P.stmts.get? x = some (.ret returned))
    (hc : P.stmts.get? c = some (.call callee args result))
    (hr : P.graph.returnSite? c = some r) :
    Accounts P entries config world r
      (Machine.setResult τ result ((returned.map σ).getD none)) sites := by
  refine hcaller.afterCall hP hc hr fun {z i} hresult hi => ?_
  subst hresult
  cases returned with
  | none => cases hi
  | some v =>
    obtain ⟨g, hg⟩ := hP.owned hx
    refine (h.atVar hi).leave (w := .identity)
      (fun callFact k => .ret (hP.isCall hx) (congrArg some (hP.isExit hx)) hg
        hr ?_) (.refl _)
    rw [returnTargets_eq hc hx]
    refine (isPlain_returnFlow _ _ _).mem_effective ?_
    simp [returnFlow, pass]

end Machines

-- ========================================================= every execution

/-- One step of an execution, whatever its kind, is followed by the
paths. -/
theorem Tracks.step (hP : P.IsLaidOut) {a b : Machine (Option Int)}
    (h : Tracks P entries config world a)
    (hstep : Machine.Step Semantics.integers P a b) :
    Tracks P entries config world b := by
  cases hstep with
  | move hs hcall hret hm => exact ⟨h.here.move hP hs hcall hret hm, h.waiting⟩
  | enter hc hg hstart =>
    exact ⟨h.here.enter hP hc hg hstart, h.here, h.waiting⟩
  | skip hc _ hr => exact ⟨h.here.skip hP hc hr, h.waiting⟩
  | leave hx hc hr =>
    obtain ⟨hcaller, hwaiting⟩ := h.waiting
    exact ⟨h.here.leave hP hcaller hx hc hr, hwaiting⟩

variable (config world) in
/-- And so is every execution from an entry, by induction on its steps. -/
private theorem tracks_of_reachable (hP : P.IsLaidOut)
    {m : Machine (Option Int)}
    (h : Machine.Reachable Semantics.integers P entries m) :
    Tracks P entries config world m := by
  induction h with
  | @start p st hp hst =>
    refine ⟨⟨?_, nofun⟩, trivial⟩
    refine ⟨⟨st, zero, .bottom⟩, ?_, [], [], .here, rfl,
        ExactValue.bottom_below _⟩
    refine List.mem_append_left _ (List.mem_map.mpr ⟨st, ?_, rfl⟩)
    exact List.mem_filterMap.mpr ⟨p, hp, hst⟩
  | step _ hstep ih => exact ih.step hP hstep

/-- Where an execution holds a number, a complete run reports that
number or the top. -/
theorem resultAt_of_reachable {steps : List Draft.Step}
    (hsteps : Draft.IsProper steps) (hvalues : config.computeValues = true)
    {fuel : Nat} {r : Results LocalFact ConstValue}
    (hrun : (Solver.solve (setup (Draft.ofSteps steps).build entries config
      world) fuel (Draft.ofSteps steps).build.graph).1 = .ok r)
    (hcomplete : r.status = .complete) {m : Machine (Option Int)}
    (hm : Machine.Reachable Semantics.integers
      (Draft.ofSteps steps).build entries m) {x : Var} {c : Int}
    (hx : m.vars x = some c) :
    r.resultAt m.node (var x) = .top ∨
      ∃ w : Word, r.resultAt m.node (var x) = .const w ∧ w.val = c := by
  have hP := hsteps.isLaidOut
  -- the path that brought the number is accounted for by the report
  obtain ⟨seed, hseed, ws, k, hpath, _, hbelow⟩ :=
    (tracks_of_reachable config world hP hm).here.atVar hx
  have hreport := Solver.bounds_resultAt measures_coverage hP.wellFormed
    (fun _ _ _ => rfl) ConstValue.isSemilattice hvalues hrun hcomplete
    isNormal_of_step
    (fun seed => seed.value.toExact) (fun seed _ => .refl _) hseed hpath
  exact ConstValue.eq_of_int_below (hbelow.trans hreport)

/-- A number that outgrows the words, and one that goes through a call. -/
def scaling : List Draft.Step := [
  .declare "main" [],
  .declare "scale" ["p"],
  .write ⟨0⟩ (.const "b" ⟨4611686018427387904, by decide, by decide⟩),
  .write ⟨0⟩ (.linear "big" "b" ⟨4, by decide, by decide⟩ Word.zero),
  .write ⟨0⟩ (.const "x" ⟨3, by decide, by decide⟩),
  .write ⟨0⟩ (.call (.direct ⟨1⟩) ["x"] (some "z")),
  .write ⟨0⟩ (.use "z"),
  .write ⟨1⟩ (.linear "q" "p" ⟨6, by decide, by decide⟩ Word.one),
  .write ⟨1⟩ (.ret (some "q"))]

theorem isProper_scaling : Draft.IsProper scaling :=
  ⟨Draft.answered_of_isOk (by decide +kernel), by decide⟩

/-- The execution of `scaling`, up to its last statement. -/
private theorem reachable_scaling :
    ∃ m,
    Machine.Reachable Semantics.integers (Draft.ofSteps scaling).build [⟨0⟩] m ∧
      m.node = ⟨4⟩ ∧ m.vars "z" = some 19 ∧
      m.vars "big" = some 18446744073709551616 := by
  have h₀ : Machine.Reachable Semantics.integers (Draft.ofSteps scaling).build
      [⟨0⟩] ⟨⟨0⟩, fun _ => none, []⟩ :=
      .start List.mem_cons_self (by decide +kernel)
  have h₁ := h₀.step (.move (m := ⟨1⟩) rfl rfl rfl (by decide +kernel))
  have h₂ := h₁.step (.move (m := ⟨2⟩) rfl rfl rfl (by decide +kernel))
  have h₃ := h₂.step (.move (m := ⟨3⟩) rfl rfl rfl (by decide +kernel))
  have h₄ := h₃.step (.enter (g := ⟨1⟩) rfl (by decide +kernel) rfl)
  have h₅ := h₄.step (.move (m := ⟨6⟩) rfl rfl rfl (by decide +kernel))
  have h₆ := h₅.step (.leave rfl rfl rfl)
  exact ⟨_, h₆, rfl, rfl, rfl⟩

/-- The number that went through the call is reported, and the one that
outgrew the words is given up. -/
theorem resultAt_of_reachable_scaling :
    ∃ r m, (Solver.solve (setup (Draft.ofSteps scaling).build [⟨0⟩] {} {}) 100
        (Draft.ofSteps scaling).build.graph).1 = .ok r ∧
      r.status = .complete ∧
      Machine.Reachable Semantics.integers
        (Draft.ofSteps scaling).build [⟨0⟩] m ∧
      m.node = ⟨4⟩ ∧ m.vars "z" = some 19 ∧
      m.vars "big" = some 18446744073709551616 ∧
      (∃ w : Word, r.resultAt ⟨4⟩ (var "z") = .const w ∧ w.val = 19) ∧
      r.resultAt ⟨4⟩ (var "big") = .top := by
  obtain ⟨m, hm, hnode, hz, hbig⟩ := reachable_scaling
  have heval :
      (Solver.solve (setup (Draft.ofSteps scaling).build [⟨0⟩] {} {}) 100
      (Draft.ofSteps scaling).build.graph).1.toOption.map
      (fun r => (r.status, decide (r.resultAt ⟨4⟩ (var "z") = .top))) =
        some (.complete, false) := by decide +kernel
  obtain ⟨r, hrun, hr⟩ := Solver.exists_ok_of_map heval
  simp only [Prod.mk.injEq, decide_eq_false_iff_not] at hr
  have hreport := fun {x c} (hx : m.vars x = some c) =>
    resultAt_of_reachable isProper_scaling rfl hrun hr.1 hm hx
  rw [hnode] at hreport
  refine ⟨r, m, hrun, hr.1, hm, hnode, hz, hbig,
      (hreport hz).resolve_left hr.2, ?_⟩
  rcases hreport hbig with h | ⟨w, _, hw⟩
  · exact h
  · have hupper := w.upper
    omega

end Tabulation.LinearConstants
