/-
The analysis of uninitialized variables misses no undefined use.

Whenever an execution stands before a node with a variable that may
have no value, a complete run has found the fact of that variable
there; and if the statement at the node reads the variable, the use is
listed (`mem_undefinedUses_of_reachable`).

# Following an execution

Every variable without a value got that way along some path of the
exploded supergraph: from the declaration or the missing argument at
which zero gave rise to it, through assignments, calls and returns. The
path has open calls at the same sites as the execution (`Arrives`). The
next statement prolongs each of these paths by one step. Across a
return, the result comes by a path inside the callee, and the other
variables by paths that stood at the call; these are kept for every
call that waits (`Tracks`).

# From paths to uses

The tables of a complete run account for every path, so the fact is
found. That the list of undefined uses can be made at all takes one
more thing: every node that was reached has a statement, because every
node that a procedure owns has one.
-/
import Tabulation.Analysis.UndefinedUse
import Tabulation.Program.Missing
import Tabulation.Proofs.EffectiveFlow
import Tabulation.Proofs.Program.Text
import Tabulation.Proofs.Reachability

namespace Tabulation

-- ============================================================ paths and runs

namespace Supergraph

variable {D W L : Type} [DecidableEq D] {S : Setup D W L} {I : Icfg}
variable {n m c r x start : Node} {sites : List Node} {d e : D} {w : W}

variable (S I) in
/-- Some path leads to a fact at a node, through open calls at the
given sites. With which facts the calls were made is left open. -/
def Arrives (n : Node) (sites : List Node) (d : D) : Prop :=
  ∃ seed ∈ S.seedsOn I, ∃ ws k,
    Path S I ⟨seed.node, seed.fact, []⟩ ws ⟨n, d, k⟩ ∧ k.map Frame.site = sites

/-- Without the calls, the fact is reached. -/
theorem Arrives.reaches (h : Arrives S I n sites d) : Reaches S I n d := by
  obtain ⟨seed, hseed, ws, k, hpath, _⟩ := h
  exact ⟨seed, hseed, ws, k, hpath⟩

/-- A path goes on under the calls that are open. -/
theorem Arrives.within (h : Arrives S I n sites d)
    (hstep : ∀ k, Step S I ⟨n, d, k⟩ w ⟨m, e, k⟩) : Arrives S I m sites e := by
  obtain ⟨seed, hseed, ws, k, hpath, hsites⟩ := h
  exact ⟨seed, hseed, ws ++ [w], k, hpath.snoc (hstep k), hsites⟩

/-- A path opens a call. -/
theorem Arrives.enter (h : Arrives S I c sites d)
    (hstep : ∀ k, Step S I ⟨c, d, k⟩ w ⟨start, e, ⟨c, d⟩ :: k⟩) :
    Arrives S I start (c :: sites) e := by
  obtain ⟨seed, hseed, ws, k, hpath, hsites⟩ := h
  refine ⟨seed, hseed, ws ++ [w], ⟨c, d⟩ :: k, hpath.snoc (hstep k), ?_⟩
  rw [List.map_cons, hsites]

/-- A path returns from its innermost call. -/
theorem Arrives.leave (h : Arrives S I x (c :: sites) d)
    (hstep : ∀ callFact k, Step S I ⟨x, d, ⟨c, callFact⟩ :: k⟩ w ⟨r, e, k⟩) :
    Arrives S I r sites e := by
  obtain ⟨seed, hseed, ws, k, hpath, hsites⟩ := h
  obtain ⟨frame, k, rfl, hsite, hrest⟩ := List.map_eq_cons_iff.mp hsites
  obtain ⟨site, callFact⟩ := frame
  obtain rfl : site = c := hsite
  exact ⟨seed, hseed, ws ++ [w], k, hpath.snoc (hstep callFact k), hrest⟩

end Supergraph

namespace Solver

variable {D W L : Type} [DecidableEq D] [DecidableEq W] [DecidableEq L]
variable {S : Setup D W L} {fuel : Nat} {graph : FlowGraph} {r : Results D L}

/-- A complete run has found every fact that a path leads to: its
tables are closed under the rules, and paths follow by them. -/
private theorem holdsFact_of_reaches (hwf : (S.view graph).WellFormed)
    (hpure : S.problem.IsPure) (hrun : (solve S fuel graph).1 = .ok r)
    (hcomplete : r.status = .complete) {n : Node} {d : D}
    (h : Supergraph.Reaches S (S.view graph) n d) :
    r.holdsFact n d = .reachable := by
  obtain ⟨s₁, s, values, hdone⟩ := completed_of_solve hrun hcomplete
  obtain ⟨hsat, met, hs⟩ :=
    saturated_of_isPure (Coverage.bare S).isGrowthOrder hpure hwf.start_owned
    hdone.begun hdone.looped
  obtain ⟨seed, hseed, ws, k, hpath⟩ := h
  rw [← hs.graph_eq hpure] at hseed hpath
  have htraced := Supergraph.traced_of_path hwf hs hsat.stable
    (fun _ => trivial) (fun _ => ()) hseed hpath
  obtain ⟨_, source, w, _, _, _, hw, _⟩ := htraced.activation
  exact (hdone.holdsFact_iff n d).mpr ⟨source, w, hw⟩

/-- What a list of questions that are all answered is answered by. -/
private theorem exists_of_mapM_eq_ok {ε α β : Type} {f : α → Except ε β}
    {l : List α} {bs : List β} (h : l.mapM f = .ok bs) {b : β} (hb : b ∈ bs) :
    ∃ a ∈ l, f a = .ok b := by
  induction l generalizing bs with
  | nil =>
    cases h
    exact absurd hb List.not_mem_nil
  | cons a l ih =>
    rw [List.mapM_cons] at h
    cases hfirst : f a with
    | error e =>
      rw [hfirst] at h
      cases h
    | ok b₀ =>
      cases hrest : l.mapM f with
      | error e =>
        rw [hfirst, hrest] at h
        cases h
      | ok bs₀ =>
        rw [hfirst, hrest] at h
        cases h
        rcases List.mem_cons.mp hb with rfl | hb
        · exact ⟨a, List.mem_cons_self, hfirst⟩
        · obtain ⟨a', ha', hfound⟩ := ih hrest hb
          exact ⟨a', List.mem_cons_of_mem _ ha', hfound⟩

/-- The nodes of a report are owned, since the rows of other nodes
could not have been assembled. -/
private theorem exists_procOf?_of_reached
    (hrun : (solve S fuel graph).1 = .ok r) {n : Node}
    (hn : n ∈ r.reachedNodes) :
    ∃ p, (S.view (solve S fuel graph).2).procOf? n = some p := by
  obtain ⟨_, _, s, _, values, _, _, _, hreport, hgraph⟩ := parts_of_solve hrun
  obtain ⟨hrows, _⟩ := eq_of_report hreport
  obtain ⟨row, hrow, rfl⟩ := List.mem_map.mp hn
  obtain ⟨m, _, hm⟩ := exists_of_mapM_eq_ok hrows hrow
  rw [hgraph]
  unfold Results.assembleRow at hm
  cases hproc : (S.view s.graph).procOf? m with
  | none =>
    rw [hproc] at hm
    cases hm
  | some p =>
    rw [hproc] at hm
    cases hm
    exact ⟨p, hproc⟩

end Solver

-- =========================================================== what flows do

namespace Uninitialized

open Supergraph LocalFact

variable {P : Program} {entries : List Proc} {config : Config} {world : World}

/-- The analysis of uninitialized variables, set up. It starts from the
entries alone and makes no requests. -/
def setup (P : Program) (entries : List Proc) (config : Config)
    (world : World) : Setup LocalFact BinaryEdge Binary :=
  { problem := (problem P entries).toProblem, config, world }

section Targets

variable {n c x : Node} {s sc sx : Stmt} {d e : LocalFact}

/-- Answers carry the identity only, so the solver takes them as they
stand. -/
private theorem mem_effective_withWeight {facts : List LocalFact}
    (h : e ∈ facts) :
    (e, .identity) ∈ (setup P entries config world).effective d
      (FlowFunction.withWeight facts .identity) := by
  refine Setup.mem_effective rfl (fun v hv => ?_) (List.mem_map.mpr ⟨e, h, rfl⟩)
    fun _ _ => rfl
  obtain ⟨_, _, heq⟩ := List.mem_map.mp hv
  cases heq
  rfl

/-- A fact that a statement's flow yields is one that paths step to,
also at identity nodes, where the flow is not asked. -/
private theorem mem_normalTargets (hs : P.stmts.get? n = some s)
    (h : e ∈ normalFlow s d) (m : Node) :
    (e, .identity) ∈ (setup P entries config world).normalTargets n m d := by
  unfold Setup.normalTargets
  simp only [setup, ReachabilityProblem.toProblem, problem,
      Program.stmt_eq_ok hs, Except.map, flow]
  cases hid : isIdentity s with
  | true =>
    have hpass : normalFlow s d = [d] := by
      cases s <;> first | (cases d <;> rfl) | cases hid
    rw [hpass] at h
    exact mem_effective_withWeight h
  | false => exact mem_effective_withWeight h

private theorem mem_callTargets (hs : P.stmts.get? c = some s) {g : Proc}
    (h : e ∈ callFlow s (P.params g) d) (start : Node) :
    (e, .identity) ∈
      (setup P entries config world).callTargets c g start d := by
  unfold Setup.callTargets
  simp only [setup, ReachabilityProblem.toProblem, problem, flow,
      Program.stmt_eq_ok hs]
  exact mem_effective_withWeight h

private theorem mem_passTargets (hs : P.stmts.get? c = some s)
    (h : e ∈ callToReturnFlow s d) (r : Node) :
    (e, .identity) ∈ (setup P entries config world).passTargets c r d := by
  unfold Setup.passTargets
  simp only [setup, ReachabilityProblem.toProblem, problem, flow,
      Program.stmt_eq_ok hs]
  exact mem_effective_withWeight h

/-- The same for returns; calls and what goes past them are alike. -/
private theorem mem_returnTargets (hc : P.stmts.get? c = some sc)
    (hx : P.stmts.get? x = some sx) (h : e ∈ returnFlow sc sx d) (g : Proc)
    (r : Node) (callFact : LocalFact) :
    (e, .identity) ∈
      (setup P entries config world).returnTargets c g x r d callFact := by
  unfold Setup.returnTargets
  simp only [setup, ReachabilityProblem.toProblem, problem, flow,
    Program.stmt_eq_ok hc, Program.stmt_eq_ok hx]
  exact mem_effective_withWeight h

end Targets

-- ============================================== following an execution

section Following

variable (P entries config world)

/-- A path leads to every variable without a value, and to zero, all of
them through open calls at the same sites. -/
structure Accounts (n : Node) (σ : Var → Bool) (sites : List Node) : Prop where
  atZero : Arrives (setup P entries config world) P.graph.icfg n sites zero
  atVar : ∀ {x}, σ x = true →
    Arrives (setup P entries config world) P.graph.icfg n sites (var x)

/-- The same for the calls that wait. Each is accounted for at its
site, as it was when the call was made. -/
def Waits : List (Activation Bool) → Prop
  | [] => True
  | a :: k =>
    Accounts P entries config world a.site a.vars (k.map Activation.site) ∧
      Waits k

/-- An execution is followed by paths. -/
structure Tracks (m : Machine Bool) : Prop where
  here : Accounts P entries config world m.node m.vars
    (m.waiting.map Activation.site)
  waiting : Waits P entries config world m.waiting

end Following

section Machines

variable {n m c r x start : Node} {sites : List Node} {σ τ : Var → Bool}
variable {g : Proc}

/-- The flow of a statement gives rise to a variable without a value:
from zero, or from a variable that had none before. -/
def MadeFrom (s : Stmt) (σ : Var → Bool) (y : Var) : Prop :=
  var y ∈ normalFlow s zero ∨ ∃ x, σ x = true ∧ var y ∈ normalFlow s (var x)

/-- A variable without a value keeps none unless it is written, and
passes that on to what is written from it. -/
private theorem normalFlow_var (s : Stmt) (x : Var) :
    normalFlow s (var x) =
      (if s.writes ≠ some x ∨
        decide (x ∈ s.reads) = true then [var x] else []) ++
        s.writes.elim [] fun y =>
          if decide (x ∈ s.reads) = true ∧ y ≠ x then [var y] else [] := by
  cases s with
  | call callee args result => cases result <;> rfl
  | _ => rfl

/-- Where a variable without a value comes from in an assignment: it
kept it, or something that was read had none. -/
private theorem exists_source_of_setResult {reads : List Var}
    {writes : Option Var} {y : Var}
    (h : Machine.setResult σ writes (reads.any σ) y = true) :
    ∃ x, σ x = true ∧ ((x = y ∧ (writes ≠ some y ∨ y ∈ reads)) ∨
      (x ≠ y ∧ x ∈ reads ∧ writes = some y)) := by
  cases writes with
  | none => exact ⟨y, h, Or.inl ⟨rfl, Or.inl nofun⟩⟩
  | some z =>
    simp only [Machine.setResult, Machine.set] at h
    split at h
    next heq =>
      obtain ⟨x, hx, hσ⟩ := List.any_eq_true.mp h
      by_cases hxy : x = y
      · exact ⟨x, hσ, Or.inl ⟨hxy, Or.inr (hxy ▸ hx)⟩⟩
      · exact ⟨x, hσ, Or.inr ⟨hxy, hx, by rw [heq]⟩⟩
    next hne =>
      exact ⟨y, h,
          Or.inl ⟨rfl, Or.inl fun heq => hne (Option.some.inj heq).symm⟩⟩

/-- Every statement leaves variables without a value the way its flow
says. -/
private theorem madeFrom_of_after {s : Stmt} {y : Var}
    (hy : Machine.after Semantics.missing s σ y = true) : MadeFrom s σ y := by
  by_cases hdecl : ∃ z, s = .decl z
  · obtain ⟨z, rfl⟩ := hdecl
    simp only [Machine.after, Machine.set] at hy
    split at hy
    next heq =>
      rw [heq]
      exact Or.inl (by simp [normalFlow, FlowFunction.generate])
    next => exact Or.inr ⟨y, hy, by simp [normalFlow]⟩
  · -- every other statement is known by what it reads and writes
    have hafter : Machine.after Semantics.missing s σ =
        Machine.setResult σ s.writes (s.reads.any σ) := by
      cases s <;> first | rfl | exact absurd ⟨_, rfl⟩ hdecl
    rw [hafter] at hy
    obtain ⟨x, hσ, hx⟩ := exists_source_of_setResult hy
    refine Or.inr ⟨x, hσ, ?_⟩
    rw [normalFlow_var]
    rcases hx with ⟨rfl, hkept⟩ | ⟨hne, hread, hwrites⟩
    · refine List.mem_append_left _ ?_
      rw [if_pos (hkept.imp_right decide_eq_true)]
      exact List.mem_singleton.mpr rfl
    · refine List.mem_append_right _ ?_
      rw [hwrites]
      simp [hread, Ne.symm hne]

private theorem zero_mem_normalFlow (s : Stmt) : zero ∈ normalFlow s zero := by
  cases s <;> simp [normalFlow, FlowFunction.generate]

/-- A statement that neither calls nor returns. One path is prolonged
for each variable that has no value afterwards. -/
theorem Accounts.move (hP : P.IsLaidOut) {s : Stmt}
    (h : Accounts P entries config world n σ sites)
    (hs : P.stmts.get? n = some s) (hcall : s.isCall = false)
    (hret : s.isReturn = false) (hm : m ∈ P.graph.successors n) :
    Accounts P entries config world m
      (Machine.after Semantics.missing s σ) sites := by
  have hflow : ∀ {d e}, Arrives (setup P entries config world) P.graph.icfg n
      sites d → e ∈ normalFlow s d →
      Arrives (setup P entries config world) P.graph.icfg m sites e := by
    intro d e hd he
    refine hd.within fun k => .normal ?_ ?_ hm (mem_normalTargets hs he m)
    · show P.graph.isCall n = false
      rw [hP.isCall hs, hcall]
    · show some (P.graph.isExit n) = some false
      rw [hP.isExit hs, hret]
  refine ⟨hflow h.atZero (zero_mem_normalFlow s), fun {y} hy => ?_⟩
  rcases madeFrom_of_after hy with hborn | ⟨z, hz, hmade⟩
  · exact hflow h.atZero hborn
  · exact hflow (h.atVar hz) hmade

/-- A parameter without a value is bound to an argument without one, or
lies beyond the arguments. -/
def BoundToMissing (σ : Var → Bool) (params args : List Var) (y : Var) : Prop :=
  (∃ arg, (arg, y) ∈ args.zip params ∧ σ arg = true) ∨
  y ∈ params.drop args.length

/-- Binding parameters one by one: what is missing afterwards is a
parameter, since other variables of the callee are not missing when it
begins. -/
private theorem boundToMissing_of_entered {params args : List Var} {y : Var}
    (h : Machine.entered Semantics.missing σ params args y = true) :
    BoundToMissing σ params args y := by
  rcases Machine.bind_cases Semantics.missing σ (fun _ => false)
    params args y with
    ⟨arg, hmem, heq⟩ | ⟨hmem, _⟩ | heq
  · exact Or.inl ⟨arg, hmem, heq.symm.trans h⟩
  · exact Or.inr hmem
  · exact absurd (heq.symm.trans h) nofun

/-- The second way binds all parameters at once, so one that is named
twice may be missing by either of its arguments. -/
private theorem boundToMissing_of_missingAtEntry {params args : List Var}
    {y : Var} (h : Machine.missingAtEntry σ params args y = true) :
    BoundToMissing σ params args y := by
  rcases Bool.or_eq_true _ _ ▸ h with hbound | hbeyond
  · obtain ⟨b, hmem, hb⟩ := List.any_eq_true.mp hbound
    obtain ⟨hy, hσ⟩ := Bool.and_eq_true _ _ ▸ hb
    rw [← of_decide_eq_true hy]
    exact Or.inl ⟨b.1, hmem, hσ⟩
  · exact Or.inr (of_decide_eq_true hbeyond)

/-- A call that enters a callee, with parameters bound in either way. A
parameter beyond the arguments comes from zero. -/
theorem Accounts.enter (hP : P.IsLaidOut) {callee : Callee} {args : List Var}
    {result : Option Var} (h : Accounts P entries config world c σ sites)
    (hc : P.stmts.get? c = some (.call callee args result))
    (hg : g ∈ P.graph.callees c) (hstart : P.graph.start? g = some start)
    (hτ : ∀ {y}, τ y = true → BoundToMissing σ (P.params g) args y) :
    Accounts P entries config world start τ (c :: sites) := by
  have hflow : ∀ {d e}, Arrives (setup P entries config world) P.graph.icfg c
      sites d → e ∈ callFlow (.call callee args result) (P.params g) d →
      Arrives (setup P entries config world) P.graph.icfg start
        (c :: sites) e :=
    fun hd he => hd.enter fun k =>
      .call (hP.isCall hc) hg hstart (mem_callTargets hc he start)
  refine ⟨hflow h.atZero (by simp [callFlow, FlowFunction.generate]),
      fun {y} hy => ?_⟩
  rcases hτ hy with ⟨arg, hmem, harg⟩ | hbeyond
  · refine hflow (h.atVar harg) ?_
    simp only [callFlow, FlowFunction.transfer, bindings]
    refine List.mem_map.mpr ⟨(var arg, var y), ?_, rfl⟩
    exact List.mem_filter.mpr ⟨List.mem_map.mpr ⟨(arg, y), hmem, rfl⟩,
        decide_eq_true rfl⟩
  · refine hflow h.atZero (List.mem_cons_of_mem _ ?_)
    refine List.mem_filter.mpr ⟨List.mem_map.mpr ⟨y, hbeyond, rfl⟩,
        decide_eq_true nofun⟩

/-- After a call, variables other than the result are as they were
before it. They take the path past the call. -/
theorem Accounts.afterCall (hP : P.IsLaidOut) {callee : Callee}
    {args : List Var} {result : Option Var}
    (h : Accounts P entries config world c σ sites)
    (hc : P.stmts.get? c = some (.call callee args result))
    (hr : P.graph.returnSite? c = some r) {v : Bool}
    (hv : ∀ {z}, result = some z → v = true →
      Arrives (setup P entries config world) P.graph.icfg r sites (var z)) :
    Accounts P entries config world r (Machine.setResult σ result v) sites := by
  have hpast : ∀ {d}, Arrives (setup P entries config world) P.graph.icfg c
      sites d → d ∈ callToReturnFlow (.call callee args result) d →
      Arrives (setup P entries config world) P.graph.icfg r sites d :=
    fun hd he => hd.within fun k =>
      .pass (hP.isCall hc) hr (mem_passTargets hc he r)
  cases result with
  | none =>
    exact ⟨hpast h.atZero List.mem_cons_self,
        fun hy => hpast (h.atVar hy) List.mem_cons_self⟩
  | some z =>
    refine ⟨hpast h.atZero List.mem_cons_self, fun {y} hy => ?_⟩
    simp only [Machine.setResult, Machine.set] at hy
    split at hy
    next heq =>
      rw [heq]
      exact hv rfl hy
    next hne => exact hpast (h.atVar hy) (by simp [callToReturnFlow, hne])

/-- A return to a call that waits. The result comes along a path inside
the callee, and everything else from the paths at the call. -/
theorem Accounts.leave (hP : P.IsLaidOut) {callee : Callee} {args : List Var}
    {result returned : Option Var}
    (h : Accounts P entries config world x σ (c :: sites))
    (hcaller : Accounts P entries config world c τ sites)
    (hx : P.stmts.get? x = some (.ret returned))
    (hc : P.stmts.get? c = some (.call callee args result))
    (hr : P.graph.returnSite? c = some r) :
    Accounts P entries config world r
      (Machine.setResult τ result ((returned.map σ).getD false)) sites := by
  refine hcaller.afterCall hP hc hr fun {z} hresult hmissing => ?_
  subst hresult
  cases returned with
  | none => cases hmissing
  | some v =>
    obtain ⟨g, hg⟩ := hP.owned hx
    refine (h.atVar hmissing).leave fun callFact k =>
      .ret (hP.isCall hx) (congrArg some (hP.isExit hx)) hg hr
        (mem_returnTargets hc hx ?_ g r _)
    simp [returnFlow]

end Machines

-- ========================================================= every execution

/-- One step of an execution, whatever its kind, is followed by the
paths. -/
theorem Tracks.step (hP : P.IsLaidOut) {a b : Machine Bool}
    (h : Tracks P entries config world a) (hstep : Machine.MissingStep P a b) :
    Tracks P entries config world b := by
  cases hstep with
  | step hstep =>
    cases hstep with
    | move hs hcall hret hm =>
      exact ⟨h.here.move hP hs hcall hret hm, h.waiting⟩
    | enter hc hg hstart =>
      exact ⟨h.here.enter hP hc hg hstart boundToMissing_of_entered,
          h.here, h.waiting⟩
    | skip hc _ hr => exact ⟨h.here.afterCall hP hc hr nofun, h.waiting⟩
    | leave hx hc hr =>
      obtain ⟨hcaller, hwaiting⟩ := h.waiting
      exact ⟨h.here.leave hP hcaller hx hc hr, hwaiting⟩
  | enter hc hg hstart =>
    exact ⟨h.here.enter hP hc hg hstart boundToMissing_of_missingAtEntry,
        h.here, h.waiting⟩

variable (config world) in
/-- And so is every execution from an entry, by induction on its steps. -/
private theorem tracks_of_reachable (hP : P.IsLaidOut) {m : Machine Bool}
    (h : Machine.MissingReachable P entries m) :
    Tracks P entries config world m := by
  induction h with
  | @start p st hp hst =>
    refine ⟨⟨⟨⟨st, zero, .top⟩, ?_, [], [], .here, rfl⟩, nofun⟩, trivial⟩
    refine List.mem_append_left _ (List.mem_map.mpr ⟨st, ?_, rfl⟩)
    exact List.mem_filterMap.mpr ⟨p, hp, hst⟩
  | step _ hstep ih => exact ih.step hP hstep

-- ============================================================ listing uses

section Uses

variable {r : Results LocalFact Binary} {checkArguments : Bool}

private theorem mapM_eq_ok_map {ε α β : Type} {f : α → Except ε β} {g : α → β}
    {l : List α} (h : ∀ a ∈ l, f a = .ok (g a)) : l.mapM f = .ok (l.map g) := by
  induction l with
  | nil => rfl
  | cons a l ih =>
    rw [List.mapM_cons, h a List.mem_cons_self,
        ih fun a' ha' => h a' (List.mem_cons_of_mem _ ha')]
    rfl

/-- If every node that was reached has a statement, the list of
undefined uses can be made, and has every node with an undefined read. -/
private theorem exists_undefinedUses
    (h : ∀ n ∈ r.reachedNodes, ∃ s, P.stmts.get? n = some s)
    (checkArguments : Bool) :
    ∃ uses, undefinedUses P r checkArguments = .ok uses ∧
      ∀ {n s x}, n ∈ r.reachedNodes → P.stmts.get? n = some s →
        x ∈ undefinedReads r checkArguments n s →
        (n, undefinedReads r checkArguments n s) ∈ uses := by
  have hreads := mapM_eq_ok_map (l := r.reachedNodes)
    (f := fun n =>
      do return (n, undefinedReads r checkArguments n (← P.stmt n)))
    (g := fun n =>
      (n, (P.stmts.get? n).elim [] (undefinedReads r checkArguments n)))
    fun n hn => by
      obtain ⟨s, hs⟩ := h n hn
      rw [Program.stmt_eq_ok hs, hs]
      rfl
  have huses : undefinedUses P r checkArguments =
      .ok ((r.reachedNodes.map fun n =>
      (n, (P.stmts.get? n).elim [] (undefinedReads r checkArguments n))).filter
        fun use => !use.2.isEmpty) := by
    unfold undefinedUses
    rw [hreads]
    rfl
  refine ⟨_, huses, fun {n s x} hn hs hx =>
      List.mem_filter.mpr ⟨List.mem_map.mpr ⟨n, hn, ?_⟩, ?_⟩⟩
  · rw [hs]
    rfl
  · rw [Bool.not_eq_true', List.isEmpty_eq_false_iff]
    exact List.ne_nil_of_mem hx

/-- A variable that is read and may have no value is an undefined read;
in a call only if arguments are checked. -/
private theorem mem_undefinedReads {n : Node} {s : Stmt} {x : Var}
    (hread : x ∈ s.reads) (hx : r.holdsFact n (var x) = .reachable)
    (hcall : s.isCall = true → checkArguments = true) :
    x ∈ undefinedReads r checkArguments n s := by
  have hchecked : (s.isCall && !checkArguments) = false := by
    cases hs : s.isCall with
    | false => rfl
    | true => rw [hcall hs]; rfl
  unfold undefinedReads
  rw [hchecked, if_neg Bool.false_ne_true, Listing.mem_sortBy,
      Listing.mem_distinct]
  exact List.mem_filter.mpr ⟨hread, decide_eq_true hx⟩

/-- A fact that holds somewhere was reached there. -/
private theorem mem_reachedNodes {n : Node} {d : LocalFact}
    (h : r.holdsFact n d = .reachable) : n ∈ r.reachedNodes := by
  obtain ⟨v, hv⟩ := Results.holdsFact_eq_reachable_iff.mp h
  obtain ⟨row, hrow, _⟩ := Option.bind_eq_some_iff.mp hv
  have hnode : row.node = n := by simpa using List.find?_some hrow
  exact List.mem_map.mpr ⟨row, List.mem_of_find?_eq_some hrow, hnode⟩

end Uses

/-- Where an execution has a variable without a value, a complete run
has found its fact, and lists the use if the statement there reads it;
arguments of calls are listed when they are checked. -/
theorem mem_undefinedUses_of_reachable {steps : List Draft.Step}
    (hsteps : Draft.IsProper steps) {fuel : Nat} {r : Results LocalFact Binary}
    (hrun : (Solver.solve (setup (Draft.ofSteps steps).build entries config
      world) fuel (Draft.ofSteps steps).build.graph).1 = .ok r)
    (hcomplete : r.status = .complete) {m : Machine Bool}
    (hm : Machine.MissingReachable (Draft.ofSteps steps).build entries m)
    {x : Var} (hx : m.vars x = true) :
    r.holdsFact m.node (var x) = .reachable ∧
      ∀ checkArguments s, (Draft.ofSteps steps).build.stmts.get? m.node =
        some s → x ∈ s.reads → (s.isCall = true → checkArguments = true) →
        ∃ uses vars, undefinedUses (Draft.ofSteps steps).build r
          checkArguments = .ok uses ∧ (m.node, vars) ∈ uses ∧ x ∈ vars := by
  have hP := hsteps.isLaidOut
  have hpure :
    (setup (Draft.ofSteps steps).build entries config world).problem.IsPure :=
    fun _ _ _ => rfl
  have harrives := (tracks_of_reachable config world hP hm).here.atVar hx
  have hfound := Solver.holdsFact_of_reaches hP.wellFormed hpure hrun hcomplete
    harrives.reaches
  refine ⟨hfound, fun checkArguments s hs hread hcall => ?_⟩
  -- the graph is as it was, so every node that was reached has a statement
  have hgraph := Solver.graph_of_isPure hP.wellFormed.start_owned hpure
    hrun hcomplete
  have hstmts : ∀ n ∈ r.reachedNodes, ∃ s,
      (Draft.ofSteps steps).build.stmts.get? n = some s := by
    intro n hn
    obtain ⟨p, hp⟩ := Solver.exists_procOf?_of_reached hrun hn
    rw [hgraph] at hp
    exact Draft.exists_stmt_of_procOf? (Draft.isNumbered_ofSteps steps) hp
  obtain ⟨uses, huses, hlisted⟩ := exists_undefinedUses hstmts checkArguments
  have hxread := mem_undefinedReads hread hfound hcall
  exact ⟨uses, _, huses, hlisted (mem_reachedNodes hfound) hs hxread, hxread⟩

/-- A call with too few arguments, whose callee reads the parameter
that is left over. -/
def shortCall : List Draft.Step := [
  .declare "main" [],
  .declare "sum" ["p", "q"],
  .write ⟨0⟩ (.const "x" Word.one),
  .write ⟨0⟩ (.call (.direct ⟨1⟩) ["x"] (some "a")),
  .write ⟨0⟩ (.use "a"),
  .write ⟨1⟩ (.add "r" "p" "q"),
  .write ⟨1⟩ (.ret (some "r"))]

private theorem isProper_shortCall : Draft.IsProper shortCall :=
  ⟨Draft.answered_of_isOk (by decide +kernel), by decide⟩

/-- The execution of `shortCall`, up to its last statement. -/
private theorem reachable_shortCall :
    ∃ m,
    Machine.MissingReachable (Draft.ofSteps shortCall).build [⟨0⟩] m ∧
      m.node = ⟨2⟩ ∧ m.vars "a" = true ∧ m.vars "x" = false := by
  have h₀ : Machine.MissingReachable (Draft.ofSteps shortCall).build [⟨0⟩]
      ⟨⟨0⟩, fun _ => false, []⟩ := .start List.mem_cons_self (by decide +kernel)
  have h₁ := h₀.step (.step (.move (m := ⟨1⟩) rfl rfl rfl (by decide +kernel)))
  have h₂ := h₁.step (.enter (g := ⟨1⟩) rfl (by decide +kernel) rfl)
  have h₃ := h₂.step (.step (.move (m := ⟨4⟩) rfl rfl rfl (by decide +kernel)))
  have h₄ := h₃.step (.step (.leave rfl rfl rfl))
  exact ⟨_, h₄, rfl, rfl, rfl⟩

/-- The missing argument shows where the result of the call is used. -/
theorem mem_undefinedUses_of_reachable_shortCall :
    ∃ r m uses vars,
      (Solver.solve
        (setup (Draft.ofSteps shortCall).build [⟨0⟩] .reachability {}) 100
        (Draft.ofSteps shortCall).build.graph).1 = .ok r ∧
      r.status = .complete ∧
      Machine.MissingReachable (Draft.ofSteps shortCall).build [⟨0⟩] m ∧
      m.node = ⟨2⟩ ∧
      m.vars "a" = true ∧ r.holdsFact ⟨2⟩ (var "a") = .reachable ∧
      undefinedUses (Draft.ofSteps shortCall).build r false = .ok uses ∧
      (⟨2⟩, vars) ∈ uses ∧ "a" ∈ vars := by
  obtain ⟨m, hm, hnode, ha, _⟩ := reachable_shortCall
  have heval :
      (Solver.solve (setup (Draft.ofSteps shortCall).build [⟨0⟩] .reachability
      {}) 100 (Draft.ofSteps shortCall).build.graph).1.toOption.map
      Results.status = some .complete := by decide +kernel
  obtain ⟨r, hrun, hcomplete⟩ := Solver.exists_ok_of_map heval
  obtain ⟨hfound, hlisted⟩ :=
    mem_undefinedUses_of_reachable isProper_shortCall hrun hcomplete hm ha
  rw [hnode] at hfound hlisted
  obtain ⟨uses, vars, huses, hmem, hvars⟩ :=
    hlisted false (.use "a") rfl List.mem_cons_self nofun
  exact ⟨r, m, uses, vars, hrun, hcomplete, hm, hnode, ha, hfound, huses,
      hmem, hvars⟩

end Uninitialized

end Tabulation
