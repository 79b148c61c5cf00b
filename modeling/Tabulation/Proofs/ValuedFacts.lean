/-
Which facts have a value.

The value phase finds its way on its own: from the seeds to the call
sites of their procedures, through the call flows that were kept into
the callees that were met, and at last along the path edges. The first
phase put these path edges on record in another order, and callees may
have been met late. That both phases end up at the same facts has two
halves.

# No value too many

A call flow on record has its entries on record (`Filled`), and
everywhere else a value goes along a path edge. So whatever has a value
is the end of a path edge.

# No value too few

Whenever a path edge is stored, its source stands open at the start of
the procedure (`Opened`): a seed put it there, or a path edge at a call
did, whose own source stands open in turn. The reasons are all in the
tables, as the value phase will find them. Tables only grow, so none is
lost, and in the end a value passes along the chain of reasons to the
start and from there to the path edge.

# Plain reachability

Where all edges carry the identity and seeds carry the top, every value
is the top. So it makes no difference to the rows whether values are
computed (`solve_withValues`).
-/
import Tabulation.Proofs.GuardedJoins
import Tabulation.Proofs.JoinOverPaths
import Tabulation.Proofs.LateCallees
import Tabulation.Proofs.Paths
import Tabulation.Proofs.Solver.Settings
import Tabulation.Proofs.Solver.Settling

namespace Tabulation

variable {D W L : Type} [DecidableEq D]

namespace Solver

section Vocabulary

variable (S : Setup D W L)

/-- The facts that stand open at starts: those of the seeds, and those
that call flows on record bring to callees that are known, from a path
edge whose source stands open. -/
inductive Opened (s : State D W L) : Node → D → Prop
  | seed {seed : Seed D L} : seed ∈ s.seeds → Opened s seed.node seed.fact
  | call {c st start : Node} {g : Proc} {d₁ d : D} {ts : List (D × W)}
      {t : D × W} : Opened s st d₁ → (S.view s.graph).startOf? c = some st →
      Recorded s ⟨d₁, c, d⟩ → (S.view s.graph).isCall c = true →
      (c, g) ∈ s.known →
      (S.view s.graph).start? g = some start →
        s.callFlows.get? c (g, d) = some ts → t ∈ ts →
      Opened s start t.1

/-- The source of a path edge stands open at the start of its
procedure. -/
def RootedAt (s : State D W L) (e : PathEdge D) : Prop :=
  ∃ st, (S.view s.graph).startOf? e.node = some st ∧ Opened S s st e.source

/-- All path edges on record are of this kind. It is kept by the loop,
and what the value phase needs to find each of them. -/
def Rooted (s : State D W L) : Prop := ∀ e, Recorded s e → RootedAt S s e

end Vocabulary

variable {S : Setup D W L} {graph : FlowGraph} {s s' s₁ : State D W L}
variable {fuel : Nat}

-- ================================================================ openings

/-- A graph that has grown has its nodes in the same procedures, with
the same starts. -/
private theorem startOf?_grow {I J : Icfg} (h : I.GrowsTo J) (n : Node) :
    J.startOf? n = I.startOf? n := by
  unfold Icfg.startOf?
  rw [h.procOf?, h.start?]

/-- What stands open in some tables stands open in tables that hold
more. No clause asks for something to be absent. -/
theorem Opened.mono (s' : State D W L)
    (hview : (S.view s.graph).GrowsTo (S.view s'.graph))
    (hseeds : s'.seeds = s.seeds)
    (hrecorded : ∀ {e}, Recorded s e → Recorded s' e)
    (hknown : ∀ {k}, k ∈ s.known → k ∈ s'.known)
    (hflow : ∀ {c k ts}, s.callFlows.get? c k = some ts →
      s'.callFlows.get? c k = some ts) {n : Node} {d : D}
    (ho : Opened S s n d) : Opened S s' n d := by
  induction ho with
  | seed hseed => exact .seed (hseeds.symm ▸ hseed)
  | call _ hst he hcall hk hstart hts ht ih =>
    refine .call ih ?_ (hrecorded he) ?_ (hknown hk) ?_ (hflow hts) ht
    · rw [startOf?_grow hview]
      exact hst
    · rw [hview.isCall]
      exact hcall
    · rw [hview.start?]
      exact hstart

/-- A path edge stays rooted as tables grow. -/
theorem RootedAt.grow (h : Grows S s s') {e : PathEdge D}
    (he : RootedAt S s e) : RootedAt S s' e := by
  obtain ⟨st, hst, ho⟩ := he
  exact ⟨st, (startOf?_grow h.view e.node).trans hst,
    ho.mono s' h.view h.seeds h.recorded h.known h.callFlow⟩

/-- An edge inside a procedure leads to a node with the same start.
Returns count as such here, from the call to its return site. -/
theorem Crosses.startOf?_target (hwf : (S.view s.graph).WellFormed)
    {edge : FlowEdge} {d : D} {ts : List (D × W)} (hx : Crosses S s edge d ts)
    {n st : Node} (hn : Resumes edge n)
    (hst : (S.view s.graph).startOf? n = some st) :
    (S.view s.graph).startOf? edge.target = some st := by
  cases hn with
  | normal n m =>
    cases hx with
    | normal _ _ _ hm => exact hwf.startOf?_successor hst hm
  | pass c r =>
    cases hx with
    | pass _ _ hr => exact hwf.startOf?_returnSite hst hr
  | ret c g x r =>
    cases hx with
    | ret _ _ _ _ hr => exact hwf.startOf?_returnSite hst hr

/-- A path edge that there is reason to store has an open source.
Either the reason is a path edge with the same source, or the source is
one that was opened just there. -/
theorem Rooted.arises (hwf : (S.view s.graph).WellFormed) (hs : Rooted S s)
    {e : PathEdge D} (he : Arises S s e) : RootedAt S s e := by
  cases he with
  | within hx _ _ hbefore hresumes =>
    obtain ⟨st, hst, ho⟩ := hs _ hbefore
    exact ⟨st, hx.startOf?_target hwf hresumes hst, ho⟩
  | entry hx _ ht hknown hts =>
    obtain ⟨⟨source, hcaller⟩, henter, _⟩ := hx.exists_caller
    obtain ⟨st, hst, ho⟩ := hs _ hcaller
    exact ⟨_, hwf.startOf?_start henter.start,
      .call ho hst hcaller henter.isCall hknown henter.start hts ht⟩

/-- Seeds are open on their own account. -/
theorem Sown.rooted (hwf : (S.view graph).WellFormed) {seeds : List (Seed D L)}
    (hs : Sown S graph seeds s) : Rooted S s := by
  intro e he
  obtain ⟨seed, hseed, rfl⟩ := hs.recorded.mp he
  refine ⟨seed.node, ?_, .seed (hs.seeds_eq ▸ hseed)⟩
  rw [hs.graph_eq]
  exact Icfg.startOf?_of_isStart? (hs.atStart hwf.start_owned seed hseed)

variable [DecidableEq L]

/-- One move keeps path edges rooted. A new path edge has its reason in
the tables before, and these only grow. -/
theorem Rooted.stride (hsteady : S.IsSteady) (hwf : (S.view s.graph).WellFormed)
    (hs : Rooted S s) (h : Stride S s s') : Rooted S s' := by
  have hgrows := h.grows hsteady
  intro e he
  suffices h : Recorded s e ∨ Arises S s e by
    rcases h with hold | hnew
    · exact (hs e hold).grow hgrows
    · exact (hs.arises hwf hnew).grow hgrows
  cases h with
  | move hmove =>
    cases hmove with
    | serve edge d =>
      rw [served_eq] at he
      exact Or.inl he
    | store w _ harises =>
      rcases recorded_queued_iff.mp he with hold | rfl
      · exact Or.inl hold
      · exact Or.inr harises
    | raise hf _ _ =>
      rcases recorded_queued_iff.mp he with hold | rfl
      · exact Or.inl hold
      · exact Or.inl ⟨_, hf⟩
    | _ => exact Or.inl he
  | _ => exact Or.inl he

variable [DecidableEq W]

/-- Path edges are rooted at the end of the loop, by induction over its
moves. -/
private theorem rooted_of_tabulate (hsteady : S.IsSteady)
    (hwf : (S.view graph).WellFormed) {status : Status}
    (hbegin : begin S (State.start S graph) = .ok () s₁)
    (hloop : tabulate S fuel s₁ = .ok status s) : Rooted S s := by
  have hG : Guards S (S.view graph)
      (fun s => Kept S (S.view graph) s ∧ Rooted S s) fun _ => True := by
    refine guards_of_kept hsteady
      (fun hkept hs h => hs.stride hsteady (hwf.grow hkept.origin) h) ?_
    intro s hs pending seen iterations rescans e he
    obtain ⟨st, hst, ho⟩ := hs e he
    exact ⟨st, hst,
      ho.mono (relisted s pending seen iterations rescans)
        (.refl (S.view s.graph)) rfl id id id⟩
  have hsown := (sown_of_begin hbegin).1
  exact ((hG.tabulate trivial fuel ⟨hsown.kept, hsown.rooted hwf⟩).of_ok
      hloop).2

-- =========================================================== no value too few

omit [DecidableEq L] [DecidableEq W] in
/-- What stands open at a start has a value there once values have
settled. The induction is on the reasons for standing open: a seed has
its value, and a value at a start goes to the call and from there to
the callee. -/
theorem Opened.settled (hwf : (S.view s.graph).WellFormed)
    {P : Node → D → L → Prop} {le : L → L → Prop}
    {settled values : Grid Node D L}
    (hcomputed : Values.Computed S s le P settled values) {st : Node} {d : D}
    (ho : Opened S s st d) : ∃ v, settled.get? st d = some v := by
  induction ho with
  | seed hseed =>
    obtain ⟨v, hv, _⟩ := hcomputed.seed _ hseed
    exact ⟨v, hv⟩
  | @call c st start g d₁ d ts t _ hst he hcall hknown hstart hts ht ih =>
    obtain ⟨v, hv⟩ := ih
    obtain ⟨w, hw⟩ := he
    obtain ⟨p, hp, hp'⟩ := Icfg.startOf?_eq_some.mp hst
    have hisStart : (S.view s.graph).isStart? st = some true := by
      unfold Icfg.isStart?
      rw [hwf.start_owned hp', Option.map_some, hp', decide_eq_true rfl]
    obtain ⟨u, hu, _⟩ := (hcomputed.carried hv).toCall hisStart
      (hwf.start_owned hp') (hwf.call_listed hp hcall) hw
    have ht : (t.1, t.2) ∈ s.callFlows.getD c (g, d) [] := by
      rw [Grid.getD, hts, Option.getD_some]
      exact ht
    obtain ⟨u', hu', _⟩ := (hcomputed.carried hu).toCallee hcall
      hknown hstart ht
    exact ⟨u', hu'⟩

omit [DecidableEq L] [DecidableEq W] in
/-- So the end of every path edge on record has a value after the last
sweep. -/
theorem Rooted.exists_value (hwf : (S.view s.graph).WellFormed)
    (hs : Rooted S s) {P : Node → D → L → Prop} {le : L → L → Prop}
    {settled values : Grid Node D L}
    (hcomputed : Values.Computed S s le P settled values) {e : PathEdge D}
    (he : Recorded s e) : ∃ v, values.get? e.node e.target = some v := by
  obtain ⟨st, hst, ho⟩ := hs e he
  obtain ⟨v, hv⟩ := ho.settled hwf hcomputed
  obtain ⟨p, hp, hp'⟩ := Icfg.startOf?_eq_some.mp hst
  obtain ⟨w, hw⟩ := he
  obtain ⟨u, hu, _⟩ := hcomputed.along hv hp hp' hw
  exact ⟨u, hu⟩

-- ========================================================== no value too many

omit [DecidableEq L] [DecidableEq W] in
/-- From tables that are ready, values only come to where path
edges end. -/
theorem Ready.isBacking (hs : Ready S s) :
    Values.IsBacking S s fun n d _ => ∃ source, Recorded s ⟨source, n, d⟩ where
  seed := fun seed hseed => ⟨seed.fact, hs.seed seed hseed⟩
  join := fun h _ => h
  toCall := fun _ _ _ _ hw => ⟨_, _, hw⟩
  toCallee := by
    intro n d v g st e w _ _ _ hst ht
    cases hget : s.callFlows.get? n (g, d) with
    | none =>
      rw [Grid.getD, hget] at ht
      exact absurd ht List.not_mem_nil
    | some ts =>
      rw [Grid.getD, hget] at ht
      exact ⟨e, hs.filled n g d ts st hget hst (e, w) ht⟩
  along := fun _ _ _ hw => ⟨_, _, hw⟩

-- ================================================================ both halves

/-- After a complete loop, the value phase gives a value to exactly the
ends of path edges. Both halves are about the tables that the loop has
left. -/
theorem valued_iff_recorded (hsteady : S.IsSteady)
    (hwf : (S.view graph).WellFormed) (hvalues : S.config.computeValues = true)
    (hbegin : begin S (State.start S graph) = .ok () s₁)
    (hloop : tabulate S fuel s₁ = .ok .complete s) {fuel' : Nat}
    {values? : Option (Grid Node D L)}
    (hphase : valuePhase S fuel' .complete s = .ok values? s') :
    ∃ values, values? = some values ∧
      ∀ n d, (∃ v, values.get? n d = some v) ↔
      ∃ source, Recorded s ⟨source, n, d⟩ := by
  have hsown := (sown_of_begin hbegin).1
  obtain ⟨hkept, hready⟩ :=
    (ensures_ready hsteady fuel hsown.kept hsown.ready).of_ok hloop
  obtain ⟨settled, values, hsome, hcomputed⟩ :=
    computed_of_valuePhase hvalues ValueLattice.isJoinOrder_trivial
      hready.isBacking.toIsSettling hready.isBacking.isSpreading hphase
  refine ⟨values, hsome, fun n d => ⟨fun h => ?_, fun h => ?_⟩⟩
  · obtain ⟨v, hv⟩ := h
    exact hcomputed.backed hv
  · obtain ⟨source, he⟩ := h
    have hrooted := rooted_of_tabulate hsteady hwf hbegin hloop
    exact hrooted.exists_value (hwf.grow hkept.origin) hcomputed he

/-- Where that is so, the report gives out the values as they are. It
lists the ends of path edges, and none of them is without a value. -/
theorem Completed.value?_eq_get? {r : Results D L} {values : Grid Node D L}
    (h : Completed S fuel graph r s₁ s (some values))
    (hvalued : ∀ n d, (∃ v, values.get? n d = some v) ↔
      ∃ source, Recorded s ⟨source, n, d⟩) (n : Node) (d : D) :
    r.value? n d = values.get? n d := by
  have hreported : reportedValue S (some values) n d =
      (values.get? n d).getD S.problem.lattice.bottom := rfl
  cases hget : values.get? n d with
  | some v =>
    refine h.value?_eq_some.mpr ⟨(hvalued n d).mp ⟨v, hget⟩, ?_⟩
    rw [hreported, hget, Option.getD_some]
  | none =>
    rw [Option.eq_none_iff_forall_ne_some]
    intro v hv
    obtain ⟨u, hu⟩ := (hvalued n d).mpr (h.value?_eq_some.mp hv).1
    rw [hget] at hu
    cases hu

end Solver

-- ======================================================== plain reachability

namespace ReachabilityProblem

open Solver Supergraph

variable (R : ReachabilityProblem D) (config : Config) (view : FlowGraph → Icfg)
variable (world : World)

/-- A reachability problem set up to run, with values or without.
Nothing else in the configuration tells the two apart. -/
def setup (values : Bool) : Setup D BinaryEdge Binary :=
  { problem := R.toProblem, config := { config with computeValues := values },
    view, world }

variable {R config view world} {values : Bool} {graph : FlowGraph}
variable {s s' s₁ : State D BinaryEdge Binary} {fuel : Nat} {status : Status}

/-- Whatever a flow function answers, its targets are weighed by the
identity: those of the answer, and zero where it is added. -/
private theorem identity_of_mem_targets (answer : Except Fault (List D)) {d : D}
    {t : D × BinaryEdge} (ht : t ∈ (R.setup config view world values).targets d
      (answer.map fun facts => FlowFunction.withWeight facts .identity)) :
    t.2 = .identity := by
  refine Setup.weight_of_mem_targets (Q := (· = BinaryEdge.identity)) rfl ?_
    (fun l hl u hu => ?_) t ht
  · rintro _ _ rfl rfl
    rfl
  · cases answer with
    | error fault => cases hl
    | ok facts =>
      cases hl
      obtain ⟨_, _, rfl⟩ := List.mem_map.mp hu
      rfl

/-- The same at an edge inside a procedure. -/
private theorem identity_of_mem_normalTargets {n m : Node} {d : D}
    {t : D × BinaryEdge}
    (ht : t ∈ (R.setup config view world values).normalTargets n m d) :
    t.2 = .identity := by
  unfold Setup.normalTargets at ht
  split at ht
  · exact identity_of_mem_targets (.ok [d]) ht
  · exact identity_of_mem_targets _ ht
  · exact absurd ht List.not_mem_nil

/-- Every jump function is the identity, as it is composed of
identities. -/
private theorem identity_of_derivable {I : Icfg} {e : PathEdge D}
    {f : BinaryEdge} (h : Derivable (R.setup config view world values) I e f) :
    f = .identity := by
  refine h.weight (Q := (· = BinaryEdge.identity)) rfl ?_ ?_
    identity_of_mem_normalTargets (identity_of_mem_targets _)
    (identity_of_mem_targets _) (identity_of_mem_targets _)
  · rintro _ _ rfl rfl
    rfl
  · rintro _ _ rfl rfl
    rfl

/-- Every value is the top: seeds carry it, and identities hand it on. -/
private theorem isBacking_top {I : Icfg}
    (hs : Sound (R.setup config view world values) I s)
    (hseeds : s.seeds = (R.setup config view world values).seedsOn I) :
    Values.IsBacking (R.setup config view world values) s fun _ _ v =>
      v = .top where
  seed := by
    intro seed hseed
    rw [hseeds] at hseed
    rcases List.mem_append.mp hseed with hseed | hseed
    · obtain ⟨_, _, rfl⟩ := List.mem_map.mp hseed
      rfl
    · obtain ⟨_, _, rfl⟩ := List.mem_map.mp hseed
      rfl
  join := by
    rintro _ _ _ _ rfl rfl
    rfl
  toCall := by
    rintro _ _ _ _ _ _ w rfl _ _ _ hw
    rw [identity_of_derivable (hs.jump hw)]
    rfl
  toCallee := by
    rintro n d _ g _ e w rfl _ _ _ ht
    cases hget : s.callFlows.get? n (g, d) with
    | none =>
      rw [Grid.getD, hget] at ht
      exact absurd ht List.not_mem_nil
    | some ts =>
      rw [Grid.getD, hget] at ht
      obtain ⟨start, _, rfl⟩ := hs.callFlow hget
      have hw : w = .identity := identity_of_mem_targets _ (t := (e, w)) ht
      rw [hw]
      rfl
  along := by
    rintro _ _ _ _ _ _ w rfl _ _ hw
    rw [identity_of_derivable (hs.jump hw)]
    rfl

section Runs

variable (hsteady : (R.setup config view world values).IsSteady)
variable (hwf : (view graph).WellFormed)
variable (hbegin : begin (R.setup config view world values)
    (State.start (R.setup config view world values) graph) = .ok () s₁)
variable (hloop : tabulate (R.setup config view world values) fuel s₁ =
    .ok status s)

include hsteady hwf hbegin hloop

/-- What is reached is reported with the top, whether values are
computed or not. If they are, the value is the top; if not, the top is
reported in its place. -/
private theorem reportedValue_eq_top {fuel' : Nat}
    {values? : Option (Grid Node D Binary)}
    (hphase : valuePhase (R.setup config view world values) fuel' status s =
      .ok values? s') {source d : D} {n : Node}
    (he : Recorded s ⟨source, n, d⟩) :
    reportedValue (R.setup config view world values) values? n d = .top := by
  by_cases hgo : status = .complete ∧ values = true
  · obtain ⟨rfl, rfl⟩ := hgo
    have hs := finished_of_tabulate isGrowthOrder_trivial hsteady
      hwf.start_owned (fun _ _ => False) hbegin (fun h => absurd h id) hloop
    have htop := isBacking_top hs.sound hs.seeds_eq
    obtain ⟨_, found, hfound, hcomputed⟩ := computed_of_valuePhase rfl
      ValueLattice.isJoinOrder_trivial htop.toIsSettling htop.isSpreading hphase
    obtain ⟨_, hfound', hvalued⟩ :=
      valued_iff_recorded hsteady hwf rfl hbegin hloop hphase
    cases hfound.symm.trans hfound'
    obtain ⟨v, hv⟩ := (hvalued n d).mpr ⟨source, he⟩
    rw [hfound]
    show (found.get? n d).getD _ = _
    rw [hv, Option.getD_some]
    exact hcomputed.backed hv
  · have hoff : status = .complete →
        (R.setup config view world values).config.computeValues = false :=
      fun hcomplete => Bool.eq_false_iff.mpr fun hon => hgo ⟨hcomplete, hon⟩
    rw [eq_none_of_valuePhase hoff hphase]
    rfl

end Runs

/-- The rows of a run hold the facts reached, all with the top. They
depend on the table of jump functions alone. -/
private theorem rows_of_solve
    (hsteady : (R.setup config view world values).IsSteady)
    (hwf : (view graph).WellFormed) {r : Results D Binary}
    (hrun : (solve (R.setup config view world values) fuel graph).1 = .ok r) :
    ∃ s₁ s status, begin (R.setup config view world values)
        (State.start (R.setup config view world values) graph) = .ok () s₁ ∧
      tabulate (R.setup config view world values) fuel s₁ = .ok status s ∧
      Results.assembleRows (view s.graph) (fun _ _ => Binary.top) s.jumps =
        .ok r.rows ∧ ∀ n d v, r.value? n d = some v → v = .top := by
  obtain ⟨s₁, s, s₃, status, values?, hbegin, hloop, hphase, hreport, _⟩ :=
    parts_of_solve hrun
  have htop : ∀ {source d n}, Recorded s ⟨source, n, d⟩ →
      reportedValue (R.setup config view world values) values? n d = .top :=
    fun he => reportedValue_eq_top hsteady hwf hbegin hloop hphase he
  obtain ⟨_, rfl⟩ := eq_of_valuePhase hphase
  refine ⟨s₁, s, status, hbegin, hloop, ?_, fun n d v hv => ?_⟩
  · refine Eq.trans (assembleRows_congr fun n d h => ?_)
      (eq_of_report hreport).1
    obtain ⟨source, w, hw⟩ := h
    exact (htop ⟨w, hw⟩).symm
  · obtain ⟨⟨source, w, hw⟩, rfl⟩ := (value?_of_report hreport n d v).mp hv
    exact htop ⟨w, hw⟩

/-- If there are results with values or without, there are results the
other way. The loop is the same, and the value phase after it comes to
an end. -/
private theorem exists_solve
    (hsteady : (R.setup config view world values).IsSteady)
    (hwf : (view graph).WellFormed) {r : Results D Binary}
    (hrun : (solve (R.setup config view world values) fuel graph).1 = .ok r)
    (values' : Bool) :
    ∃ fuel r, (solve (R.setup config view world values') fuel graph).1 =
      .ok r := by
  obtain ⟨s₁, s, status, hbegin, hloop, hrows, _⟩ :=
    rows_of_solve hsteady hwf hrun
  have howned : ∀ {n}, n ∈ s.jumps.rows.keys → Owned (view s.graph) n :=
    fun hn => owned_of_assembleRows hrows hn
  have hsown := (sown_of_begin hbegin).1
  obtain ⟨_, hready⟩ :=
    (ensures_ready hsteady fuel hsown.kept hsown.ready).of_ok hloop
  have hbinary : ∀ v : Binary, v ∈ [Binary.bottom, Binary.top] := by
    intro v
    cases v <;> simp
  obtain ⟨enough, hends, hmore⟩ :=
    halts_valuePhase (S := R.setup config view world values') (fun {e} he => by
      obtain ⟨w, hw⟩ := he
      exact howned (State.mem_rows_of_jump? hw))
    ⟨hready.seed, hready.filled⟩ Binary.isSemilattice
    (ValueLattice.isRank_height Binary.isSemilattice hbinary) status
  cases hphase : valuePhase (R.setup config view world values') enough
    status s with
  | error failure s' => exact absurd (hends.of_error hphase) id
  | ok found s' =>
    obtain ⟨hgraph, hjumps⟩ := hends.of_ok hphase
    -- on the larger amount of fuel, both the loop and the value phase
    -- are over
    have hphase' := (hmore _ (Nat.le_max_right fuel enough)).trans hphase
    have hloop' : tabulate (R.setup config view world values') (max fuel enough)
        s₁ = .ok status s :=
      tabulate_mono
        ((congrFun (tabulate_tuned (S := R.setup config view world values)
        values' fuel) s₁).symm.trans hloop) (Nat.le_max_left fuel enough)
    obtain ⟨r', hreport⟩ :=
      exists_report (S := R.setup config view world values') (s := s')
      (fun n hn => by
        rw [hjumps] at hn
        show Owned (view s'.graph) n
        rw [hgraph]
        exact howned hn) status found
    refine ⟨max fuel enough, r', ?_⟩
    rw [solve_of_parts (S := R.setup config view world values') hbegin hloop'
        hphase' hreport]

/-- Rows do not depend on whether values are computed, nor on the fuel.
On the larger of two amounts of fuel, both runs go through the same
loop. -/
private theorem rows_eq (hsteady : (R.setup config view world values).IsSteady)
    (hwf : (view graph).WellFormed) {values' : Bool} {fuel' : Nat}
    {r r' : Results D Binary}
    (hrun : (solve (R.setup config view world values) fuel graph).1 = .ok r)
    (hrun' :
      (solve (R.setup config view world values') fuel' graph).1 = .ok r') :
    r.rows = r'.rows := by
  obtain ⟨s₁, s, status, hbegin, hloop, hrows, _⟩ :=
    rows_of_solve hsteady hwf hrun
  have hsteady' : (R.setup config view world values').IsSteady := hsteady
  obtain ⟨s₁', s', status', hbegin', hloop', hrows', _⟩ :=
    rows_of_solve hsteady' hwf hrun'
  have hsame : begin (R.setup config view world values)
      (State.start (R.setup config view world values) graph) = .ok () s₁' :=
        hbegin'
  rw [hbegin] at hsame
  cases hsame
  have hlong := tabulate_mono hloop (Nat.le_max_left fuel fuel')
  have hlong' := tabulate_mono hloop' (Nat.le_max_right fuel fuel')
  have hsame : tabulate (R.setup config view world values) (max fuel fuel') s₁ =
      .ok status' s' :=
    (congrFun (tabulate_tuned (S := R.setup config view world values) values'
      (max fuel fuel')) s₁).trans hlong'
  rw [hlong] at hsame
  cases hsame
  rw [hrows] at hrows'
  exact Except.ok.inj hrows'

end ReachabilityProblem

namespace Solver

/-- The value phase gives a value to the facts that were reached and to
no others, and the report gives these out. So for a reachability
problem, the rows are the same with values and without. -/
theorem valued_exactly_at_reached {D : Type} [DecidableEq D]
    (graph : FlowGraph) :
    (∀ {W L : Type} [DecidableEq W] [DecidableEq L] (S : Setup D W L)
      (fuel : Nat) (r : Results D L), S.IsSteady → (S.view graph).WellFormed →
      S.config.computeValues = true → (solve S fuel graph).1 = .ok r →
      r.status = .complete → ∃ s₁ s values, Completed S fuel graph r s₁ s
        (some values) ∧
        (∀ n d, (∃ v, values.get? n d = some v) ↔
          ∃ source, Recorded s ⟨source, n, d⟩) ∧
        ∀ n d, r.value? n d = values.get? n d) ∧
    ∀ (R : ReachabilityProblem D) (config : Config) (view : FlowGraph → Icfg)
      (world : World), (R.setup config view world true).IsSteady →
      (view graph).WellFormed →
      (∀ fuel fuel' r r',
        (solve (R.setup config view world true) fuel graph).1 = .ok r →
        (solve (R.setup config view world false) fuel' graph).1 = .ok r' →
        r.rows = r'.rows ∧ ∀ n d v, r.value? n d = some v → v = .top) ∧
      ((∃ fuel r, (solve (R.setup config view world true) fuel graph).1 =
        .ok r) ↔ ∃ fuel r,
        (solve (R.setup config view world false) fuel graph).1 = .ok r) := by
  constructor
  · intro W L _ _ S fuel r hsteady hwf hvalues hrun hcomplete
    obtain ⟨s₁, s, values?, hdone⟩ := completed_of_solve hrun hcomplete
    obtain ⟨_, hphase⟩ := hdone.valued
    obtain ⟨values, rfl, hvalued⟩ :=
      valued_iff_recorded hsteady hwf hvalues hdone.begun hdone.looped hphase
    exact ⟨s₁, s, values, hdone, hvalued, hdone.value?_eq_get? hvalued⟩
  · intro R config view world hsteady hwf
    have hsteady' : (R.setup config view world false).IsSteady := hsteady
    refine ⟨fun fuel fuel' r r' hrun hrun' => ⟨?_, ?_⟩, fun h => ?_,
        fun h => ?_⟩
    · exact R.rows_eq hsteady hwf hrun hrun'
    · obtain ⟨_, _, _, _, _, _, htop⟩ := R.rows_of_solve hsteady hwf hrun
      exact htop
    · obtain ⟨fuel, r, hrun⟩ := h
      exact R.exists_solve hsteady hwf hrun false
    · obtain ⟨fuel, r, hrun⟩ := h
      exact R.exists_solve hsteady' hwf hrun true

/-- The uninitialized variables of `lateTarget` as a reachability
problem, with the target asked for on the way. -/
def lateReachability : ReachabilityProblem LocalFact :=
  { Uninitialized.problem lateTarget.build [⟨0⟩] with
    requests := fun _ edge _ => Trigger.fired [⟨⟨2⟩, .resolve ⟨3⟩ ⟨1⟩⟩] edge }

/-- Zero misses the target that came up late, and has no value there.
The parameter has one. -/
theorem valued_exactly_at_reached_lateTarget :
    ∃ r r' s₁ s values,
      (solve (lateReachability.setup {} FlowGraph.icfg {} true) 100
        lateTarget.build.graph).1 = .ok r ∧
      r.status = .complete ∧
      (solve (lateReachability.setup {} FlowGraph.icfg {} false) 100
        lateTarget.build.graph).1 = .ok r' ∧
      Completed (lateReachability.setup {} FlowGraph.icfg {} true) 100
        lateTarget.build.graph r s₁ s (some values) ∧
      values.get? ⟨4⟩ (.var "p") = some .top ∧ values.get? ⟨4⟩ .zero = none ∧
      r.rows = r'.rows := by
  have hlaid : lateTarget.build.IsLaidOut :=
    Draft.isLaidOut_build (Draft.isNumbered_ofSteps _)
      (by unfold Draft.IsScoped; decide)
  have heval : (solve (lateReachability.setup {} FlowGraph.icfg {} true) 100
      lateTarget.build.graph).1.toOption.map
      (fun r => (r.status, r.value? ⟨4⟩ (.var "p"), r.value? ⟨4⟩ .zero)) =
        some (.complete, some .top, none) := by decide +kernel
  have heval' :
      (solve (lateReachability.setup {} FlowGraph.icfg {} false) 100
      lateTarget.build.graph).1.toOption.map Results.status =
      some .complete := by decide +kernel
  obtain ⟨r, hrun, hr⟩ := exists_ok_of_map heval
  obtain ⟨r', hrun', _⟩ := exists_ok_of_map heval'
  simp only [Prod.mk.injEq] at hr
  obtain ⟨hcomplete, hp, hzero⟩ := hr
  have hsteady : (lateReachability.setup {} FlowGraph.icfg {} true).IsSteady :=
    Setup.isSteady_of_view_eq rfl
  obtain ⟨hvalued, hplain⟩ :=
    valued_exactly_at_reached (D := LocalFact) lateTarget.build.graph
  obtain ⟨s₁, s, values, hdone, _, heq⟩ :=
    hvalued _ 100 r hsteady hlaid.wellFormed rfl hrun hcomplete
  obtain ⟨hrows, _⟩ := hplain lateReachability {} FlowGraph.icfg {} hsteady
    hlaid.wellFormed
  refine ⟨r, r', s₁, s, values, hrun, hcomplete, hrun', hdone, ?_, ?_, ?_⟩
  · rw [← heq, hp]
  · rw [← heq, hzero]
  · exact (hrows 100 100 r r' hrun hrun').1

end Solver

end Tabulation
