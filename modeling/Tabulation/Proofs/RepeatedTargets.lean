/-
Facts that an answer repeats.

A flow function may list a fact more than once, each time with an edge
function. Before anything else is done with the answer, the repetitions
are merged: their edge functions are joined, in the order in which they
were listed, and the fact goes on with what comes out
(`Setup.mem_effective_iff`).

# No probe

When a jump function is joined to the one on record, the join is probed
if the settings ask for it, and a run that goes on has lost nothing
(`GuardedJoins`). The joins of repetitions are not probed. A problem
may bring a join that is above neither side, and then what it answered
for a fact can be lost without a trace; the run does not fail.

# What is left

The evaluation of a flow always returns. If the joins of the
repetitions would have passed the probe, the fact goes on with an edge
function above all that were answered for it; this is so in particular
for a fact that is listed once. In a complete run under the check these
answers are found at their targets, whatever the join does elsewhere
(`CoversAnswers`).
-/
import Tabulation.Proofs.GuardedJoins

namespace Tabulation

variable {D W L : Type} [DecidableEq D]

namespace Setup

variable {S : Setup D W L}

-- ================================================================== merging

/-- Only zero from zero is weighed anew, so the answers for any other
fact stay as they were. -/
private theorem answeredFor_targetWeight {source e : D} {answer : List (D × W)}
    (hproper : ¬(source = S.problem.zero ∧ e = S.problem.zero)) :
    answeredFor e (answer.map (S.targetWeight source)) =
      answeredFor e answer := by
  unfold answeredFor
  rw [List.filter_map, List.map_map]
  refine List.map_congr_left fun t ht => ?_
  have he : t.1 = e := of_decide_eq_true (List.mem_filter.mp ht).2
  show (if source = S.problem.zero ∧
      t.1 = S.problem.zero then S.identity else t.2) = t.2
  rw [he, if_neg hproper]

/-- A fact goes on with the join of the edge functions that were
answered for it, and with nothing else. The joins are made from the
left, in the order of the answer. -/
private theorem mem_effective_iff {source e : D} {answer : List (D × W)}
    {v w : W} {vs : List W}
    (hproper : ¬(source = S.problem.zero ∧ e = S.problem.zero))
    (h : answeredFor e answer = v :: vs) :
    (e, w) ∈ S.effective source answer ↔
    w = vs.foldl S.problem.functions.join v := by
  have hmerged : (e, w) ∈ (answer.map (S.targetWeight source)).foldl
      S.mergeTarget [] ↔ w = vs.foldl S.problem.functions.join v := by
    rw [mem_merged, answeredFor_targetWeight hproper, h]
    constructor
    · rintro ⟨_, _, heq, rfl⟩
      cases heq
      rfl
    · exact fun hw => ⟨v, vs, rfl, hw.symm⟩
  unfold effective
  dsimp only
  split
  next hadd =>
    -- zero is added behind, and it is another fact
    have hne : (e, w) ≠ (S.problem.zero, S.identity) :=
      fun heq => hproper ⟨hadd.2.1, congrArg Prod.fst heq⟩
    rw [List.mem_append, List.mem_singleton, or_iff_left hne, hmerged]
  next => exact hmerged

-- ================================================================== probing

variable [DecidableEq L]

variable (S) in
/-- Joined one after the other to the first, edge functions pass the
probe each time. -/
inductive Passes : W → List W → Prop
  | nil (v : W) : Passes v []
  | cons {v w : W} {ws : List W} :
      S.isUpperBound (S.problem.functions.join v w) v w = true →
      Passes (S.problem.functions.join v w) ws → Passes v (w :: ws)

omit [DecidableEq D] in
/-- Probed on all values, an edge function passes if and only if it is
above. -/
private theorem isUpperBound_iff_pointwise
    (hsamples : ∀ v, v ∈ S.problem.samples) {w u : W} :
    S.isUpperBound w u u = true ↔ S.Pointwise u w := by
  refine ⟨fun h => (pointwise_of_isUpperBound hsamples h).1, fun h => ?_⟩
  refine List.all_eq_true.mpr fun v _ => ?_
  exact (Bool.and_eq_true _ _).mpr ⟨h v, h v⟩

omit [DecidableEq D] in
/-- What passes the probe each time ends above all that was joined. By
induction on the rest: the join so far is above what went into it, and
stays below the end. -/
private theorem pointwise_of_passes (hlat : S.problem.lattice.IsSemilattice)
    (hsamples : ∀ v, v ∈ S.problem.samples) {v : W} {vs : List W}
    (h : S.Passes v vs) :
    ∀ u ∈ v :: vs, S.Pointwise u (vs.foldl S.problem.functions.join v) := by
  induction h with
  | nil v =>
    intro u hu x
    rw [List.mem_singleton.mp hu]
    exact hlat.leq_refl _
  | cons hprobe _ ih =>
    obtain ⟨hv, hw⟩ := pointwise_of_isUpperBound hsamples hprobe
    have hjoined := ih _ List.mem_cons_self
    intro u hu
    rcases List.mem_cons.mp hu with rfl | hu
    · exact fun x => hlat.leq_trans (hv x) (hjoined x)
    rcases List.mem_cons.mp hu with rfl | hu
    · exact fun x => hlat.leq_trans (hw x) (hjoined x)
    · exact ih u (List.mem_cons_of_mem _ hu)

variable (S) in
/-- A target was answered, other than zero from zero, and the edge
functions answered for its fact would have passed the probe. -/
structure Keeps (d : D) (answer : List (D × W)) (t : D × W) : Prop where
  mem : t ∈ answer
  proper : ¬(d = S.problem.zero ∧ t.1 = S.problem.zero)
  passes : ∀ {v vs}, answeredFor t.1 answer = v :: vs → S.Passes v vs

/-- A fact that was answered has a first edge function answered for it. -/
private theorem exists_answeredFor {e : D} {answer : List (D × W)}
    (h : e ∈ answer.map Prod.fst) : ∃ v vs, answeredFor e answer = v :: vs := by
  obtain ⟨t, ht, rfl⟩ := List.mem_map.mp h
  cases hanswered : answeredFor t.1 answer with
  | nil =>
    have hmem : t.2 ∈ answeredFor t.1 answer := mem_answeredFor.mpr ht
    rw [hanswered] at hmem
    exact absurd hmem List.not_mem_nil
  | cons v vs => exact ⟨v, vs, rfl⟩

/-- Such a target goes on with an edge function above its own. Nothing
that was answered for its fact is lost by merging. -/
theorem Keeps.exists_above (hlat : S.problem.lattice.IsSemilattice)
    (hsamples : ∀ v, v ∈ S.problem.samples) {d : D} {answer : List (D × W)}
    {t : D × W} (h : S.Keeps d answer t) :
    ∃ w, (t.1, w) ∈ S.effective d answer ∧ S.Pointwise t.2 w := by
  obtain ⟨v, vs, hanswered⟩ := exists_answeredFor (List.mem_map_of_mem h.mem)
  have hmem : t.2 ∈ v :: vs := hanswered ▸ mem_answeredFor.mpr h.mem
  exact ⟨_, (mem_effective_iff h.proper hanswered).mpr rfl,
    pointwise_of_passes hlat hsamples (h.passes hanswered) _ hmem⟩

end Setup

-- ===================================================================== runs

namespace Solver

variable {S : Setup D W L} {graph : FlowGraph} {s : State D W L}

/-- The evaluation of a flow that is answered returns what the answer
is taken to yield. There is no way for it to fail, as merging does not
probe. -/
private theorem evaluate_ok (edge : FlowEdge) (d : D) (answer : List (D × W))
    (s : State D W L) :
    evaluate S edge d (.ok answer) s = .ok (S.effective d answer)
      (logged S (served S s edge d) edge d (answer.map Prod.fst)
        (S.effective d answer)) := by
  unfold logged
  cases hrecord : S.config.recordEdges with
  | true =>
    show (if S.config.recordEdges = true then _ else _ :
        SolverM D W L (List (D × W))) _ = _
    rw [if_pos hrecord]
    rfl
  | false =>
    show (if S.config.recordEdges = true then _ else _ :
        SolverM D W L (List (D × W))) _ = _
    rw [hrecord]
    rfl

variable [DecidableEq L]

/-- What covers an edge function covers all that are below it. -/
theorem Covers.weaken (hlat : S.problem.lattice.IsSemilattice) {e : PathEdge D}
    {u w : W} {f : L → L} (h : Covers S s e (S.problem.functions.eval w ∘ f))
    (hle : S.Pointwise u w) :
    Covers S s e (S.problem.functions.eval u ∘ f) := by
  obtain ⟨f', hf', habove⟩ := h
  exact ⟨f', hf', fun v => hlat.leq_trans (hle (f v)) (habove v)⟩

variable (S) in
/-- What is answered, and kept when it is merged, is covered at its
target. -/
structure CoversAnswers (I : Icfg) (s : State D W L) : Prop where
  normal : ∀ {e f m answer t}, s.jump? e = some f → I.isCall e.node = false →
    I.isExit? e.node = some false → m ∈ I.successors e.node →
    S.problem.isIdentityAt e.node = .ok false →
    S.problem.flow (.normal e.node m) e.target = .ok answer →
      S.Keeps e.target answer t →
    Covers S s ⟨e.source, m, t.1⟩
      (S.problem.functions.eval t.2 ∘ S.problem.functions.eval f)
  pass : ∀ {e f r answer t}, s.jump? e = some f → I.isCall e.node = true →
    I.returnSite? e.node = some r →
    S.problem.flow (.callToReturn e.node r) e.target = .ok answer →
      S.Keeps e.target answer t →
    Covers S s ⟨e.source, r, t.1⟩
      (S.problem.functions.eval t.2 ∘ S.problem.functions.eval f)
  through : ∀ {e f g start d w x b h r answer t}, s.jump? e = some f →
    I.Enters e.node g start → (d, w) ∈ S.callTargets e.node g start e.target →
    s.summaries.get? ⟨g, d, x, b⟩ = some h → I.returnSite? e.node = some r →
    S.problem.returnFlow (.ret e.node g x r) b e.target = .ok answer →
      S.Keeps b answer t →
    Covers S s ⟨e.source, r, t.1⟩
      (S.problem.functions.eval t.2 ∘ S.problem.functions.eval h ∘
        S.problem.functions.eval w ∘ S.problem.functions.eval f)

/-- Where targets are covered, so are answers that are kept. One clause
each, by a target above the answer. -/
theorem Covering.answers (hlat : S.problem.lattice.IsSemilattice)
    (hsamples : ∀ v, v ∈ S.problem.samples) {I : Icfg} (h : Covering S I s) :
    CoversAnswers S I s where
  normal := by
    intro e f m answer t hf hcall hexit hm hident hflow hkeeps
    obtain ⟨w, hw, hle⟩ := hkeeps.exists_above hlat hsamples
    refine (h.normal hf hcall hexit hm ?_).weaken hlat hle
    unfold Setup.normalTargets
    rw [hident, hflow]
    exact hw
  pass := by
    intro e f r answer t hf hcall hr hflow hkeeps
    obtain ⟨w, hw, hle⟩ := hkeeps.exists_above hlat hsamples
    refine (h.pass hf hcall hr ?_).weaken hlat hle
    unfold Setup.passTargets
    rw [hflow]
    exact hw
  through := by
    intro e f g start d w x b k r answer t hf henter hd hk hr hflow hkeeps
    obtain ⟨u, hu, hle⟩ := hkeeps.exists_above hlat hsamples
    refine (h.through hf henter hd hk hr ?_).weaken hlat hle
    unfold Setup.returnTargets
    rw [hflow]
    exact hu

-- ============================================================== the theorem

variable [DecidableEq W]

/-- The evaluation of a flow returns whatever is answered, and a fact
goes on with the join of the edge functions answered for it. That is
above all of them if and only if it passes the probe against each, and
in particular if each of the joins passes. In a complete run under the
check, what is answered for a fact whose joins pass is covered at its
target. -/
theorem answers_kept_where_merges_pass (hlat : S.problem.lattice.IsSemilattice)
    (hsamples : ∀ v, v ∈ S.problem.samples) :
    (∀ edge d answer s, ∃ ts s', evaluate S edge d (.ok answer) s = .ok ts s' ∧
      ∀ e ∈ answer.map Prod.fst, ¬(d = S.problem.zero ∧ e = S.problem.zero) →
        ∃ v vs, answeredFor e answer = v :: vs ∧
          (∀ w, (e, w) ∈ ts ↔ w = vs.foldl S.problem.functions.join v) ∧
          ((∀ u, (e, u) ∈ answer →
            S.Pointwise u (vs.foldl S.problem.functions.join v)) ↔
            ∀ u, (e, u) ∈ answer →
              S.isUpperBound (vs.foldl S.problem.functions.join v) u u = true) ∧
          (S.Passes v vs →
            ∀ u, (e, u) ∈ answer →
            S.Pointwise u (vs.foldl S.problem.functions.join v))) ∧
    ∀ {graph fuel r}, (S.view graph).WellFormed → S.problem.IsPure →
      S.problem.functions.IsExact → S.config.checkMonotonicity = true →
      (solve S fuel graph).1 = .ok r → r.status = .complete →
      ∃ s₁ s values, Completed S fuel graph r s₁ s values ∧
      CoversAnswers S (S.view graph) s := by
  constructor
  · intro edge d answer s
    refine ⟨_, _, evaluate_ok edge d answer s, fun e he hproper => ?_⟩
    obtain ⟨v, vs, hanswered⟩ := Setup.exists_answeredFor he
    refine ⟨v, vs, hanswered,
        fun w => Setup.mem_effective_iff hproper hanswered, ?_, ?_⟩
    · exact forall₂_congr fun u _ =>
        (Setup.isUpperBound_iff_pointwise hsamples).symm
    · intro hpasses u hu
      exact Setup.pointwise_of_passes hlat hsamples hpasses u
        (hanswered ▸ mem_answeredFor.mpr hu)
  · intro graph fuel r hwf hpure hexact hcheck hrun hcomplete
    obtain ⟨s₁, s, values, h⟩ := completed_of_solve hrun hcomplete
    have hcovering := covering_of_completed hwf hpure hlat hexact
      hcheck hsamples h
    exact ⟨s₁, s, values, h, hcovering.answers hlat hsamples⟩

/-- A procedure of one statement. -/
def singleStep : Draft := .ofSteps [.declare "main" [], .write ⟨0⟩ .nop]

/-- Zero gives rise to a token twice, first at the bottom and then at
the top. A join keeps its first side. -/
def keepFirstSetup : Setup Bool BinaryEdge Binary where
  problem :=
    { lattice := Binary.lattice
      functions :=
        { BinaryEdge.functions Binary.lattice with join := fun f _ => f }
      zero := false
      entries := [⟨0⟩]
      initial := .bottom
      samples := [.bottom, .top]
      flow := fun _ d =>
        .ok (if d = false then [(true, .allBottom), (true, .allTop)]
            else [(true, .identity)]) }

/-- The second answer is lost, and the run returns the bottom as if it
had not been given. -/
theorem answers_kept_where_merges_pass_singleStep :
    (∃ r s₁ s values, (solve keepFirstSetup 100 singleStep.build.graph).1 =
      .ok r ∧ r.status = .complete ∧ r.resultAt ⟨1⟩ true = .bottom ∧
      Completed keepFirstSetup 100 singleStep.build.graph r s₁ s values ∧
      CoversAnswers keepFirstSetup singleStep.build.graph.icfg s) ∧
    ∀ s, ∃ ts s', evaluate keepFirstSetup (.normal ⟨0⟩ ⟨1⟩) false
        (keepFirstSetup.problem.flow (.normal ⟨0⟩ ⟨1⟩) false) s = .ok ts s' ∧
      (∀ w, (true, w) ∈ ts ↔ w = .allBottom) ∧
      keepFirstSetup.isUpperBound .allBottom .allTop .allTop = false ∧
      ¬∀ u, (true, u) ∈ [(true, BinaryEdge.allBottom), (true, .allTop)] →
        keepFirstSetup.Pointwise u .allBottom := by
  have hlaid : singleStep.build.IsLaidOut :=
    Draft.isLaidOut_build (Draft.isNumbered_ofSteps _)
      (by unfold Draft.IsScoped; decide)
  have heval : (solve keepFirstSetup 100 singleStep.build.graph).1.toOption.map
      (fun r => (r.status, r.resultAt ⟨1⟩ true)) = some (.complete, .bottom) :=
      by decide +kernel
  obtain ⟨r, hrun, hr⟩ := exists_ok_of_map heval
  simp only [Prod.mk.injEq] at hr
  have hexact : keepFirstSetup.problem.functions.IsExact :=
    ⟨(BinaryEdge.isDistributive Binary.isSemilattice).eval_comp, fun _ => rfl⟩
  have hsamples : ∀ v, v ∈ keepFirstSetup.problem.samples :=
    fun v => by cases v <;> decide
  have hkept := answers_kept_where_merges_pass (S := keepFirstSetup)
    Binary.isSemilattice hsamples
  constructor
  · obtain ⟨s₁, s, values, h, hcovers⟩ :=
      hkept.2 hlaid.wellFormed (fun _ _ _ => rfl) hexact rfl hrun hr.1
    exact ⟨r, s₁, s, values, hrun, hr.1, hr.2, h, hcovers⟩
  · intro s
    obtain ⟨ts, s', hts, hmerged⟩ := hkept.1 (.normal ⟨0⟩ ⟨1⟩) false
      [(true, .allBottom), (true, .allTop)] s
    obtain ⟨v, vs, hanswered, hused, habove, _⟩ :=
      hmerged true (by decide) (by decide)
    obtain ⟨rfl, rfl⟩ : v = .allBottom ∧ vs = [.allTop] := by
      have heq : [BinaryEdge.allBottom, .allTop] = v :: vs := hanswered
      cases heq
      exact ⟨rfl, rfl⟩
    have hprobe : keepFirstSetup.isUpperBound .allBottom .allTop .allTop =
      false := by decide
    refine ⟨ts, s', hts, hused, hprobe, fun hall => ?_⟩
    have hpasses : keepFirstSetup.isUpperBound .allBottom .allTop .allTop =
      true := habove.mp hall .allTop (by decide)
    rw [hprobe] at hpasses
    cases hpasses

end Solver

end Tabulation
