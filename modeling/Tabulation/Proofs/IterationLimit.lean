/-
Runs that are limited to a number of iterations.

A limit is looked at when a path edge has been taken and is about to be
followed. So a run with the limit `k` goes along with any run that has
a larger limit, or none, until `k` path edges have been followed and
another one is pending (`tabulate_limited`). If that never comes, the
two runs are the same. Otherwise the smaller one stops there, and the
larger one goes on from the very same tables.

# Less, but nothing wrong

Tables only grow along a run. What a limited run has reached, a run
with a larger limit reaches as well. What it has not reached it does
not call unreachable, and since it computes no values it reports the
top for all that it has reached.

Nothing is asked of the flow graph here, and nothing of the lattice but
that the check at the beginning tells the top from the bottom.
-/
import Tabulation.Proofs.Reachability
import Tabulation.Proofs.Solver.Settings
import Tabulation.Proofs.Solver.Settling

namespace Tabulation

variable {D W L : Type} [DecidableEq D]

/-- The same setup with a limit on the iterations. One that was there
before is replaced. -/
def Setup.limited (S : Setup D W L) (k : Nat) : Setup D W L :=
  { S with config.maxIterations := some k }

/-- What a run reports that stopped after `k` iterations. Nothing is
said to be unreachable, and everything reached is given the top, for
want of values. -/
structure Results.StoppedAt (r : Results D L) (k : Nat)
    (lattice : ValueLattice L) : Prop where
  status : r.status = .incomplete .iterationLimit
  iterations : r.statistics.worklistIterations = k
  unknown : ∀ {n d}, r.holdsFact n d ≠ .reachable → r.holdsFact n d = .unknown
  resultAt_eq_top : ∀ {n d}, r.resultAt n d = lattice.top ↔
    r.holdsFact n d = .reachable
  resultAt_eq_bottom : ∀ {n d}, r.holdsFact n d ≠ .reachable →
    r.resultAt n d = lattice.bottom

namespace Solver

variable {S : Setup D W L} {I : Icfg} {graph : FlowGraph}
variable {s s' s'' : State D W L} {fuel : Nat}

-- ============================================================== moving on

/-- A later moment of a run in which nothing is asked for. The graph
stays as it is, and tables grow. -/
structure Onward (s s' : State D W L) : Prop where
  graph : s'.graph = s.graph
  cancelled : s'.cancelled = s.cancelled
  iterations : s.stats.worklistIterations ≤ s'.stats.worklistIterations
  recorded : ∀ {e}, Recorded s e → Recorded s' e
  row : ∀ {n}, n ∈ s.jumps.rows.keys → n ∈ s'.jumps.rows.keys

theorem Onward.refl (s : State D W L) : Onward s s :=
  ⟨rfl, rfl, Nat.le_refl _, id, id⟩

theorem Onward.trans (h : Onward s s') (h' : Onward s' s'') : Onward s s'' where
  graph := h'.graph.trans h.graph
  cancelled := h'.cancelled.trans h.cancelled
  iterations := Nat.le_trans h.iterations h'.iterations
  recorded := fun he => h'.recorded (h.recorded he)
  row := fun hn => h'.row (h.row hn)

/-- To store a path edge and queue it is to move on. -/
private theorem onward_queued (s : State D W L) (e : PathEdge D) (w : W) :
    Onward s (queued s e w) where
  graph := rfl
  cancelled := rfl
  iterations := Nat.le_refl _
  recorded := fun he => recorded_queued_iff.mpr (Or.inl he)
  row := fun hn => Grid.mem_keys_rows_insert.mpr (Or.inl hn)

variable [DecidableEq L]

/-- Following a path edge leaves the count of iterations alone. It is
the taking of one that counts. -/
theorem Stride.onward (hpure : S.problem.IsPure) (h : Stride S s s') :
    Onward s s' ∧ s'.stats.worklistIterations = s.stats.worklistIterations := by
  cases h with
  | move hmove =>
    cases hmove with
    | serve edge d =>
      unfold served
      rw [hpure]
      exact ⟨⟨rfl, rfl, Nat.le_refl _, id, id⟩, rfl⟩
    | @store e w _ _ => exact ⟨onward_queued s e w, rfl⟩
    | @raise e f g _ _ _ =>
      have h := onward_queued
        { s with stats.jumpFunctionUpdates := s.stats.jumpFunctionUpdates + 1 }
        e (S.problem.functions.join f g)
      exact ⟨⟨h.graph, h.cancelled, h.iterations, h.recorded, h.row⟩, rfl⟩
    | _ => exact ⟨⟨rfl, rfl, Nat.le_refl _, id, id⟩, rfl⟩
  | _ => exact ⟨⟨rfl, rfl, Nat.le_refl _, id, id⟩, rfl⟩

/-- So does any number of such moves. -/
theorem Course.onward (hpure : S.problem.IsPure) (h : Course S s s') :
    Onward s s' ∧ s'.stats.worklistIterations = s.stats.worklistIterations := by
  induction h with
  | refl => exact ⟨.refl s, rfl⟩
  | tail _ hstride ih =>
    obtain ⟨hlast, hcount⟩ := hstride.onward hpure
    exact ⟨ih.1.trans hlast, hcount.trans ih.2⟩

/-- A turn that goes on counts an iteration if something was pending;
the last turn counts none. -/
theorem Turned.onward (hpure : S.problem.IsPure) {status? : Option Status}
    (h : Turned S s status? s') :
    Onward s s' ∧ s'.stats.worklistIterations =
      if s.worklist ≠ [] ∧ status? = none then s.stats.worklistIterations + 1
      else s.stats.worklistIterations := by
  cases h with
  | @followed e rest _ hperm hprocessed =>
    obtain ⟨honward, hcount⟩ := hprocessed.course.onward hpure
    have hpending : s.worklist ≠ [] := by
      intro hnil
      rw [hnil] at hperm
      exact List.not_perm_cons_nil hperm.symm
    refine ⟨⟨honward.graph, honward.cancelled, ?_, honward.recorded,
        honward.row⟩, ?_⟩
    · rw [hcount]
      exact Nat.le_succ _
    · rw [hcount, if_pos ⟨hpending, rfl⟩]
      rfl
  | stopped _ => exact ⟨⟨rfl, rfl, Nat.le_refl _, id, id⟩, by simp [relisted]⟩
  | rescanned hnil _ _ =>
    exact ⟨⟨rfl, rfl, Nat.le_refl _, id, id⟩, by simp [relisted, hnil]⟩
  | ended hnil => exact ⟨⟨rfl, rfl, Nat.le_refl _, id, id⟩, by simp [relisted]⟩

variable [DecidableEq W]

/-- The end of a loop is later than its beginning. -/
private theorem onward_of_tabulate (hpure : S.problem.IsPure) {status : Status}
    (hkept : Kept S I s) (hloop : tabulate S fuel s = .ok status s') :
    Onward s s' :=
  ((ensures_kept (J := Onward s) (Setup.isSteady_of_isPure hpure)
    (fun _ hs h => hs.trans (h.onward hpure).1) fuel hkept (.refl s)).of_ok
      hloop).2

-- ============================================================ side by side

variable {limit : Option Nat} {values : Bool} {k : Nat}

/-- A run with a limit is the same as one with a larger limit, or it
stops earlier, with as many iterations as it may have, at a moment that
the other one goes through. -/
private theorem tabulate_limited (hpure : S.problem.IsPure)
    (hfree : Unlimited S.config S.world)
    (hlimit : ∀ k', limit = some k' → k < k') {status : Status}
    (hkept : Kept (S.tuned limit values) I s) (hs : s.cancelled = false)
    (hcount : s.stats.worklistIterations ≤ k)
    (hloop : tabulate (S.tuned limit values) fuel s = .ok status s') :
    (tabulate (S.tuned (some k) values) fuel s = .ok status s' ∧
        s'.stats.worklistIterations ≤ k) ∨
      ∃ s'', tabulate (S.tuned (some k) values) fuel s =
          .ok (.incomplete .iterationLimit) s'' ∧
        s''.stats.worklistIterations = k ∧ Onward s'' s' ∧
        k < s'.stats.worklistIterations := by
  have hpure : (S.tuned limit values).problem.IsPure := hpure
  have hgoing : ∀ {s : State D W L}, s.cancelled = false →
      s.stats.worklistIterations ≤ k →
      stopReason? (S.tuned limit values) s = none := by
    intro s hs hcount
    rw [hfree.stopReason?_tuned hs]
    cases limit with
    | none => rfl
    | some k' =>
      have := hlimit k' rfl
      simp only [Option.any_some, decide_eq_true_eq, ite_eq_right_iff,
          reduceCtorEq, imp_false]
      omega
  induction fuel generalizing s with
  | zero => cases hloop
  | succ fuel ih =>
    obtain ⟨status?, s₁, hturn, hrest⟩ := bind_eq_ok hloop
    have hG := guards_kept I (Setup.isSteady_of_isPure hpure)
    have hturned := (turned_turn hG ⟨hkept, trivial⟩).of_ok hturn
    obtain ⟨honward, hcount₁⟩ := hturned.onward hpure
    by_cases hstop : s.worklist ≠ [] ∧ s.stats.worklistIterations = k
    · -- the limit is reached; the other run follows a path edge here
      obtain ⟨hpending, hfull⟩ := hstop
      have hreason : stopReason? (S.tuned (some k) values) s =
          some .iterationLimit := by
        rw [hfree.stopReason?_tuned hs, hfull]
        simp
      have hnone : status? = none := by
        cases hturned with
        | followed _ _ => rfl
        | stopped hreason =>
          exact absurd hreason (by rw [hgoing hs hcount]; nofun)
        | rescanned hnil _ _ => rfl
        | ended hnil => exact absurd hnil hpending
      subst hnone
      rw [if_pos ⟨hpending, rfl⟩] at hcount₁
      have hlater :=
        onward_of_tabulate hpure (hG.turned ⟨hkept, trivial⟩ hturned).1 hrest
      have hlast := tabulate_of_last fuel (turn_of_stop hpending hreason)
      refine Or.inr ⟨_, hlast, hfull, ?_, ?_⟩
      · have h := honward.trans hlater
        exact ⟨h.graph, h.cancelled, h.iterations, h.recorded, h.row⟩
      · have := hlater.iterations
        omega
    · -- both take the same turn
      have hsame : turn (S.tuned (some k) values) s = .ok status? s₁ := by
        rw [← hturn]
        refine turn_tuned fun hpending => ?_
        rw [hgoing hs hcount, hfree.stopReason?_tuned hs]
        have : s.stats.worklistIterations ≠ k := fun h => hstop ⟨hpending, h⟩
        simp only [Option.any_some, decide_eq_true_eq, ite_eq_right_iff,
            reduceCtorEq, imp_false]
        omega
      cases status? with
      | some status₁ =>
        cases hrest
        rw [if_neg (fun h => absurd h.2 nofun)] at hcount₁
        exact Or.inl ⟨tabulate_of_last fuel hsame, hcount₁ ▸ hcount⟩
      | none =>
        rw [tabulate_of_more fuel hsame]
        refine ih (hG.turned ⟨hkept, trivial⟩ hturned).1
          (honward.cancelled.trans hs) ?_ hrest
        rw [hcount₁]
        split
        next hpending =>
          have : s.stats.worklistIterations ≠ k :=
            fun h => hstop ⟨hpending.1, h⟩
          omega
        next => exact hcount

/-- `tabulate_limited` from the moment at which the loop takes over. No
iteration is counted up to there. -/
private theorem limited_of_begin (hpure : S.problem.IsPure)
    (hfree : Unlimited S.config S.world)
    (hlimit : ∀ k', limit = some k' → k < k') {status : Status}
    (hbegin : begin S (State.start S graph) = .ok () s)
    (hloop : tabulate (S.tuned limit values) fuel s = .ok status s') :
    (tabulate (S.tuned (some k) values) fuel s = .ok status s' ∧
        s'.stats.worklistIterations ≤ k) ∨
      ∃ s'', tabulate (S.tuned (some k) values) fuel s =
          .ok (.incomplete .iterationLimit) s'' ∧
        s''.stats.worklistIterations = k ∧ Onward s'' s' ∧
        k < s'.stats.worklistIterations := by
  have hsown := (sown_of_begin (S := S.tuned limit values) hbegin).1
  exact tabulate_limited hpure hfree hlimit hsown.kept hsown.uncancelled
    (hsown.iterations_eq ▸ Nat.zero_le _) hloop

/-- What a run has on record, one with a larger limit has on record as
well. Either both ended alike, or the tables of the smaller one are a
moment of the larger one. -/
private theorem recorded_of_limited (hpure : S.problem.IsPure)
    (hfree : Unlimited S.config S.world)
    (hlimit : ∀ k', limit = some k' → k ≤ k') {status status' : Status}
    {e : PathEdge D} (hbegin : begin S (State.start S graph) = .ok () s)
    (hloop : tabulate (S.tuned (some k) values) fuel s = .ok status s')
    (hloop' : tabulate (S.tuned limit values) fuel s = .ok status' s'')
    (he : Recorded s' e) : Recorded s'' e := by
  by_cases heq : limit = some k
  · rw [heq, hloop] at hloop'
    cases hloop'
    exact he
  · have hless : ∀ k', limit = some k' → k < k' := by
      intro k' hk'
      refine Nat.lt_of_le_of_ne (hlimit k' hk') fun h => heq ?_
      rw [hk', h]
    rcases limited_of_begin hpure hfree hless hbegin hloop' with ⟨hsame, _⟩ |
      ⟨s₂, hstop, _, honward, _⟩
    · rw [hloop] at hsame
      cases hsame
      exact he
    · rw [hloop] at hstop
      cases hstop
      exact honward.recorded he

-- ============================================================ the reports

/-- A run that begins has a lattice whose extremes differ, as the check
of its laws says so. Without this, the top could stand for what was not
reached. -/
private theorem top_ne_bottom_of_begin (h : begin S s = .ok () s') :
    S.problem.lattice.top ≠ S.problem.lattice.bottom := by
  obtain ⟨_, _, hvalid, _⟩ := bind_eq_ok h
  intro heq
  have hviolation : S.problem.lattice.violation? S.samples =
      some (.extremesCoincide S.problem.lattice.top) := by
    unfold ValueLattice.violation?
    rw [if_pos heq]
  unfold validate at hvalid
  rw [hviolation] at hvalid
  cases hvalid

omit [DecidableEq L] [DecidableEq W] in
/-- A fact is reported as reachable where a path edge ends in it,
whether or not the run is complete. -/
theorem holdsFact_iff_of_report {status : Status}
    {values : Option (Grid Node D L)} {r : Results D L}
    (h : report S status values s = .ok r s') {n : Node} {d : D} :
    r.holdsFact n d = .reachable ↔ ∃ source, Recorded s ⟨source, n, d⟩ := by
  rw [Results.holdsFact_eq_reachable_iff]
  simp only [value?_of_report h, exists_and_left, exists_eq, and_true]
  rfl

omit [DecidableEq L] [DecidableEq W] in
/-- Without values, all that was reached is reported with the top. -/
private theorem stoppedAt_of_report {r : Results D L}
    (hne : S.problem.lattice.top ≠ S.problem.lattice.bottom)
    (h : report S (.incomplete .iterationLimit) none s = .ok r s') :
    r.StoppedAt s.stats.worklistIterations S.problem.lattice := by
  obtain ⟨_, hstatus, hbottom, hstatistics, _⟩ := eq_of_report h
  have htop : ∀ {n d}, r.holdsFact n d = .reachable →
      r.resultAt n d = S.problem.lattice.top := by
    intro n d hreach
    obtain ⟨v, hv⟩ := Results.holdsFact_eq_reachable_iff.mp hreach
    unfold Results.resultAt
    rw [hv, ((value?_of_report h n d v).mp hv).2]
    rfl
  have habsent : ∀ {n d}, r.holdsFact n d ≠ .reachable →
      r.value? n d = none := by
    intro n d hreach
    cases hv : r.value? n d with
    | none => rfl
    | some v =>
      exact absurd (Results.holdsFact_eq_reachable_iff.mpr ⟨v, hv⟩) hreach
  have hlow : ∀ {n d}, r.holdsFact n d ≠ .reachable →
      r.resultAt n d = S.problem.lattice.bottom := by
    intro n d hreach
    unfold Results.resultAt
    rw [habsent hreach, hbottom]
    rfl
  refine ⟨hstatus, by rw [hstatistics]; rfl, fun hreach => ?_,
    fun {n d} => ⟨fun hv => ?_, htop⟩, hlow⟩
  · unfold Results.holdsFact
    rw [habsent hreach, hstatus]
  · by_contra hreach
    exact hne (hv.symm.trans (hlow hreach))

/-- What a run reports as reachable, one with a larger limit reports as
well. This is `recorded_of_limited`, seen through both reports. -/
private theorem holdsFact_of_limited (hpure : S.problem.IsPure)
    (hfree : Unlimited S.config S.world)
    (hlimit : ∀ k', limit = some k' → k ≤ k') {r r' : Results D L}
    (hrun : (solve (S.tuned (some k) values) fuel graph).1 = .ok r)
    (hrun' : (solve (S.tuned limit values) fuel graph).1 = .ok r') {n : Node}
    {d : D} (h : r.holdsFact n d = .reachable) :
    r'.holdsFact n d = .reachable := by
  obtain ⟨s₁, s₂, s₃, _, _, hbegin, hloop, hvalues, hreport, _⟩ :=
    parts_of_solve hrun
  obtain ⟨s₁', s₂', s₃', _, _, hbegin', hloop', hvalues', hreport', _⟩ :=
    parts_of_solve hrun'
  have hsame : begin S (State.start S graph) = .ok () s₁ := hbegin
  have hsame' : begin S (State.start S graph) = .ok () s₁' := hbegin'
  rw [hsame] at hsame'
  cases hsame'
  obtain ⟨_, rfl⟩ := eq_of_valuePhase hvalues
  obtain ⟨_, rfl⟩ := eq_of_valuePhase hvalues'
  obtain ⟨source, he⟩ := (holdsFact_iff_of_report hreport).mp h
  have he' : Recorded s₂' ⟨source, n, d⟩ :=
    recorded_of_limited hpure hfree hlimit hsame hloop hloop' he
  exact (holdsFact_iff_of_report hreport').mpr ⟨source, he'⟩

/-- After the same loop comes the same report. The limit is not looked
at after the loop. -/
private theorem solve_limited_of_same {status : Status}
    {values : Option (Grid Node D L)} {r : Results D L}
    (hbegin : begin S (State.start S graph) = .ok () s)
    (hloop : tabulate (S.limited k) fuel s = .ok status s')
    (hphase : valuePhase S fuel status s' = .ok values s'')
    (hreport : report S status values s'' = .ok r s'') :
    (solve (S.limited k) fuel graph).1 = .ok r := by
  have hphase' : valuePhase (S.limited k) fuel status s' = .ok values s'' := by
    rw [← hphase]
    exact congrFun (valuePhase_tuned S (some k) fuel status) s'
  rw [solve_of_parts (S := S.limited k) hbegin hloop hphase' hreport]

/-- A loop that was stopped has a report of its own. Rows can be
assembled, since the nodes in its tables have owners. -/
private theorem exists_stoppedAt
    (hbegin : begin S (State.start S graph) = .ok () s)
    (hloop : tabulate (S.limited k) fuel s =
      .ok (.incomplete .iterationLimit) s')
    (howned : ∀ n ∈ s'.jumps.rows.keys, Owned (S.view s'.graph) n) :
    ∃ r, (solve (S.limited k) fuel graph).1 = .ok r ∧
      r.StoppedAt s'.stats.worklistIterations S.problem.lattice := by
  have hphase : valuePhase (S.limited k) fuel (.incomplete .iterationLimit) s' =
    .ok none s' := rfl
  obtain ⟨r, hreport⟩ := exists_report howned (.incomplete .iterationLimit) none
  refine ⟨r, ?_, stoppedAt_of_report (top_ne_bottom_of_begin hbegin) hreport⟩
  rw [solve_of_parts (S := S.limited k) hbegin hloop hphase hreport]

/-- A limit that is not reached makes no difference. One that is
reached leaves a run that stops right there, and that reports nothing
but what longer runs report as well. -/
theorem solve_limited (hpure : S.problem.IsPure)
    (hfree : Unlimited S.config S.world) {r : Results D L}
    (hrun : (solve S fuel graph).1 = .ok r) (hcomplete : r.status = .complete)
    (k : Nat) :
    ∃ rk, (solve (S.limited k) fuel graph).1 = .ok rk ∧
      (r.statistics.worklistIterations ≤ k → rk = r ∧ rk.status = .complete) ∧
      (k < r.statistics.worklistIterations → rk.StoppedAt k S.problem.lattice) ∧
      ∀ n d, rk.holdsFact n d = .reachable → r.holdsFact n d = .reachable ∧
        ∀ k' rk', k ≤ k' → (solve (S.limited k') fuel graph).1 = .ok rk' →
          rk'.holdsFact n d = .reachable := by
  have hlonger : ∀ {rk}, (solve (S.limited k) fuel graph).1 = .ok rk → ∀ n d,
      rk.holdsFact n d = .reachable → r.holdsFact n d = .reachable ∧
        ∀ k' rk', k ≤ k' → (solve (S.limited k') fuel graph).1 = .ok rk' →
          rk'.holdsFact n d = .reachable := by
    intro rk hrk n d hreach
    refine ⟨?_, fun k' rk' hk' hrk' => ?_⟩
    · have hnone : ∀ k', none = some k' → k ≤ k' := nofun
      rw [← hfree.tuned_eq] at hrun
      exact holdsFact_of_limited hpure hfree hnone hrk hrun hreach
    · have hlimit : ∀ k'', some k' = some k'' → k ≤ k'' :=
        fun _ h => Option.some.inj h ▸ hk'
      exact holdsFact_of_limited hpure hfree hlimit hrk hrk' hreach
  obtain ⟨s₁, s₂, s₃, status, values, hbegin, hloop, hphase, hreport, _⟩ :=
    parts_of_solve hrun
  obtain ⟨count, hs₃⟩ := eq_of_valuePhase hphase
  obtain ⟨hrows, _, _, hstatistics, _⟩ := eq_of_report hreport
  have hiterations : r.statistics.worklistIterations =
      s₂.stats.worklistIterations := by
    rw [hstatistics, hs₃]
    rfl
  rw [hiterations]
  have hnone : ∀ k', none = some k' → k < k' := nofun
  rw [← hfree.tuned_eq] at hloop
  rcases limited_of_begin hpure hfree hnone hbegin hloop with ⟨hsame, hfew⟩ |
    ⟨s, hstop, hcount, honward, hmany⟩
  · have hrk := solve_limited_of_same hbegin hsame hphase hreport
    exact ⟨r, hrk, fun _ => ⟨rfl, hcomplete⟩,
        fun h => absurd hfew (Nat.not_le.mpr h), hlonger hrk⟩
  · -- the rows that were there when the run stopped are among those of the
    -- report
    have howned : ∀ n ∈ s.jumps.rows.keys, Owned (S.view s.graph) n := by
      intro n hn
      rw [← honward.graph]
      rw [hs₃] at hrows
      exact owned_of_assembleRows hrows (honward.row hn)
    obtain ⟨rk, hrk, hstopped⟩ := exists_stoppedAt hbegin hstop howned
    rw [hcount] at hstopped
    exact ⟨rk, hrk, fun h => absurd hmany (Nat.not_lt.mpr h), fun _ => hstopped,
        hlonger hrk⟩

/-- After six iterations on `twoCalls`, what the first call hands back
is not at the last use yet. -/
theorem solve_limited_twoCalls :
    ∃ r rk, (solve twoCallsSetup 100 twoCalls.build.graph).1 = .ok r ∧
      r.status = .complete ∧
      (solve (twoCallsSetup.limited 6) 100 twoCalls.build.graph).1 = .ok rk ∧
      6 < r.statistics.worklistIterations ∧
      rk.StoppedAt 6 twoCallsSetup.problem.lattice ∧
      r.holdsFact ⟨4⟩ (.var "a") = .reachable ∧
      rk.holdsFact ⟨4⟩ (.var "a") = .unknown := by
  have heval : (solve twoCallsSetup 100 twoCalls.build.graph).1.toOption.map
      (fun r => (r.status, decide (6 < r.statistics.worklistIterations),
        r.holdsFact ⟨4⟩ (.var "a"))) =
          some (.complete, true, .reachable) := by decide +kernel
  have hevalk :
      (solve (twoCallsSetup.limited 6) 100 twoCalls.build.graph).1.toOption.map
      (fun r => r.holdsFact ⟨4⟩ (.var "a")) = some .unknown := by decide +kernel
  obtain ⟨r, hrun, hr⟩ := exists_ok_of_map heval
  simp only [Prod.mk.injEq, decide_eq_true_eq] at hr
  obtain ⟨hcomplete, hmany, hreach⟩ := hr
  have hfree : Unlimited twoCallsSetup.config twoCallsSetup.world :=
    ⟨rfl, rfl, fun _ => rfl⟩
  obtain ⟨rk, hrk, _, hstopped, _⟩ :=
    solve_limited (fun _ _ _ => rfl) hfree hrun hcomplete 6
  rw [hrk] at hevalk
  exact ⟨r, rk, hrun, hcomplete, hrk, hmany, hstopped hmany, hreach,
      Option.some.inj hevalk⟩

end Solver

end Tabulation
