/-
The fact that always holds.

Zero is what other facts are generated from, so it has to be alive
wherever control can get to. A solver that is told to do so adds it to
the answer of every flow from zero. That this is enough does not depend
on what the flow functions answer: they may drop zero, repeat it, or
weigh it.

# Where it holds

A path edge leads to nodes that control can reach only, whatever its
facts (`Derivable.reachable`). The other way round, along each way that
control can take there is a flow that was evaluated, from zero at its
beginning, and zero is among its targets (`recorded_of_reachable`).
This does not go through returns: a call is passed whether or not its
callee comes back.

# What it is worth

Zero to zero is crossed by the identity. If no other fact turns into
zero, then a path edge that ends in zero has been at zero all the way,
through callees as well (`Derivable.zero`). Its jump function is the
identity, and the value of zero is the initial one everywhere.
-/
import Tabulation.Proofs.ValuedFacts

namespace Tabulation

variable {D W L : Type} [DecidableEq D]

/-- Nothing but zero is mapped to zero. Zero itself may be mapped to
anything. -/
structure Problem.SealsZero (P : Problem D W L) : Prop where
  flow : ∀ {edge d answer}, P.flow edge d = .ok answer →
    P.zero ∈ answer.map Prod.fst → d = P.zero
  returnFlow : ∀ {edge d callFact answer}, P.returnFlow edge d callFact =
    .ok answer → P.zero ∈ answer.map Prod.fst → d = P.zero

/-- The identity composed with itself or joined to itself is the
identity, and it is one. -/
structure EdgeFunctions.KeepsIdentity (E : EdgeFunctions W L) : Prop where
  comp : E.comp E.identity E.identity = E.identity
  join : E.join E.identity E.identity = E.identity
  eval : ∀ v, E.eval E.identity v = v

-- ============================================================== flows to zero

namespace Setup

variable {S : Setup D W L}

/-- Where nothing else is mapped to zero, what is crossed to zero is
the identity, from zero. -/
private theorem zero_of_mem_targets (hE : S.problem.functions.KeepsIdentity)
    {d : D} {w : W} {answer : Except Fault (List (D × W))}
    (hanswer : ∀ l, answer = .ok l → S.problem.zero ∈ l.map Prod.fst →
      d = S.problem.zero) (h : (S.problem.zero, w) ∈ S.targets d answer) :
    d = S.problem.zero ∧ w = S.identity := by
  cases answer with
  | error fault => exact absurd h List.not_mem_nil
  | ok l =>
    have hd : d = S.problem.zero := by
      rcases S.mem_fst_effective.mp (List.mem_map_of_mem h)
        with hmem | ⟨_, hsource, _⟩
      · exact hanswer l rfl hmem
      · exact hsource
    subst hd
    exact ⟨rfl, identity_of_zero_mem_effective hE.join h⟩

section Sealed

variable (hE : S.problem.functions.KeepsIdentity) (hzero : S.problem.SealsZero)

include hE hzero

/-- So it is at an edge inside a procedure, -/
private theorem zero_of_mem_normalTargets {n m : Node} {d : D} {w : W}
    (h : (S.problem.zero, w) ∈ S.normalTargets n m d) :
    d = S.problem.zero ∧ w = S.identity := by
  unfold normalTargets at h
  split at h
  · have h : (S.problem.zero, w) ∈ S.targets d (.ok [(d, S.identity)]) := h
    refine zero_of_mem_targets hE (fun l hl hmem => ?_) h
    cases hl
    exact (List.mem_singleton.mp hmem).symm
  · exact zero_of_mem_targets hE (fun _ hl => hzero.flow hl) h
  · exact absurd h List.not_mem_nil

/-- at a call, -/
private theorem zero_of_mem_callTargets {c st : Node} {g : Proc} {d : D} {w : W}
    (h : (S.problem.zero, w) ∈ S.callTargets c g st d) :
    d = S.problem.zero ∧ w = S.identity :=
  zero_of_mem_targets hE (fun _ hl => hzero.flow hl) h

/-- past a call, -/
private theorem zero_of_mem_passTargets {c r : Node} {d : D} {w : W}
    (h : (S.problem.zero, w) ∈ S.passTargets c r d) :
    d = S.problem.zero ∧ w = S.identity :=
  zero_of_mem_targets hE (fun _ hl => hzero.flow hl) h

/-- and at a return, where the fact at the exit is the one that counts. -/
private theorem zero_of_mem_returnTargets {c x r : Node} {g : Proc} {d e : D}
    {w : W} (h : (S.problem.zero, w) ∈ S.returnTargets c g x r d e) :
    d = S.problem.zero ∧ w = S.identity :=
  zero_of_mem_targets hE (fun _ hl => hzero.returnFlow hl) h

/-- Back from a return to the exit, through the callee to its start,
and from there to the call. At each stage it is zero, crossed by the
identity. -/
private theorem zero_of_return {c st x r : Node} {g : Proc} {d e d₂ : D}
    {w v : W} {h : W} (hw : (e, w) ∈ S.callTargets c g st d)
    (hthrough : d₂ = S.problem.zero → e = S.problem.zero ∧ h = S.identity)
    (hv : (S.problem.zero, v) ∈ S.returnTargets c g x r d₂ d) :
    d = S.problem.zero ∧ w = S.identity ∧ h = S.identity ∧ v = S.identity := by
  obtain ⟨hexit, rfl⟩ := zero_of_mem_returnTargets hE hzero hv
  obtain ⟨rfl, rfl⟩ := hthrough hexit
  obtain ⟨hd, rfl⟩ := zero_of_mem_callTargets hE hzero hw
  exact ⟨hd, rfl, rfl, rfl⟩

end Sealed

omit [DecidableEq D] in
/-- Without further seeds, everything starts from zero with the initial
value, at the starts of the entries. -/
theorem eq_of_mem_seedsOn (hseeds : S.problem.seeds = []) {I : Icfg}
    {seed : Seed D L} (h : seed ∈ S.seedsOn I) :
    seed.fact = S.problem.zero ∧ seed.value = S.problem.initial ∧
      ∃ p ∈ S.problem.entries, I.start? p = some seed.node := by
  unfold seedsOn at h
  rw [hseeds, List.append_nil] at h
  obtain ⟨n, hn, rfl⟩ := List.mem_map.mp h
  obtain ⟨p, hp, hstart⟩ := List.mem_filterMap.mp hn
  exact ⟨rfl, rfl, p, hp, hstart⟩

end Setup

-- ============================================================= by the rules

namespace Supergraph

variable {S : Setup D W L} {I J : Icfg} {e : PathEdge D} {f : W}

/-- Path edges lead to where control can get to. Each rule that derives
one follows an edge along which control can go. -/
theorem Derivable.reachable (hseeds : S.problem.seeds = []) (h : I.GrowsTo J)
    (hfixed : ∀ c, J.callees c = I.callees c) (he : Derivable S J e f) :
    I.Reachable S.problem.entries e.node := by
  have hpass : ∀ {c r : Node}, I.Reachable S.problem.entries c →
      J.isCall c = true → J.returnSite? c = some r →
      I.Reachable S.problem.entries r :=
    fun hc hcall hr => .pass hc (h.isCall ▸ hcall) (h.returnSite? ▸ hr)
  induction he with
  | seed hseed =>
    obtain ⟨_, _, p, hp, hstart⟩ := Setup.eq_of_mem_seedsOn hseeds hseed
    exact .entry hp (h.start? ▸ hstart)
  | normal _ hcall hexit hm _ ih =>
    exact .succ ih (h.isCall ▸ hcall) (h.isExit? ▸ hexit) (h.successors ▸ hm)
  | pass _ hcall hr _ ih => exact hpass ih hcall hr
  | entry _ henter _ ih =>
    exact .callee ih (h.isCall ▸ henter.isCall) (hfixed _ ▸ henter.callee)
      (h.start? ▸ henter.start)
  | ret _ henter _ _ _ hr _ _ ih _ => exact hpass ih henter.isCall hr
  | join _ _ ih _ => exact ih

/-- A path edge that ends in zero has been at zero all the way. By
induction on its derivation, with that of the callee where it comes
from a return. -/
theorem Derivable.zero (hseeds : S.problem.seeds = [])
    (hE : S.problem.functions.KeepsIdentity) (hzero : S.problem.SealsZero)
    (he : Derivable S J e f) (htarget : e.target = S.problem.zero) :
    e.source = S.problem.zero ∧ f = S.identity := by
  have hcomp : S.comp S.identity S.identity = S.identity := hE.comp
  induction he with
  | seed hseed => exact ⟨(Setup.eq_of_mem_seedsOn hseeds hseed).1, rfl⟩
  | normal _ _ _ _ hw ih =>
    subst htarget
    obtain ⟨hd, rfl⟩ := Setup.zero_of_mem_normalTargets hE hzero hw
    obtain ⟨hsource, rfl⟩ := ih hd
    exact ⟨hsource, hcomp⟩
  | pass _ _ _ hw ih =>
    subst htarget
    obtain ⟨hd, rfl⟩ := Setup.zero_of_mem_passTargets hE hzero hw
    obtain ⟨hsource, rfl⟩ := ih hd
    exact ⟨hsource, hcomp⟩
  | entry _ _ _ _ => exact ⟨htarget, rfl⟩
  | ret _ _ hw _ _ _ hv hu ihf ihh =>
    subst htarget
    obtain ⟨hd, rfl, rfl, rfl⟩ := Setup.zero_of_return hE hzero hw ihh hv
    obtain ⟨hsource, rfl⟩ := ihf hd
    refine ⟨hsource, ?_⟩
    cases hu with
    | atCall => rw [hcomp, hcomp, hcomp]
    | atExit => rw [hcomp, hcomp, hcomp]
  | join _ _ ihf ihg =>
    obtain ⟨hsource, rfl⟩ := ihf htarget
    obtain ⟨_, rfl⟩ := ihg htarget
    exact ⟨hsource, hE.join⟩

end Supergraph

-- ============================================================ in the tables

namespace Solver

open Supergraph

variable {S : Setup D W L} {graph : FlowGraph} {s s₁ : State D W L} {fuel : Nat}
variable {r : Results D L} {values? : Option (Grid Node D L)}

/-- Zero is among the targets of every flow that was evaluated from it.
The solver has added it, if the flow function did not answer with it. -/
theorem Noted.zero_mem (hadd : S.config.autoAddZero = true) {edge : FlowEdge}
    {ts : List (D × W)} (h : Noted S s edge S.problem.zero ts) :
    ∃ w, (S.problem.zero, w) ∈ ts := by
  obtain ⟨answer, rfl⟩ := h.answered
  obtain ⟨t, ht, hzero⟩ :=
    List.mem_map.mp (S.mem_fst_effective.mpr (Or.inr ⟨hadd, rfl, rfl⟩))
  exact ⟨t.2, hzero ▸ ht⟩

/-- What a complete run leaves behind if no call site got a further
callee on the way. -/
structure Rounded (S : Setup D W L) (graph : FlowGraph) (s : State D W L) :
    Prop where
  fixed : ∀ c, (S.view s.graph).callees c = (S.view graph).callees c
  saturated : Saturated S (fun _ _ => True) s
  finished : ∃ met, Finished S (fun _ _ => True) graph met s
  kept : Kept S (S.view graph) s
  noted : ∀ {e}, Recorded s e → NotedAt S s e

/-- Zero gets to wherever control can get to, by induction on the way.
It need not have started there: the source of the path edge is what the
procedure was entered with. -/
theorem Rounded.recorded_of_reachable (hadd : S.config.autoAddZero = true)
    (hs : Rounded S graph s) {n : Node}
    (hn : (S.view graph).Reachable S.problem.entries n) :
    ∃ source, Recorded s ⟨source, n, S.problem.zero⟩ := by
  obtain ⟨met, hfinished⟩ := hs.finished
  have horigin := hs.kept.origin
  induction hn with
  | @entry p n hp hstart =>
    have hseed : ⟨n, S.problem.zero, S.problem.initial⟩ ∈ S.seedsOn
      (S.view graph) :=
      List.mem_append_left _
      (List.mem_map.mpr ⟨n, List.mem_filterMap.mpr ⟨p, hp, hstart⟩, rfl⟩)
    exact ⟨S.problem.zero, (hfinished.present _ hseed).recorded⟩
  | @succ n m _ hcall hexit hm ih =>
    obtain ⟨source, f, hf⟩ := ih
    rw [← horigin.isCall] at hcall
    rw [← horigin.isExit?] at hexit
    rw [← horigin.successors] at hm
    obtain ⟨w, ht⟩ := ((hs.noted ⟨f, hf⟩).normal hcall hexit m hm).zero_mem hadd
    exact ⟨source,
        ((hs.saturated.followed hf id).normal hcall hexit m hm _ ht).recorded⟩
  | @callee c st g _ hcall hg hstart ih =>
    obtain ⟨source, f, hf⟩ := ih
    rw [← horigin.isCall] at hcall
    -- the callees in the end are those that control was followed into
    rw [← hs.fixed] at hg
    rw [← horigin.start?] at hstart
    have hfollowed := hs.saturated.followed hf id
    obtain ⟨_, _, _, hnoted⟩ :=
      hs.kept.callFlow (hfollowed.callFlow hcall hg hstart)
    obtain ⟨w, ht⟩ := hnoted.zero_mem hadd
    exact ⟨S.problem.zero, (hfollowed.entry hcall hg hstart _ ht).1.recorded⟩
  | @pass c r _ hcall hr ih =>
    obtain ⟨source, f, hf⟩ := ih
    rw [← horigin.isCall] at hcall
    rw [← horigin.returnSite?] at hr
    obtain ⟨w, ht⟩ := ((hs.noted ⟨f, hf⟩).pass hcall r hr).zero_mem hadd
    exact ⟨source, ((hs.saturated.followed hf id).pass hcall hr _ ht).recorded⟩

/-- Facts are on record only where control can get to. -/
theorem Rounded.reachable_of_recorded (hseeds : S.problem.seeds = [])
    (hs : Rounded S graph s) {e : PathEdge D} (he : Recorded s e) :
    (S.view graph).Reachable S.problem.entries e.node := by
  obtain ⟨met, hfinished⟩ := hs.finished
  obtain ⟨f, hf⟩ := he
  exact (hfinished.sound.jump hf).reachable hseeds hs.kept.origin hs.fixed

/-- The value of zero is the initial one: seeds carry it, and it is
handed on by identities only. -/
theorem Rounded.isBacking_initial (hseeds : S.problem.seeds = [])
    (hE : S.problem.functions.KeepsIdentity) (hzero : S.problem.SealsZero)
    (hidem : ∀ v, S.problem.lattice.join v v = v) (hs : Rounded S graph s) :
    Values.IsBacking S s fun _ d v => d = S.problem.zero →
    v = S.problem.initial := by
  obtain ⟨met, hfinished⟩ := hs.finished
  have halong : ∀ {d c e v w}, (d = S.problem.zero → v = S.problem.initial) →
      s.jump? ⟨d, c, e⟩ = some w → e = S.problem.zero →
      S.problem.functions.eval w v = S.problem.initial := by
    intro d c e v w hv hw he
    obtain ⟨hd, rfl⟩ := (hfinished.sound.jump hw).zero hseeds hE hzero he
    exact (hE.eval v).trans (hv hd)
  refine ⟨⟨fun seed hseed _ => ?_, fun hv hu hd => ?_, fun hv _ _ _ hw he =>
    halong hv hw he, ?_⟩, fun hv _ _ hw he => halong hv hw he⟩
  · rw [hfinished.seeds_eq] at hseed
    exact (Setup.eq_of_mem_seedsOn hseeds hseed).2.1
  · rw [hv hd, hu hd]
    exact hidem _
  · intro n d v g st e w hv _ _ _ ht he
    cases hget : s.callFlows.get? n (g, d) with
    | none =>
      rw [Grid.getD, hget] at ht
      exact absurd ht List.not_mem_nil
    | some ts =>
      rw [Grid.getD, hget] at ht
      obtain ⟨start, _, rfl⟩ := hfinished.sound.callFlow hget
      subst he
      obtain ⟨hd, rfl⟩ := Setup.zero_of_mem_callTargets hE hzero ht
      exact (hE.eval v).trans (hv hd)

variable [DecidableEq W] [DecidableEq L]

/-- A complete run leaves its tables so, if it ended on the callees it
began with. -/
theorem Completed.rounded (hsteady : S.IsSteady)
    (hwf : (S.view graph).WellFormed)
    (hfixed : ∀ c, (S.view (solve S fuel graph).2).callees c =
      (S.view graph).callees c) (h : Completed S fuel graph r s₁ s values?) :
    Rounded S graph s := by
  have hfixed : ∀ c, (S.view s.graph).callees c = (S.view graph).callees c := by
    rw [← h.graph_eq]
    exact hfixed
  have hsown := (sown_of_begin h.begun).1
  have hs := finished_of_tabulate isGrowthOrder_trivial hsteady hwf.start_owned
    (fun e g => g ∈ (S.view graph).callees e.node) h.begun
    (by rw [hsown.graph_eq]; exact id) h.looped
  refine ⟨hfixed, ?_, ⟨_, hs⟩, ?_, fun he => ?_⟩
  · exact hs.closed.weaken fun hg => Or.inl (hfixed _ ▸ hg)
  · exact ((ensures_ready hsteady fuel hsown.kept hsown.ready).of_ok h.looped).1
  · have hattended : Attended S s₁ := fun e he => Or.inl (hsown.pending.mpr he)
    exact noted_of_tabulate hsteady hsown.kept hattended h.looped he

-- ============================================================= the answers

/-- Zero holds exactly where control can get to, and nothing holds
anywhere else. If nothing else turns into zero, zero gets everywhere by
the identity and keeps its initial value. -/
theorem zero_holds_iff_reachable (hsteady : S.IsSteady)
    (hwf : (S.view graph).WellFormed) (hseeds : S.problem.seeds = [])
    (hadd : S.config.autoAddZero = true) (hrun : (solve S fuel graph).1 = .ok r)
    (hcomplete : r.status = .complete)
    (hfixed : ∀ c, (S.view (solve S fuel graph).2).callees c =
      (S.view graph).callees c) :
    (∀ n,
      (r.holdsFact n S.problem.zero = .reachable ↔
        (S.view graph).Reachable S.problem.entries n) ∧
      ((∃ d, r.holdsFact n d = .reachable) ↔
        (S.view graph).Reachable S.problem.entries n)) ∧
    (S.problem.SealsZero → S.problem.functions.KeepsIdentity →
      (∃ s₁ s values?, Completed S fuel graph r s₁ s values? ∧
        ∀ n w, s.jump? ⟨S.problem.zero, n, S.problem.zero⟩ = some w →
        w = S.identity) ∧
      (S.config.computeValues = true → (∀ v, S.problem.lattice.join v v = v) →
        ∀ n, (S.view graph).Reachable S.problem.entries n →
          r.resultAt n S.problem.zero = S.problem.initial)) := by
  obtain ⟨s₁, s, values?, hdone⟩ := completed_of_solve hrun hcomplete
  have hs := hdone.rounded hsteady hwf hfixed
  have hforth : ∀ {n}, (∃ d, r.holdsFact n d = .reachable) →
      (S.view graph).Reachable S.problem.entries n := by
    intro n h
    obtain ⟨d, hd⟩ := h
    obtain ⟨source, he⟩ := (hdone.holdsFact_iff n d).mp hd
    exact hs.reachable_of_recorded hseeds (e := ⟨source, n, d⟩) he
  have hback : ∀ {n}, (S.view graph).Reachable S.problem.entries n →
      r.holdsFact n S.problem.zero = .reachable :=
    fun hn => (hdone.holdsFact_iff _ _).mpr (hs.recorded_of_reachable hadd hn)
  refine ⟨fun n => ⟨⟨fun h => hforth ⟨_, h⟩, hback⟩, hforth,
    fun hn => ⟨_, hback hn⟩⟩,
    fun hzero hE => ⟨⟨s₁, s, values?, hdone, fun n w hw => ?_⟩,
    fun hvalues hidem n hn => ?_⟩⟩
  · obtain ⟨met, hfinished⟩ := hs.finished
    exact ((hfinished.sound.jump hw).zero hseeds hE hzero rfl).2
  -- zero has a value wherever it is on record, and that is backed by
  -- the initial one
  · obtain ⟨_, values, rfl, hcomputed⟩ :=
      hdone.computed hvalues ValueLattice.isJoinOrder_trivial
      (hs.isBacking_initial hseeds hE hzero hidem)
    obtain ⟨_, hphase⟩ := hdone.valued
    obtain ⟨_, hsome, hvalued⟩ :=
      valued_iff_recorded hsteady hwf hvalues hdone.begun hdone.looped hphase
    cases hsome
    obtain ⟨v, hv⟩ := (hvalued n _).mpr (hs.recorded_of_reachable hadd hn)
    rw [Results.resultAt, hdone.value?_eq_get? hvalued, hv, Option.getD_some]
    exact hcomputed.backed hv rfl

/-- A procedure that calls another one, which spins forever, and one
without a body. A last one is never called. -/
def spinning : Draft := .ofSteps [
  .declare "main" [],
  .declare "spin" [],
  .declare "outside" [],
  .declare "idle" [],
  .write ⟨0⟩ (.call (.direct ⟨1⟩) [] none),
  .write ⟨0⟩ (.call (.direct ⟨2⟩) [] none),
  .write ⟨0⟩ .nop,
  .write ⟨1⟩ .nop,
  .write ⟨1⟩ .nop,
  .write ⟨3⟩ .nop,
  .jump ⟨1⟩ ⟨4⟩ ⟨3⟩]

/-- Flow functions that drop zero past the first call, and elsewhere
send it to the bottom. -/
def carelessSetup : Setup Bool BinaryEdge Binary where
  problem := {
    lattice := Binary.lattice
    functions := BinaryEdge.functions Binary.lattice
    zero := false
    entries := [⟨0⟩]
    initial := .top
    flow := fun edge d => .ok (
      if d = true then [(true, .identity)]
      else if edge = .callToReturn ⟨0⟩ ⟨1⟩ then []
      else [(false, .allBottom), (true, .allBottom)]) }

/-- Past the call that does not come back zero holds with the initial
value, and so it does while the callee spins. The procedure that is not
called is not reached. -/
theorem zero_holds_iff_reachable_spinning :
    ∃ r, (solve carelessSetup 100 spinning.build.graph).1 = .ok r ∧
      r.status = .complete ∧ spinning.build.graph.icfg.Reachable [⟨0⟩] ⟨2⟩ ∧
      r.resultAt ⟨2⟩ false = .top ∧
      spinning.build.graph.icfg.Reachable [⟨0⟩] ⟨4⟩ ∧
      r.resultAt ⟨4⟩ false = .top ∧
      ¬spinning.build.graph.icfg.Reachable [⟨0⟩] ⟨5⟩ := by
  have hlaid : spinning.build.IsLaidOut :=
    Draft.isLaidOut_build (Draft.isNumbered_ofSteps _)
      (by unfold Draft.IsScoped; decide)
  have heval : (solve carelessSetup 100 spinning.build.graph).1.toOption.map
      (fun r => (r.status, r.holdsFact ⟨2⟩ false, r.holdsFact ⟨4⟩ false,
      r.holdsFact ⟨5⟩ false)) =
      some (.complete, .reachable, .reachable, .unreachable) := by
      decide +kernel
  obtain ⟨r, hrun, hr⟩ := exists_ok_of_map heval
  simp only [Prod.mk.injEq] at hr
  obtain ⟨hcomplete, hpast, hspin, hidle⟩ := hr
  have hpure : carelessSetup.problem.IsPure := fun _ _ _ => rfl
  have hwf : (carelessSetup.view spinning.build.graph).WellFormed :=
    hlaid.wellFormed
  have hgraph := graph_of_isPure hwf.start_owned hpure hrun hcomplete
  have hseals :
      ∀ (edge : FlowEdge) (d : Bool) (answer : List (Bool × BinaryEdge)),
      carelessSetup.problem.flow edge d = .ok answer →
      false ∈ answer.map Prod.fst →
      d = false := by
    intro edge d answer hflow hmem
    cases d with
    | false => rfl
    | true =>
      cases hflow
      simp at hmem
  obtain ⟨hiff, hvalue⟩ :=
    zero_holds_iff_reachable (Setup.isSteady_of_isPure hpure) hwf
    rfl rfl hrun hcomplete
    fun c => congrArg (fun g => (carelessSetup.view g).callees c) hgraph
  obtain ⟨_, hinitial⟩ := hvalue
    ⟨fun h => hseals _ _ _ h, fun h => hseals _ _ _ h⟩ ⟨rfl, rfl, fun _ => rfl⟩
  have hreach₂ := (hiff ⟨2⟩).1.mp hpast
  have hreach₄ := (hiff ⟨4⟩).1.mp hspin
  refine ⟨r, hrun, hcomplete, hreach₂, ?_, hreach₄, ?_, fun hreach => ?_⟩
  · exact hinitial rfl Binary.isSemilattice.join_idem _ hreach₂
  · exact hinitial rfl Binary.isSemilattice.join_idem _ hreach₄
  · have hreached : r.holdsFact ⟨5⟩ false = .reachable :=
      (hiff ⟨5⟩).1.mpr hreach
    rw [hidle] at hreached
    cases hreached

end Solver

end Tabulation
