/-
Two runs of one problem.

The settings decide in which order pending path edges are taken, and
with it in which order facts are numbered, which of caller and exit
finds the other, and in which sequence jump functions are joined. If
two complete runs of one problem differ in nothing else, they have
found the same (`Results.Agree`).

# Jump functions

Codes of edge functions are compared by their joins. If the joins are
least upper bounds and composition keeps the order on both sides, then
what follows by the rules is below the jump functions of every complete
run, as far as returns are (`atLeast_of_derivableBy`). What a run has
recorded follows by the rules. So each of two runs is below the other.

This asks nothing of the meaning of codes. Composition need not be
associative, and there are two ways to compose a return; but what one
run has made of a return has to be below what the other may have made
of it (`Setup.ReturnsBelow`). Where calls and returns are crossed by
the identity this is so (`isDeterminate_of_identity`).

# Books

The other tables hold what the path edges on record give reason for
(`Solver/Ledger`), and nothing twice. Each run has written down what
the other has, and that makes their sizes equal.

# Values

The argument for jump functions once more, for values that were carried
from seeds along them: they are above what the rules of the phase ask
for, and below every grid that is.
-/
import Mathlib.Data.List.Perm.Subperm
import Tabulation.Proofs.SameFlows
import Tabulation.Proofs.Solver.Ledger
import Tabulation.Proofs.Valuation

namespace Tabulation

open Supergraph

variable {D W L : Type} [DecidableEq D]

-- =================================================================== sizes

namespace Table

variable {κ υ : Type} [DecidableEq κ]

/-- A table that holds all that another does is not smaller. Keys are
not held twice, so sizes can be compared by what is held. -/
private theorem size_le {t t' : Table κ υ}
    (h : ∀ {k v}, t.get? k = some v → t'.get? k = some v) :
    t.size ≤ t'.size := by
  have hsubset : t.entries ⊆ t'.entries := by
    rintro ⟨k, v⟩ hmem
    exact mem_entries.mpr (h (mem_entries.mp hmem))
  rw [size_eq, size_eq]
  exact ((List.Nodup.of_map _ t.nodup_keys).subperm hsubset).length_le

end Table

namespace Grid

variable {ρ κ υ : Type} [DecidableEq ρ] [DecidableEq κ]

omit [DecidableEq ρ] [DecidableEq κ] in
/-- The cells of a grid are told apart by their row and key. -/
theorem nodup_cells (g : Grid ρ κ υ) : g.cells.Nodup := by
  refine List.nodup_flatMap.mpr ⟨fun x _ => ?_, ?_⟩
  · refine List.Nodup.map (fun a b hab => ?_)
      (List.Nodup.of_map _ x.2.nodup_keys)
    exact (Prod.mk.inj hab).2
  · -- cells of different rows differ in their first coordinate
    refine (List.pairwise_map.mp g.rows.nodup_keys).imp
      fun {x y} hne c hx hy => hne ?_
    obtain ⟨_, _, rfl⟩ := List.mem_map.mp hx
    obtain ⟨_, _, heq⟩ := List.mem_map.mp hy
    exact (Prod.mk.inj heq).1.symm

/-- The same for grids. -/
private theorem size_le {g g' : Grid ρ κ υ}
    (h : ∀ {r k v}, g.get? r k = some v → g'.get? r k = some v) :
    g.size ≤ g'.size := by
  have hsubset : g.cells ⊆ g'.cells := by
    rintro ⟨r, k, v⟩ hmem
    exact mem_cells.mpr (h (mem_cells.mp hmem))
  rw [size_eq, size_eq]
  exact (g.nodup_cells.subperm hsubset).length_le

end Grid

-- ================================================================ the order

namespace EdgeFunctions

/-- The order of codes that their join induces. It is an order on codes
and not on the functions they stand for. -/
def Le (E : EdgeFunctions W L) (f g : W) : Prop := E.join f g = g

/-- Joins are least upper bounds in the order of codes, composition
keeps it on both sides, and the identity is neutral. That composition
is associative is not asked for. -/
structure IsOrdered (E : EdgeFunctions W L) : Prop where
  join_assoc : ∀ f g h, E.join (E.join f g) h = E.join f (E.join g h)
  join_comm : ∀ f g, E.join f g = E.join g f
  join_idem : ∀ f, E.join f f = f
  comp_mono : ∀ {f f' g g'}, E.Le f f' → E.Le g g' →
    E.Le (E.comp f g) (E.comp f' g')
  comp_identity : ∀ f, E.comp f E.identity = f
  identity_comp : ∀ f, E.comp E.identity f = f

namespace IsOrdered

variable {E : EdgeFunctions W L} {f g h : W}

theorem refl (hE : E.IsOrdered) (f : W) : E.Le f f := hE.join_idem f

theorem trans (hE : E.IsOrdered) (hfg : E.Le f g) (hgh : E.Le g h) :
    E.Le f h := by
  unfold Le at *
  rw [← hgh, ← hE.join_assoc, hfg]

theorem antisymm (hE : E.IsOrdered) (hfg : E.Le f g) (hgf : E.Le g f) :
    f = g := by
  unfold Le at *
  rw [← hgf, hE.join_comm, hfg]

theorem le_join_left (hE : E.IsOrdered) (f g : W) : E.Le f (E.join f g) := by
  unfold Le
  rw [← hE.join_assoc, hE.join_idem]

theorem le_join_right (hE : E.IsOrdered) (f g : W) : E.Le g (E.join f g) := by
  rw [hE.join_comm]
  exact hE.le_join_left g f

/-- Joins are least. -/
theorem join_le (hE : E.IsOrdered) (hfh : E.Le f h) (hgh : E.Le g h) :
    E.Le (E.join f g) h := by
  unfold Le at *
  rw [hE.join_assoc, hgh, hfh]

end IsOrdered

end EdgeFunctions

namespace Setup

/-- Codes and values are ordered by their joins, and functions are
monotone. This is what any comparison of two runs needs. -/
structure IsMonotone [DecidableEq L] (S : Setup D W L) : Prop where
  ordered : S.problem.functions.IsOrdered
  isSemilattice : S.problem.lattice.IsSemilattice
  eval_mono : ∀ w {v u}, S.problem.lattice.leq v u = true →
    S.problem.lattice.leq (S.problem.functions.eval w v)
      (S.problem.functions.eval w u) = true

/-- What returns come to under `R` is below all that they may come to
if the caller and the summary have larger jump functions. -/
structure ReturnsBelow (S : Setup D W L) (I : Icfg)
    (R : W → W → W → W → W → Prop) : Prop where
  le : ∀ {d₁ d a d₂ t c start x r g f f' w h h' v u u'},
    DerivableBy S I R ⟨d₁, c, d⟩ f → Derivable S I ⟨d₁, c, d⟩ f' →
    S.problem.functions.Le f f' → I.Enters c g start →
    (a, w) ∈ S.callTargets c g start d →
    DerivableBy S I R ⟨a, x, d₂⟩ h → Derivable S I ⟨a, x, d₂⟩ h' →
    S.problem.functions.Le h h' → I.Leaves x g → I.returnSite? c = some r →
    (t, v) ∈ S.returnTargets c g x r d₂ d → R f w h v u →
    S.Returns f' w h' v u' → S.problem.functions.Le u u'

/-- What makes the outcome of every run independent of its order: for
all that follows by the rules, both ways to compose a return come to
the same. -/
structure IsDeterminate [DecidableEq L] (S : Setup D W L) (I : Icfg) : Prop
    extends S.IsMonotone where
  returned : ∀ {d₁ d a d₂ t c start x r g f w h v}, Derivable S I ⟨d₁, c, d⟩ f →
    I.Enters c g start → (a, w) ∈ S.callTargets c g start d →
    Derivable S I ⟨a, x, d₂⟩ h → I.Leaves x g → I.returnSite? c = some r →
    (t, v) ∈ S.returnTargets c g x r d₂ d →
    S.comp (S.comp (S.comp f w) h) v = S.comp f (S.comp (S.comp w h) v)

/-- If the answers of a flow carry the identity, so do its targets. -/
theorem identity_of_mem_targets {S : Setup D W L}
    (hE : S.problem.functions.IsOrdered) {source : D}
    {answer : Except Fault (List (D × W))}
    (h : ∀ l, answer = .ok l → ∀ t ∈ l, t.2 = S.identity) {t : D × W}
    (ht : t ∈ S.targets source answer) : t.2 = S.identity := by
  refine weight_of_mem_targets (Q := (· = S.identity)) rfl ?_ h t ht
  rintro _ _ rfl rfl
  exact hE.join_idem _

section Determinate

variable [DecidableEq L]

/-- Then what a return comes to does not depend on the way it is
composed, and larger jump functions give larger returns. -/
theorem IsDeterminate.returnsBelow {S : Setup D W L} {I : Icfg}
    (hS : S.IsDeterminate I) : S.ReturnsBelow I S.Returns := by
  refine ⟨?_⟩
  intro d₁ d a d₂ t c start x r g f f' w h h' v u u' _ hf' hle henter hw _ hh'
    hle' hleave hr hv hu hu'
  have hways := hS.returned hf' henter hw hh' hleave hr hv
  have hmono := fun {f f' g g'} (hf : S.problem.functions.Le f f')
    (hg : S.problem.functions.Le g g') => hS.ordered.comp_mono hf hg
  have hrefl := hS.ordered.refl
  -- composed in its own way, the smaller is below the larger; and that has one
  -- code
  have hcode : u' = S.comp (S.comp (S.comp f' w) h') v := by
    cases hu' with
    | atCall => rfl
    | atExit => exact hways.symm
  cases hu with
  | atCall =>
    rw [hcode]
    exact hmono (hmono (hmono hle (hrefl w)) hle') (hrefl v)
  | atExit =>
    rw [hcode, hways]
    exact hmono hle (hmono (hmono (hrefl w) hle') (hrefl v))

/-- It is enough that calls and returns are crossed by the identity.
Then both ways to compose a return leave out the same factors. -/
theorem isDeterminate_of_identity {S : Setup D W L}
    (hordered : S.problem.functions.IsOrdered)
    (hlat : S.problem.lattice.IsSemilattice)
    (heval : ∀ w {v u}, S.problem.lattice.leq v u = true →
      S.problem.lattice.leq (S.problem.functions.eval w v)
        (S.problem.functions.eval w u) = true)
    (hcall : ∀ {c g start d t}, t ∈ S.callTargets c g start d →
      t.2 = S.identity)
    (hret : ∀ {c g x r d callFact t}, t ∈ S.returnTargets c g x r d callFact →
      t.2 = S.identity) (I : Icfg) : S.IsDeterminate I where
  ordered := hordered
  isSemilattice := hlat
  eval_mono := heval
  returned := by
    intro d₁ d a d₂ t c start x r g f w h v _ _ hw _ _ _ hv
    have hright : ∀ f, S.comp f S.identity = f := hordered.comp_identity
    have hleft : ∀ f, S.comp S.identity f = f := hordered.identity_comp
    obtain rfl : w = S.identity := hcall hw
    obtain rfl : v = S.identity := hret hv
    rw [hright, hright, hleft, hright]

end Determinate

/-- Two setups of one problem that differ in nothing but settings on
which the outcome of a complete run does not depend. Such settings are
the order of the worklist, the clock, and what is checked or noted on
the side. -/
structure Twins (S T : Setup D W L) : Prop where
  problem : T.problem = S.problem
  view : T.view = S.view
  autoAddZero : T.config.autoAddZero = S.config.autoAddZero
  recordEdges : T.config.recordEdges = S.config.recordEdges
  computeValues : T.config.computeValues = S.config.computeValues
  isPure : S.problem.IsPure

variable {S T : Setup D W L} {I : Icfg}

/-- Flows of both are the same, so what follows by the rules for one
follows for the other. -/
theorem Twins.sameFlows (h : S.Twins T) : S.SameFlows T := by
  have hrequests : S.problem.requests = fun _ _ _ => [] := by
    funext k edge d
    exact h.isPure k edge d
  refine Replays.sameFlows ⟨?_, h.view, h.autoAddZero⟩
  rw [h.problem, ← hrequests]

omit [DecidableEq D] in
/-- Being twins is mutual, so every comparison below has to be made in
one direction only. -/
theorem Twins.symm (h : S.Twins T) : T.Twins S where
  problem := h.problem.symm
  view := h.view.symm
  autoAddZero := h.autoAddZero.symm
  recordEdges := h.recordEdges.symm
  computeValues := h.computeValues.symm
  isPure := by
    rw [h.problem]
    exact h.isPure

omit [DecidableEq D] in
/-- Returns come to the same, since codes are composed by the problem. -/
theorem Twins.returns_iff (h : S.Twins T) {f w g v u : W} :
    T.Returns f w g v u ↔ S.Returns f w g v u := by
  obtain ⟨problem, config, view, world⟩ := S
  obtain ⟨problem', config', view', world'⟩ := T
  obtain rfl : problem' = problem := h.problem
  constructor
  · rintro (_ | _)
    · exact .atCall
    · exact .atExit
  · rintro (_ | _)
    · exact .atCall
    · exact .atExit

/-- Twins make the same of returns. -/
theorem Twins.returnsBelow (h : S.Twins T) {R : W → W → W → W → W → Prop}
    (hR : S.ReturnsBelow I R) : T.ReturnsBelow I R := by
  have hsame := h.sameFlows
  refine ⟨?_⟩
  intro d₁ d a d₂ t c start x r g f f' w k k' v u u' hf hf' hle henter hw hk hk'
    hle' hleave hr hv hu hu'
  rw [hsame.callTargets] at hw
  rw [hsame.returnTargets] at hv
  rw [h.problem] at hle hle' ⊢
  exact hR.le (hf.transfer hsame.symm) (Derivable.transfer hsame.symm hf') hle
    henter hw (hk.transfer hsame.symm) (Derivable.transfer hsame.symm hk') hle'
    hleave hr hv hu (h.returns_iff.mp hu')

variable [DecidableEq L]

omit [DecidableEq D] in
/-- What is asked of codes and values is asked of the problem. -/
theorem Twins.isMonotone (h : S.Twins T) (hS : S.IsMonotone) :
    T.IsMonotone := by
  refine ⟨?_, ?_, ?_⟩
  · rw [h.problem]
    exact hS.ordered
  · rw [h.problem]
    exact hS.isSemilattice
  · rw [h.problem]
    exact hS.eval_mono

omit [DecidableEq D] in
/-- The order of codes is one in which jump functions grow during a
run. -/
theorem IsMonotone.isGrowthOrder (hS : S.IsMonotone) :
    S.IsGrowthOrder S.problem.functions.Le where
  refl := hS.ordered.refl
  trans := hS.ordered.trans
  join_above :=
    fun _ => ⟨hS.ordered.le_join_left _ _, hS.ordered.le_join_right _ _⟩

end Setup

namespace Solver

-- ============================================================ jump functions

section Jumps

variable {S T : Setup D W L} {I : Icfg} {graph : FlowGraph} {s s' : State D W L}

theorem AtLeast.raise (hE : S.problem.functions.IsOrdered) {e : PathEdge D}
    {f g : W} (h : AtLeast S.problem.functions.Le s e g)
    (hle : S.problem.functions.Le f g) :
    AtLeast S.problem.functions.Le s e f := by
  obtain ⟨w, hw, hgw⟩ := h
  exact ⟨w, hw, hE.trans hle hgw⟩

/-- What follows by the rules is below the jump functions of tables
that are closed under them, as far as what returns come to is. The
induction follows the rules. -/
private theorem atLeast_of_derivableBy (hE : S.problem.functions.IsOrdered)
    {R : W → W → W → W → W → Prop} (hR : S.ReturnsBelow (S.view s.graph) R)
    (hsound : Sound S I s) (hs : Stable S S.problem.functions.Le s)
    (hseeds : ∀ seed ∈ S.seedsOn (S.view s.graph),
      AtLeast S.problem.functions.Le s
        ⟨seed.fact, seed.node, seed.fact⟩ S.identity) {e : PathEdge D} {f : W}
    (h : DerivableBy S (S.view s.graph) R e f) :
    AtLeast S.problem.functions.Le s e f := by
  induction h with
  | seed hseed => exact hseeds _ hseed
  | normal _ hcall hexit hsucc hw ih =>
    obtain ⟨f', hf', hle⟩ := ih
    exact (hs.normal hf' hcall hexit hsucc hw).raise hE
      (hE.comp_mono hle (hE.refl _))
  | pass _ hcall hr hw ih =>
    obtain ⟨f', hf', hle⟩ := ih
    exact (hs.pass hf' hcall hr hw).raise hE (hE.comp_mono hle (hE.refl _))
  | entry _ henter hw ih =>
    obtain ⟨f', hf', _⟩ := ih
    exact hs.entry hf' henter hw
  | ret hf henter hw hh hleave hr hv hu ihf ihh =>
    obtain ⟨f', hf', hle⟩ := ihf
    obtain ⟨h', hh', hle'⟩ := ihh
    -- the tables hold one of the two codes that their own jump functions come
    -- to
    have hbelow : ∀ {u'}, S.Returns f' _ h' _ u' →
      S.problem.functions.Le _ u' :=
      hR.le hf (hsound.jump hf') hle henter hw hh (hsound.jump hh') hle'
      hleave hr hv
        hu
    rcases hs.returned hf' hh' henter hw hleave hr hv with hback | hback
    · exact hback.raise hE (hbelow .atCall)
    · exact hback.raise hE (hbelow .atExit)
  | join _ _ ihf ihg =>
    obtain ⟨w, hw, hle⟩ := ihf
    obtain ⟨w', hw', hle'⟩ := ihg
    obtain rfl := Option.some.inj (hw.symm.trans hw')
    exact ⟨w, hw, hE.join_le hle hle'⟩

variable [DecidableEq W] [DecidableEq L]
variable {fuel fuel' : Nat} {r r' : Results D L} {s₁ s₁' : State D W L}
variable {values? values?' : Option (Grid Node D L)}
variable {R : W → W → W → W → W → Prop}

/-- What follows by the rules is below the jump functions of every
complete run, because its tables are closed. -/
theorem Completed.atLeast (h : Completed S fuel graph r s₁ s values?)
    (hpure : S.problem.IsPure) (hS : S.IsMonotone)
    (hwf : (S.view graph).WellFormed) (hR : S.ReturnsBelow (S.view graph) R)
    {e : PathEdge D} {f : W} (hf : DerivableBy S (S.view graph) R e f) :
    AtLeast S.problem.functions.Le s e f := by
  obtain ⟨hsaturated, met, hfinished⟩ :=
    saturated_of_isPure hS.isGrowthOrder hpure hwf.start_owned h.begun h.looped
  have hgraph := hfinished.graph_eq hpure
  have hseeds := hfinished.present
  rw [← hgraph] at hR hf hseeds
  exact atLeast_of_derivableBy hS.ordered hR hfinished.sound
    hsaturated.stable hseeds hf

/-- Complete runs have the same jump functions, if what each of them
has recorded follows by the rules and is below what the other may make
of returns. -/
theorem Completed.jump?_eq (h : Completed S fuel graph r s₁ s values?)
    (h' : Completed T fuel' graph r' s₁' s' values?') (htwins : S.Twins T)
    (hS : S.IsMonotone) (hwf : (S.view graph).WellFormed)
    (hR : S.ReturnsBelow (S.view graph) R)
    (hends : ∀ {e f}, s.jump? e = some f → DerivableBy S (S.view graph) R e f)
    (hends' : ∀ {e f}, s'.jump? e = some f → DerivableBy S (S.view graph) R e f)
    (e : PathEdge D) : s'.jump? e = s.jump? e := by
  have hback : ∀ {f}, s'.jump? e = some f →
    AtLeast S.problem.functions.Le s e f :=
    fun hf => h.atLeast htwins.isPure hS hwf hR (hends' hf)
  have hforth : ∀ {f}, s.jump? e = some f →
      AtLeast S.problem.functions.Le s' e f := by
    intro f hf
    have hderived := (hends hf).transfer htwins.sameFlows
    have hR' := htwins.returnsBelow hR
    rw [← htwins.view] at hwf hR' hderived
    rw [← htwins.problem]
    exact h'.atLeast htwins.symm.isPure (htwins.isMonotone hS) hwf hR' hderived
  cases hf : s.jump? e with
  | none =>
    cases hf' : s'.jump? e with
    | none => rfl
    | some f' =>
      obtain ⟨f, hsome, _⟩ := hback hf'
      rw [hf] at hsome
      cases hsome
  | some f =>
    obtain ⟨f', hf', hle⟩ := hforth hf
    obtain ⟨f'', hf'', hle'⟩ := hback hf'
    obtain rfl := Option.some.inj (hf.symm.trans hf'')
    rw [hf', hS.ordered.antisymm hle hle']

end Jumps

-- =================================================================== books

section Vocabulary

variable (s s' : State D W L)

/-- The path edges that give reason for everything else are the same,
and so are the graph and the seeds. -/
structure SameEdges : Prop where
  graph : s'.graph = s.graph
  seeds : s'.seeds = s.seeds
  jump? : ∀ e, s'.jump? e = s.jump? e

/-- What one run has written down, the other has too. Lists are
compared as sets: their order tells in which order things were found. -/
structure Within : Prop where
  summaries : ∀ {k w}, s.summaries.get? k = some w →
    s'.summaries.get? k = some w
  callFlows : ∀ {c k ts}, s.callFlows.get? c k = some ts →
    s'.callFlows.get? c k = some ts
  incoming : s.incoming ⊆ s'.incoming
  known : s.known ⊆ s'.known
  facts : s.facts ⊆ s'.facts
  exploded : s.exploded ⊆ s'.exploded

end Vocabulary

section Books

variable {S T : Setup D W L} {I : Icfg} {graph : FlowGraph} {s s' : State D W L}

theorem SameEdges.symm (h : SameEdges s s') : SameEdges s' s :=
  ⟨h.graph.symm, h.seeds.symm, fun e => (h.jump? e).symm⟩

theorem SameEdges.recorded (h : SameEdges s s') {e : PathEdge D}
    (he : Recorded s e) : Recorded s' e := by
  obtain ⟨f, hf⟩ := he
  exact ⟨f, (h.jump? e).trans hf⟩

variable (htwins : S.Twins T) (hedges : SameEdges s s')
variable (hs : Concluded S graph s) (hs' : Concluded T graph s')

include htwins hedges hs hs'

/-- A caller is on record because of a path edge at the call and a call
flow, and both runs have both. -/
private theorem incoming_subset_of_sameEdges : s.incoming ⊆ s'.incoming := by
  intro i hi
  obtain ⟨⟨source, he⟩, g, henter, hentry⟩ := hs.mem_incoming.mp hi
  refine hs'.mem_incoming.mpr ⟨⟨source, hedges.recorded he⟩, g, ?_, ?_⟩
  · rw [htwins.view, hedges.graph]
    exact henter
  · rw [htwins.sameFlows.callTargets]
    exact hentry

/-- A summary is the jump function of a path edge at an exit. -/
private theorem summaries_of_sameEdges {k : SummaryEdge D} {w : W}
    (h : s.summaries.get? k = some w) : s'.summaries.get? k = some w := by
  obtain ⟨hleave, hw⟩ := hs.get?_summaries.mp h
  refine hs'.get?_summaries.mpr ⟨?_, (hedges.jump? _).trans hw⟩
  rw [htwins.view]
  exact hleave

/-- There is reason to evaluate the same flows. -/
private theorem crosses_of_sameEdges {edge : FlowEdge} {d : D}
    {ts : List (D × W)} (h : Crosses S s edge d ts) :
    Crosses T s' edge d ts := by
  have hsame := htwins.sameFlows
  have hview : T.view s'.graph = S.view s.graph := by
    rw [htwins.view, hedges.graph]
  cases h with
  | normal he hcall hexit hm =>
    rw [← hview] at hcall hexit hm
    rw [← hsame.normalTargets]
    exact .normal (hedges.recorded he) hcall hexit hm
  | call he henter =>
    rw [← hview] at henter
    rw [← hsame.callTargets]
    exact .call (hedges.recorded he) henter
  | ret hi hk hstart hentry hr =>
    obtain ⟨w, hw⟩ := hk
    rw [← hview] at hstart hr
    rw [← hsame.returnTargets]
    exact .ret (incoming_subset_of_sameEdges htwins hedges hs hs' hi)
      ⟨w, summaries_of_sameEdges htwins hedges hs hs' hw⟩ hstart hentry hr
  | pass he hcall hr =>
    rw [← hview] at hcall hr
    rw [← hsame.passTargets]
    exact .pass (hedges.recorded he) hcall hr

/-- The same path edges leave the same books. What gives reason for an
entry is listed in `Concluded`, table by table. -/
private theorem within_of_sameEdges : Within s s' where
  summaries := summaries_of_sameEdges htwins hedges hs hs'
  callFlows := by
    intro c k ts h
    obtain ⟨⟨source, he⟩, start, henter, rfl⟩ := hs.get?_callFlows.mp h
    refine hs'.get?_callFlows.mpr ⟨⟨source, hedges.recorded he⟩, start, ?_, ?_⟩
    · rw [htwins.view, hedges.graph]
      exact henter
    · rw [htwins.sameFlows.callTargets]
  incoming := incoming_subset_of_sameEdges htwins hedges hs hs'
  known := by
    rintro ⟨c, g⟩ h
    obtain ⟨⟨source, target, he⟩, hcall, hg⟩ := hs.mem_known.mp h
    refine hs'.mem_known.mpr ⟨⟨source, target, hedges.recorded he⟩, ?_⟩
    rw [htwins.view, hedges.graph]
    exact ⟨hcall, hg⟩
  facts := by
    intro d h
    refine hs'.mem_facts.mpr ?_
    -- zero, a fact of a seed, or a target of a flow that was crossed
    rcases hs.mem_facts.mp h with hzero | ⟨seed, hseed, heq⟩ | ⟨edge, d',
        ts, hx, hmem⟩
    · refine Or.inl ?_
      rw [htwins.problem]
      exact hzero
    · rw [← hedges.seeds] at hseed
      exact Or.inr (Or.inl ⟨seed, hseed, heq⟩)
    · exact Or.inr
        (Or.inr ⟨edge, d', ts,
          crosses_of_sameEdges htwins hedges hs hs' hx, hmem⟩)
  exploded := by
    intro x h
    obtain ⟨hon, edge, d, ts, hx, ht⟩ := hs.mem_exploded.mp h
    refine hs'.mem_exploded.mpr ⟨htwins.recordEdges.trans hon, edge,
        d, ts, ?_, ht⟩
    exact crosses_of_sameEdges htwins hedges hs hs' hx

end Books

end Solver

-- ================================================================== values

namespace Values

open Solver

variable [DecidableEq L]
variable {S T : Setup D W L} {I : Icfg} {s s' : State D W L}
variable {P : Node → D → L → Prop}
variable {settled values values' : Grid Node D L} {n : Node} {d : D} {v u : L}

/-- What is high enough for a value is so for a lower one. -/
theorem Above.lower (hlat : S.problem.lattice.IsSemilattice)
    (h : Above S.Below values n d u) (hle : S.problem.lattice.leq v u = true) :
    Above S.Below values n d v := by
  obtain ⟨x, hx, hux⟩ := h
  exact ⟨x, hx, hlat.leq_trans hle hux⟩

/-- Grids that are below each other hold the same values. -/
private theorem get?_eq_of_above (hlat : S.problem.lattice.IsSemilattice)
    (hle : ∀ {n d v}, values.get? n d = some v → Above S.Below values' n d v)
    (hge : ∀ {n d v}, values'.get? n d = some v → Above S.Below values n d v)
    (n : Node) (d : D) : values'.get? n d = values.get? n d := by
  cases hv : values.get? n d with
  | none =>
    cases hv' : values'.get? n d with
    | none => rfl
    | some v' =>
      obtain ⟨v, hsome, _⟩ := hge hv'
      rw [hv] at hsome
      cases hsome
  | some v =>
    obtain ⟨v', hv', hvv'⟩ := hle hv
    obtain ⟨u, hu, hv'u⟩ := hge hv'
    obtain rfl := Option.some.inj (hv.symm.trans hu)
    rw [hv', hlat.leq_antisymm hvv' hv'u]

/-- The tables of both runs ask for the same values, so the values of
one run are high enough for the tables of the other. -/
theorem Computed.transfer (htwins : S.Twins T) (hedges : SameEdges s s')
    (hwithin : Within s s') (h : Computed T s' T.Below P settled values) :
    Computed S s S.Below P settled values := by
  obtain ⟨problem, config, view, world⟩ := S
  obtain ⟨problem', config', view', world'⟩ := T
  obtain rfl : problem' = problem := htwins.problem
  obtain rfl : view' = view := htwins.view
  refine ⟨fun seed hseed => ?_, fun {n d v} hv => ⟨?_, ?_⟩, ?_,
      h.above, h.backed⟩
  · rw [← hedges.seeds] at hseed
    exact h.seed seed hseed
  · intro p c e w hstart hp hc hw
    rw [← hedges.graph] at hstart hp hc
    exact (h.carried hv).toCall hstart hp hc ((hedges.jump? _).trans hw)
  · intro g st e w hcall hg hst hw
    rw [← hedges.graph] at hcall hst
    refine (h.carried hv).toCallee hcall (hwithin.known hg) hst ?_
    unfold Grid.getD at hw ⊢
    cases hflow : s.callFlows.get? n (g, d) with
    | none =>
      rw [hflow] at hw
      exact absurd hw List.not_mem_nil
    | some ts =>
      rw [hflow] at hw
      rw [hwithin.callFlows hflow]
      exact hw
  · intro n d e v p st w hv hp hst hw
    rw [← hedges.graph] at hp hst
    exact h.along hv hp hst ((hedges.jump? _).trans hw)

end Values

namespace Solver

open Values

variable [DecidableEq W] [DecidableEq L]
variable {S T : Setup D W L} {I : Icfg} {graph : FlowGraph}
variable {s s' s₁ s₁' : State D W L} {fuel fuel' : Nat}
variable {r r' : Results D L} {values? values?' : Option (Grid Node D L)}

/-- The values of a run are below all that its tables ask for. `bound`
is any grid that is high enough, and being below it passes along the
rules. -/
theorem Completed.above_of_computed (h : Completed S fuel graph r s₁ s values?)
    (hS : S.IsMonotone) (hvalues : S.config.computeValues = true)
    {P : Node → D → L → Prop} {settled bound : Grid Node D L}
    (hbound : Computed S s S.Below P settled bound) :
    ∃ values, values? = some values ∧
      ∀ {n d v}, values.get? n d = some v → Above S.Below bound n d v := by
  have hlat := hS.isSemilattice
  have hjoin : ∀ {values : Grid Node D L} {n d v u},
      Above S.Below values n d v → Above S.Below values n d u →
      Above S.Below values n d (S.problem.lattice.join v u) := by
    intro values n d v u hv hu
    obtain ⟨x, hx, hvx⟩ := hv
    obtain ⟨y, hy, huy⟩ := hu
    obtain rfl := Option.some.inj (hx.symm.trans hy)
    exact ⟨x, hx, hlat.join_leq hvx huy⟩
  -- below `settled` before the last sweep, and below `bound` after it
  have hsettling : IsSettling S s (Above S.Below settled) := by
    refine ⟨hbound.seed, hjoin, ?_, ?_⟩
    · intro n d v p c e w hv hstart hp hc hw
      obtain ⟨x, hx, hle⟩ := hv
      exact ((hbound.carried hx).toCall hstart hp hc hw).lower hlat
        (hS.eval_mono w hle)
    · intro n d v g st e w hv hcall hg hst hw
      obtain ⟨x, hx, hle⟩ := hv
      exact ((hbound.carried hx).toCallee hcall hg hst hw).lower hlat
        (hS.eval_mono w hle)
  have hspreading : IsSpreading S s (Above S.Below settled)
      (Above S.Below bound) := by
    refine ⟨fun hv => ?_, hjoin, ?_⟩
    · obtain ⟨x, hx, hle⟩ := hv
      exact (hbound.above hx).lower hlat hle
    · intro n d e v p st w hv hp hst hw
      obtain ⟨x, hx, hle⟩ := hv
      exact (hbound.along hx hp hst hw).lower hlat (hS.eval_mono w hle)
  obtain ⟨_, values, hsome, hcomputed⟩ :=
    h.computed_of hvalues hlat.isJoinOrder hsettling hspreading
  exact ⟨values, hsome, hcomputed.backed⟩

/-- The values of one run are below those of the other. -/
theorem Completed.above_of_twin (h : Completed S fuel graph r s₁ s values?)
    (h' : Completed T fuel' graph r' s₁' s' values?') (htwins : S.Twins T)
    (hS : S.IsMonotone) (hedges : SameEdges s s') (hwithin : Within s s')
    (hvalues : S.config.computeValues = true) :
    ∃ values values', values? = some values ∧ values?' = some values' ∧
      ∀ {n d v}, values.get? n d = some v → Above S.Below values' n d v := by
  -- of the other run only the lower bound is asked for, so anything may be said
  -- of its values
  obtain ⟨settled, values', hsome', hcomputed⟩ := h'.computed
    (htwins.computeValues.trans hvalues)
    (htwins.isMonotone hS).isSemilattice.isJoinOrder
    (isBacking_trivial T s')
  obtain ⟨values, hsome, habove⟩ := h.above_of_computed hS hvalues
    (hcomputed.transfer htwins hedges hwithin)
  exact ⟨values, values', hsome, hsome', habove⟩

/-- Without values, every fact reached is reported with the top. -/
theorem Completed.values?_eq_none (h : Completed S fuel graph r s₁ s values?)
    (hoff : S.config.computeValues = false) : values? = none := by
  obtain ⟨_, hphase⟩ := h.valued
  exact eq_none_of_valuePhase (fun _ => hoff) hphase

/-- Both runs report the same value for a fact at a node: each is below
the other, or both have none. -/
theorem Completed.reportedValue_eq (h : Completed S fuel graph r s₁ s values?)
    (h' : Completed T fuel' graph r' s₁' s' values?') (htwins : S.Twins T)
    (hS : S.IsMonotone) (hedges : SameEdges s s') (hforth : Within s s')
    (hback : Within s' s) (n : Node) (d : D) :
    reportedValue T values?' n d = reportedValue S values? n d := by
  cases hvalues : S.config.computeValues with
  | false =>
    rw [h.values?_eq_none hvalues,
        h'.values?_eq_none (htwins.computeValues.trans hvalues)]
    unfold reportedValue
    rw [htwins.problem]
  | true =>
    obtain ⟨values, values', rfl, rfl, hle⟩ :=
      h.above_of_twin h' htwins hS hedges hforth
      hvalues
    obtain ⟨_, _, hsome', hsome, hge⟩ :=
      h'.above_of_twin h htwins.symm (htwins.isMonotone hS) hedges.symm hback
      (htwins.computeValues.trans hvalues)
    obtain rfl := Option.some.inj hsome
    obtain rfl := Option.some.inj hsome'
    have hge' : ∀ {n d v}, values'.get? n d = some v →
        Above S.Below values n d v := by
      intro n d v hv
      obtain ⟨u, hu, hvu⟩ := hge hv
      unfold Setup.Below at hvu
      rw [htwins.problem] at hvu
      exact ⟨u, hu, hvu⟩
    have heq := get?_eq_of_above hS.isSemilattice hle hge' n d
    unfold reportedValue
    dsimp only
    rw [Grid.getD, Grid.getD, heq, htwins.problem]

-- ================================================================== results

/-- The results say of the tables how large they are. -/
structure Tallied (r : Results D L) (s : State D W L) : Prop where
  exploded : r.exploded = s.exploded.reverse
  pathEdges : r.statistics.pathEdges = s.jumps.size
  summaryEdges : r.statistics.summaryEdges = s.summaries.size
  incomingEdges : r.statistics.incomingEdges = s.stats.incomingEdges
  bodilessCallees : r.statistics.bodilessCallees = s.stats.bodilessCallees
  internedFacts : r.statistics.internedFacts = s.facts.length

/-- The counts in the results of a complete run are the sizes of its
tables. -/
theorem Completed.tallied (h : Completed S fuel graph r s₁ s values?)
    (hrun : (solve S fuel graph).1 = .ok r) : Tallied r s := by
  obtain ⟨s₁', s₂, s₃, status, values, hbegin, hloop, hvalues, hreport, _⟩ :=
    parts_of_solve hrun
  cases h.begun.symm.trans hbegin
  cases h.looped.symm.trans hloop
  -- of what is handed out, the value phase only moves the count of its own
  -- steps
  obtain ⟨_, rfl⟩ := eq_of_valuePhase hvalues
  obtain ⟨_, _, _, hstatistics, hexploded, _⟩ := eq_of_report hreport
  refine ⟨hexploded, ?_, ?_, ?_, ?_, ?_⟩ <;> rw [hstatistics] <;> rfl

/-- Larger books have larger counts. Counters that depend on the order,
such as the number of iterations, are left out. -/
structure CountsLe (s s' : State D W L) : Prop where
  jumps : s.jumps.size ≤ s'.jumps.size
  summaries : s.summaries.size ≤ s'.summaries.size
  incomingEdges : s.stats.incomingEdges ≤ s'.stats.incomingEdges
  bodilessCallees : s.stats.bodilessCallees ≤ s'.stats.bodilessCallees
  facts : s.facts.length ≤ s'.facts.length

omit [DecidableEq W] [DecidableEq L] in
/-- Sizes can be compared because no table holds anything twice. -/
theorem Within.countsLe (htwins : S.Twins T) (hedges : SameEdges s s')
    (hs : Concluded S graph s) (hs' : Concluded T graph s') (h : Within s s') :
    CountsLe s s' where
  jumps := by
    refine Grid.size_le fun {n k w} hw => ?_
    exact (hedges.jump? ⟨k.1, n, k.2⟩).trans hw
  summaries := Table.size_le h.summaries
  incomingEdges := by
    rw [hs.accounted.counted.incomingEdges, hs'.accounted.counted.incomingEdges]
    exact (hs.accounted.counted.nodup_incoming.subperm h.incoming).length_le
  bodilessCallees := by
    rw [hs.accounted.bodiless, hs'.accounted.bodiless, htwins.view]
    refine ((hs.accounted.counted.nodup_known.filter _).subperm ?_).length_le
    exact List.filter_subset _ h.known
  facts := (hs.accounted.counted.nodup_facts.subperm h.facts).length_le

end Solver

-- =============================================================== agreement

/-- The results say the same, but for what tells of the order in which
they were found. Facts and values are compared at every node, exploded
edges as a set. -/
structure Results.Agree (r r' : Results D L) : Prop where
  holdsFact : ∀ n d, r'.holdsFact n d = r.holdsFact n d
  resultAt : ∀ n d, r'.resultAt n d = r.resultAt n d
  exploded : ∀ x, x ∈ r'.exploded ↔ x ∈ r.exploded
  pathEdges : r'.statistics.pathEdges = r.statistics.pathEdges
  summaryEdges : r'.statistics.summaryEdges = r.statistics.summaryEdges
  incomingEdges : r'.statistics.incomingEdges = r.statistics.incomingEdges
  bodilessCallees : r'.statistics.bodilessCallees = r.statistics.bodilessCallees
  internedFacts : r'.statistics.internedFacts = r.statistics.internedFacts

namespace Solver

variable [DecidableEq W] [DecidableEq L]
variable {S T : Setup D W L} {graph : FlowGraph} {s s' s₁ s₁' : State D W L}
variable {fuel fuel' : Nat}
variable {r r' : Results D L} {values? values?' : Option (Grid Node D L)}

variable {R : W → W → W → W → W → Prop}

/-- All that a complete run has found follows by the rules, with
returns that come to what `R` allows. It speaks of this run and not of
all that could follow. -/
structure FoundBy (S : Setup D W L) (fuel : Nat) (graph : FlowGraph)
    (R : W → W → W → W → W → Prop) : Prop where
  derivable : ∀ {r s}, run S fuel (State.start S graph) = .ok r s →
    r.status = .complete →
    ∀ {e f}, s.jump? e = some f → DerivableBy S (S.view graph) R e f

/-- The phases after the first leave the jump functions as they are. -/
theorem Completed.derivableBy (h : Completed S fuel graph r s₁ s values?)
    (hrun : (solve S fuel graph).1 = .ok r) (hcomplete : r.status = .complete)
    (hfound : FoundBy S fuel graph R) {e : PathEdge D} {f : W}
    (hf : s.jump? e = some f) : DerivableBy S (S.view graph) R e f := by
  obtain ⟨s', hrun', _⟩ := exists_run_of_solve hrun
  obtain ⟨_, _, _, _, _, hbegin, hloop, hvalues, hreport⟩ := parts_of_run hrun'
  cases h.begun.symm.trans hbegin
  cases h.looped.symm.trans hloop
  obtain ⟨_, rfl⟩ := eq_of_valuePhase hvalues
  obtain ⟨_, _, _, _, _, rfl⟩ := eq_of_report hreport
  exact hfound.derivable hrun' hcomplete hf

/-- What a run has found follows by the rules, whichever way returns
were composed. So `S.Returns` can always be taken for `R`. -/
theorem foundBy_returns (hpure : S.problem.IsPure)
    (hwf : (S.view graph).WellFormed) (fuel : Nat) :
    FoundBy S fuel graph S.Returns := by
  refine ⟨fun {r s} hrun hcomplete {e f} hf => ?_⟩
  obtain ⟨_, _, _, _, _, hbegin, hloop, hvalues, hreport⟩ := parts_of_run hrun
  obtain ⟨_, hstatus, _, _, _, rfl⟩ := eq_of_report hreport
  obtain rfl := hstatus.symm.trans hcomplete
  obtain ⟨_, rfl⟩ := eq_of_valuePhase hvalues
  obtain ⟨_, _, hfinished⟩ := saturated_of_isPure isGrowthOrder_trivial hpure
    hwf.start_owned hbegin hloop
  have hderivable := hfinished.sound.jump hf
  rw [hfinished.graph_eq hpure] at hderivable
  exact hderivable

omit [DecidableEq W] [DecidableEq L] in
/-- Complete runs on one graph have the same graph and seeds anyway, so
it is the jump functions that count. -/
theorem Concluded.sameEdges (hs : Concluded S graph s)
    (hs' : Concluded T graph s') (htwins : S.Twins T)
    (hjump : ∀ e, s'.jump? e = s.jump? e) : SameEdges s s' where
  graph := by rw [hs.accounted.graph_eq, hs'.accounted.graph_eq]
  seeds := by
    obtain ⟨_, hfinished⟩ := hs.exists_finished
    obtain ⟨_, hfinished'⟩ := hs'.exists_finished
    rw [hfinished.seeds_eq, hfinished'.seeds_eq, htwins.view,
        htwins.sameFlows.seedsOn]
  jump? := hjump

/-- The rows of two runs are the same if the values they report are. -/
theorem Completed.value?_eq (h : Completed S fuel graph r s₁ s values?)
    (h' : Completed T fuel' graph r' s₁' s' values?') (hedges : SameEdges s s')
    (hvalue : ∀ n d, reportedValue T values?' n d = reportedValue S values? n d)
    (n : Node) (d : D) : r'.value? n d = r.value? n d := by
  refine Option.ext fun v => ?_
  rw [h.value?_eq_some, h'.value?_eq_some, hvalue]
  simp only [hedges.jump?]

/-- Complete runs of one problem have found the same, if what each has
made of returns is below what the other may have made of them. First
the jump functions are compared, then the books, then the values. -/
theorem agree_of_twins (htwins : S.Twins T) (hS : S.IsMonotone)
    (hR : S.ReturnsBelow (S.view graph) R)
    (hfound : FoundBy S fuel graph R) (hfound' : FoundBy T fuel' graph R)
    (hwf : (S.view graph).WellFormed)
    (honce : ∀ c, ((S.view graph).callees c).Nodup)
    (hrun : (solve S fuel graph).1 = .ok r) (hcomplete : r.status = .complete)
    (hrun' : (solve T fuel' graph).1 = .ok r')
    (hcomplete' : r'.status = .complete) : r.Agree r' := by
  obtain ⟨s₁, s, values?, h⟩ := completed_of_solve hrun hcomplete
  obtain ⟨s₁', s', values?', h'⟩ := completed_of_solve hrun' hcomplete'
  have hs := concluded_of_tabulate htwins.isPure hwf honce h.begun h.looped
  have hs' : Concluded T graph s' := by
    refine concluded_of_tabulate htwins.symm.isPure ?_ ?_ h'.begun h'.looped
    · rw [htwins.view]
      exact hwf
    · rw [htwins.view]
      exact honce
  -- what the second run holds follows by the rules of the first
  have hends : ∀ {e f}, s'.jump? e = some f →
      DerivableBy S (S.view graph) R e f := by
    intro e f hf
    have hderived := h'.derivableBy hrun' hcomplete' hfound' hf
    rw [htwins.view] at hderived
    exact hderived.transfer htwins.symm.sameFlows
  have hjump := h.jump?_eq h' htwins hS hwf hR
    (h.derivableBy hrun hcomplete hfound) hends
  -- the jump functions agree, and all other tables are determined by
  -- them, up to the order of their entries
  have hedges := hs.sameEdges hs' htwins hjump
  have hforth := within_of_sameEdges htwins hedges hs hs'
  have hback := within_of_sameEdges htwins.symm hedges.symm hs' hs
  have hle := hforth.countsLe htwins hedges hs hs'
  have hge := hback.countsLe htwins.symm hedges.symm hs' hs
  have hreported := h.reportedValue_eq h' htwins hS hedges hforth hback
  have hvalue := h.value?_eq h' hedges hreported
  have htally := h.tallied hrun
  have htally' := h'.tallied hrun'
  refine ⟨fun n d => ?_, fun n d => ?_, fun x => ?_, ?_, ?_, ?_, ?_, ?_⟩
  · rw [Results.holdsFact, Results.holdsFact, hvalue, hcomplete, hcomplete']
  · rw [Results.resultAt, Results.resultAt, hvalue, h.bottom_eq, h'.bottom_eq,
        htwins.problem]
  · rw [htally.exploded, htally'.exploded, List.mem_reverse, List.mem_reverse]
    exact ⟨fun hx => hback.exploded hx, fun hx => hforth.exploded hx⟩
  · rw [htally.pathEdges, htally'.pathEdges]
    exact Nat.le_antisymm hge.jumps hle.jumps
  · rw [htally.summaryEdges, htally'.summaryEdges]
    exact Nat.le_antisymm hge.summaries hle.summaries
  · rw [htally.incomingEdges, htally'.incomingEdges]
    exact Nat.le_antisymm hge.incomingEdges hle.incomingEdges
  · rw [htally.bodilessCallees, htally'.bodilessCallees]
    exact Nat.le_antisymm hge.bodilessCallees hle.bodilessCallees
  · rw [htally.internedFacts, htally'.internedFacts]
    exact Nat.le_antisymm hge.facts hle.facts

/-- For a determinate problem the runs need not be looked at. -/
theorem agree_of_isDeterminate (htwins : S.Twins T)
    (hS : S.IsDeterminate (S.view graph)) (hwf : (S.view graph).WellFormed)
    (honce : ∀ c, ((S.view graph).callees c).Nodup)
    (hrun : (solve S fuel graph).1 = .ok r) (hcomplete : r.status = .complete)
    (hrun' : (solve T fuel' graph).1 = .ok r')
    (hcomplete' : r'.status = .complete) : r.Agree r' := by
  have hwf' : (T.view graph).WellFormed := by
    rw [htwins.view]
    exact hwf
  have hfound := foundBy_returns htwins.symm.isPure hwf' fuel'
  have hfound' : FoundBy T fuel' graph S.Returns := by
    refine ⟨fun {_ _} hrun hcomplete {_ _} hf => ?_⟩
    exact (hfound.derivable hrun hcomplete hf).imp fun _ _ _ _ _ _ _ =>
      htwins.returns_iff.mp
  exact agree_of_twins htwins hS.toIsMonotone hS.returnsBelow
    (foundBy_returns htwins.isPure hwf fuel) hfound' hwf honce hrun hcomplete
    hrun' hcomplete'

end Solver

end Tabulation
