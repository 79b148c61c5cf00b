/-
From the rules back to paths.

A path edge claims that its target follows from its source inside one
procedure, with every call on the way returned from. Here that is made
good: a derivable path edge is backed by paths of the exploded
supergraph that begin at the start of the procedure and come back to
the same open calls (`SameLevel`).

# What a jump function stands for

Which paths a jump function stands for depends on how functions are
read. `IsSpanning` collects what a reading has to satisfy: identity
stands for the empty path, an edge function for its one step, a
composition for paths put end to end, and a join for what both sides
stand for. `Derivable.spans` then says that the jump function of a
derivable path edge stands for same-level paths. Two readings are used:
a function stands for some path at all (`isSpanning_exists`), which is
what reachability asks for; and a function evaluates to the join of the
values along its paths, where edge functions are distributive.
-/
import Tabulation.Flow.WellFormed
import Tabulation.Proofs.Deduction

namespace Tabulation

-- ============================================== the start above a node

namespace Icfg

variable {I : Icfg}

/-- The start of the procedure that owns a node. -/
def startOf? (I : Icfg) (n : Node) : Option Node := (I.procOf? n).bind I.start?

theorem startOf?_eq_some {n st : Node} :
    I.startOf? n = some st ↔ ∃ p, I.procOf? n = some p ∧ I.start? p = some st :=
  Option.bind_eq_some_iff

theorem startOf?_of_isStart? {n : Node} (h : I.isStart? n = some true) :
    I.startOf? n = some n := by
  obtain ⟨p, hp, hstart⟩ := Option.map_eq_some_iff.mp h
  exact startOf?_eq_some.mpr ⟨p, hp, of_decide_eq_true hstart⟩

namespace WellFormed

variable {n m st : Node}

/-- Normal edges do not leave a procedure, so the start above stays the
same. -/
theorem startOf?_successor (hwf : I.WellFormed) (h : I.startOf? n = some st)
    (hm : m ∈ I.successors n) : I.startOf? m = some st := by
  obtain ⟨p, hp, hst⟩ := startOf?_eq_some.mp h
  exact startOf?_eq_some.mpr ⟨p, hwf.successor_owned hp hm, hst⟩

theorem startOf?_returnSite (hwf : I.WellFormed) (h : I.startOf? n = some st)
    (hm : I.returnSite? n = some m) : I.startOf? m = some st := by
  obtain ⟨p, hp, hst⟩ := startOf?_eq_some.mp h
  exact startOf?_eq_some.mpr ⟨p, hwf.returnSite_owned hp hm, hst⟩

theorem startOf?_start (hwf : I.WellFormed) {g : Proc}
    (h : I.start? g = some st) : I.startOf? st = some st :=
  startOf?_eq_some.mpr ⟨g, hwf.start_owned h, h⟩

/-- Whether a graph is well formed does not depend on the callees. -/
theorem grow {J : Icfg} (hwf : I.WellFormed) (h : I.GrowsTo J) :
    J.WellFormed where
  start_owned := by
    rw [h.start?, h.procOf?]
    exact hwf.start_owned
  successor_owned := by
    rw [h.successors, h.procOf?]
    exact hwf.successor_owned
  returnSite_owned := by
    rw [h.returnSite?, h.procOf?]
    exact hwf.returnSite_owned
  call_listed := by
    rw [h.isCall, h.procOf?, h.callsWithin]
    exact hwf.call_listed
  exit_known := by
    rw [h.isExit?, h.procOf?]
    exact hwf.exit_known

end WellFormed

/-- Above an exit there is the start by which its procedure is entered. -/
theorem Enters.startOf?_exit {c s x : Node} {g : Proc} (h : I.Enters c g s)
    (hleave : I.Leaves x g) : I.startOf? x = some s :=
  startOf?_eq_some.mpr ⟨g, hleave.procOf, h.start⟩

end Icfg

namespace Supergraph

variable {D W L : Type} [DecidableEq D] {S : Setup D W L} {I : Icfg}

-- ======================================================= composing paths

/-- Paths can be put end to end. -/
theorem Path.trans {a b c : Place D} {ws vs : List W} (h : Path S I a ws b)
    (h' : Path S I b vs c) : Path S I a (ws ++ vs) c := by
  induction h' with
  | here =>
    rw [List.append_nil]
    exact h
  | snoc _ hstep ih =>
    rw [← List.append_assoc]
    exact .snoc ih hstep

variable (S I) in
/-- Paths that lead from a fact at a node to a fact at a node under the
same open calls, whichever these are. Calls on the way are returned
from. -/
def SameLevel (n : Node) (d : D) (m : Node) (e : D) (ws : List W) : Prop :=
  ∀ k, Path S I ⟨n, d, k⟩ ws ⟨m, e, k⟩

namespace SameLevel

variable {n m c r s x : Node} {d e d₁ d₂ t : D} {ws vs : List W} {w v : W}
variable {g : Proc}

theorem here : SameLevel S I n d n d [] := fun _ => .here

theorem normal (h : SameLevel S I n d₁ m d ws) (hcall : I.isCall m = false)
    (hexit : I.isExit? m = some false) (hr : r ∈ I.successors m)
    (hw : (e, w) ∈ S.normalTargets m r d) :
    SameLevel S I n d₁ r e (ws ++ [w]) :=
  fun k => .snoc (h k) (.normal hcall hexit hr hw)

theorem pass (h : SameLevel S I n d₁ c d ws) (hcall : I.isCall c = true)
    (hr : I.returnSite? c = some r) (hw : (e, w) ∈ S.passTargets c r d) :
    SameLevel S I n d₁ r e (ws ++ [w]) :=
  fun k => .snoc (h k) (.pass hcall hr hw)

/-- Into a callee, through it, and back. Inside, the call is open on
top of those that were. -/
theorem throughCall (h : SameLevel S I n d₁ c d ws) (henter : I.Enters c g s)
    (hw : (e, w) ∈ S.callTargets c g s d) (h' : SameLevel S I s e x d₂ vs)
    (hleave : I.Leaves x g) (hr : I.returnSite? c = some r)
    (hv : (t, v) ∈ S.returnTargets c g x r d₂ d) :
    SameLevel S I n d₁ r t (ws ++ [w] ++ vs ++ [v]) := by
  intro k
  have hin : Path S I ⟨n, d₁, k⟩ (ws ++ [w]) ⟨s, e, ⟨c, d⟩ :: k⟩ :=
    .snoc (h k) (.call henter.isCall henter.callee henter.start hw)
  have hacross := hin.trans (h' (⟨c, d⟩ :: k))
  exact .snoc hacross (.ret hleave.notCall hleave.isExit hleave.procOf hr hv)

end SameLevel

end Supergraph

-- ================================================================ readings

/-- A reading of edge functions by the paths they stand for. `Spans f
P` says that `f` stands for paths of the kind `P`. -/
structure Setup.IsSpanning {D W L : Type} (S : Setup D W L)
    (Spans : W → (List W → Prop) → Prop) : Prop where
  identity : ∀ {P}, P [] → Spans S.identity P
  weight : ∀ {w P}, P [w] → Spans w P
  comp : ∀ {f g P Q R}, Spans f P → Spans g Q →
    (∀ {ws vs}, P ws → Q vs → R (ws ++ vs)) → Spans (S.comp f g) R
  join : ∀ {f g P}, Spans f P → Spans g P →
    Spans (S.problem.functions.join f g) P

namespace Setup.IsSpanning

variable {D W L : Type} {S : Setup D W L} {Spans : W → (List W → Prop) → Prop}
variable {P Q R : List W → Prop} {f g w : W}

/-- A composition with one edge function at the end. -/
theorem snoc (h : S.IsSpanning Spans) (hf : Spans f P)
    (hR : ∀ {ws}, P ws → R (ws ++ [w])) : Spans (S.comp f w) R := by
  refine h.comp hf (h.weight (P := fun vs => vs = [w]) rfl)
    fun {ws vs} hws hvs => ?_
  rw [hvs]
  exact hR hws

theorem cons (h : S.IsSpanning Spans) (hg : Spans g Q)
    (hR : ∀ {vs}, Q vs → R ([w] ++ vs)) : Spans (S.comp w g) R := by
  refine h.comp (h.weight (P := fun ws => ws = [w]) rfl) hg
    fun {ws vs} hws hvs => ?_
  rw [hws]
  exact hR hvs

end Setup.IsSpanning

/-- A function may be read as standing for some path or other. -/
theorem Setup.isSpanning_exists {D W L : Type} (S : Setup D W L) :
    S.IsSpanning fun _ P => ∃ ws, P ws where
  identity := fun h => ⟨[], h⟩
  weight := fun {w _} h => ⟨[w], h⟩
  comp := fun ⟨ws, hws⟩ ⟨vs, hvs⟩ hR => ⟨ws ++ vs, hR hws hvs⟩
  join := fun h _ => h

namespace Supergraph

variable {D W L : Type} [DecidableEq D] {S : Setup D W L} {I : Icfg}

/-- The jump function of a derivable path edge stands for same-level
paths from the start of the procedure. The induction follows the rules;
a return is the one rule with two ways to compose. -/
theorem Derivable.spans (hwf : I.WellFormed)
    (hseeds : ∀ seed ∈ S.seedsOn I, I.isStart? seed.node = some true)
    {Spans : W → (List W → Prop) → Prop} (hspan : S.IsSpanning Spans)
    {e : PathEdge D} {f : W} (h : Derivable S I e f) :
    ∃ st, I.startOf? e.node = some st ∧
    Spans f (SameLevel S I st e.source e.node e.target) := by
  induction h with
  | seed hseed =>
    exact ⟨_, Icfg.startOf?_of_isStart? (hseeds _ hseed), hspan.identity .here⟩
  | normal _ hcall hexit hsucc hw ih =>
    obtain ⟨st, hst, hf⟩ := ih
    exact ⟨st, hwf.startOf?_successor hst hsucc,
      hspan.snoc hf fun hws => hws.normal hcall hexit hsucc hw⟩
  | pass _ hcall hret hw ih =>
    obtain ⟨st, hst, hf⟩ := ih
    exact ⟨st, hwf.startOf?_returnSite hst hret, hspan.snoc hf fun hws =>
        hws.pass hcall hret hw⟩
  | entry _ henter _ _ =>
    exact ⟨_, hwf.startOf?_start henter.start, hspan.identity .here⟩
  | @ret d₁ d e d₂ t c s x r g f w h v u _ henter hw _ hleave hret hv
    hu ihf ihh =>
    obtain ⟨st, hst, hf⟩ := ihf
    obtain ⟨st', hst', hh⟩ := ihh
    obtain rfl :=
      Option.some.inj ((henter.startOf?_exit hleave).symm.trans hst')
    refine ⟨st, hwf.startOf?_returnSite hst hret, ?_⟩
    cases hu with
    -- from the left: the caller's path, the call, the callee's path, the return
    | atCall =>
      have hin : Spans (S.comp f w) fun us =>
          ∃ ws, SameLevel S I st d₁ c d ws ∧ us = ws ++ [w] :=
        hspan.snoc hf fun hws => ⟨_, hws, rfl⟩
      have hacross : Spans (S.comp (S.comp f w) h) fun us => ∃ ws vs,
          SameLevel S I st d₁ c d ws ∧ SameLevel S I s e x d₂ vs ∧
            us = ws ++ [w] ++ vs := by
        refine hspan.comp hin hh fun hws hvs => ?_
        obtain ⟨ws, hws, rfl⟩ := hws
        exact ⟨ws, _, hws, hvs, rfl⟩
      refine hspan.snoc hacross fun hus => ?_
      obtain ⟨ws, vs, hws, hvs, rfl⟩ := hus
      exact hws.throughCall henter hw hvs hleave hret hv
    -- the middle first, and then behind the caller's path
    | atExit =>
      have hacross : Spans (S.comp w h) fun us =>
          ∃ vs, SameLevel S I s e x d₂ vs ∧ us = [w] ++ vs :=
        hspan.cons hh fun hvs => ⟨_, hvs, rfl⟩
      have hback : Spans (S.comp (S.comp w h) v) fun us => ∃ vs,
          SameLevel S I s e x d₂ vs ∧ us = [w] ++ vs ++ [v] := by
        refine hspan.snoc hacross fun hus => ?_
        obtain ⟨vs, hvs, rfl⟩ := hus
        exact ⟨vs, hvs, rfl⟩
      refine hspan.comp hf hback fun {ws us} hws hus => ?_
      obtain ⟨vs, hvs, rfl⟩ := hus
      rw [← List.append_assoc, ← List.append_assoc]
      exact hws.throughCall henter hw hvs hleave hret hv
  | join _ _ ihf ihg =>
    obtain ⟨st, hst, hf⟩ := ihf
    obtain ⟨st', hst', hg⟩ := ihg
    obtain rfl := Option.some.inj (hst.symm.trans hst')
    exact ⟨st, hst, hspan.join hf hg⟩

/-- The target of a derivable path edge can be reached: some path leads
to the start with the fact there, and goes on inside the procedure. -/
theorem Derivable.reaches (hwf : I.WellFormed)
    (hseeds : ∀ seed ∈ S.seedsOn I, I.isStart? seed.node = some true)
    {e : PathEdge D} {f : W} (h : Derivable S I e f) :
    Reaches S I e.node e.target := by
  induction h with
  | seed hseed => exact ⟨_, hseed, [], [], .here⟩
  | normal _ hcall hexit hsucc hw ih =>
    obtain ⟨seed, hseed, ws, k, hpath⟩ := ih
    exact ⟨seed, hseed, _, k, hpath.snoc (.normal hcall hexit hsucc hw)⟩
  | pass _ hcall hret hw ih =>
    obtain ⟨seed, hseed, ws, k, hpath⟩ := ih
    exact ⟨seed, hseed, _, k, hpath.snoc (.pass hcall hret hw)⟩
  | entry _ henter hw ih =>
    obtain ⟨seed, hseed, ws, k, hpath⟩ := ih
    exact ⟨seed, hseed, _, _,
        hpath.snoc (.call henter.isCall henter.callee henter.start hw)⟩
  | ret _ henter hw hh hleave hret hv _ ihf _ =>
    obtain ⟨seed, hseed, ws, k, hpath⟩ := ihf
    obtain ⟨st, hst, vs, hvs⟩ :=
      Derivable.spans hwf hseeds S.isSpanning_exists hh
    obtain rfl := Option.some.inj ((henter.startOf?_exit hleave).symm.trans hst)
    have hacross := SameLevel.throughCall .here henter hw hvs hleave hret hv
    exact ⟨seed, hseed, _, k, hpath.trans (hacross k)⟩
  | join _ _ ihf _ => exact ihf

end Supergraph

end Tabulation
