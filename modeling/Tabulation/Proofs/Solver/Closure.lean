/-
What a finished first phase leaves: tables that are closed under the
rules.

Two kinds of rules are kept apart. Those with one path edge among their
premises concern that edge alone (`Followed`): along a normal edge,
past a call, into a callee, and from an exit into the summaries. A
return has two, the path edge of the caller and that of the exit
(`Returned`), and it is carried out by whichever of the two is followed
last.

# The invariant

`Closed` says that the rules hold of all path edges but the pending
ones. Taking an edge off the worklist breaks it at that edge, and
following the edge mends it: what was already followed stays followed,
because tables only grow and a path edge whose jump function changes is
pending again. When nothing is pending, the rules hold throughout.

# The callees that were met

A path edge to a call enters the callees that its call site has at that
moment, and later ones only if it is taken again. `met` says which
callees each path edge has met. Where the call graph stays as it is,
every path edge that was followed has met all of them.
-/
import Tabulation.Proofs.Solver.Following

namespace Tabulation.Solver

open Supergraph

variable {D W L : Type} [DecidableEq D]

section Rules

variable (S : Setup D W L) (le : W → W → Prop)

/-- The rules that ask for nothing but the path edge `e` with its jump
function. `met` are the callees whose entry is asked for. -/
structure Followed (s : State D W L) (I : Icfg) (met : Proc → Prop)
    (e : PathEdge D) (f : W) : Prop where
  normal : I.isCall e.node = false → I.isExit? e.node = some false →
    ∀ m ∈ I.successors e.node, ∀ t ∈ S.normalTargets e.node m e.target,
      AtLeast le s ⟨e.source, m, t.1⟩ (S.comp f t.2)
  exit : ∀ {g}, I.Leaves e.node g →
    s.summaries.get? ⟨g, e.source, e.node, e.target⟩ = some f
  pass : I.isCall e.node = true → ∀ {r}, I.returnSite? e.node = some r →
    ∀ t ∈ S.passTargets e.node r e.target, AtLeast le s ⟨e.source, r, t.1⟩
      (S.comp f t.2)
  known : I.isCall e.node = true → ∀ {g}, met g → (e.node, g) ∈ s.known
  callFlow : I.isCall e.node = true → ∀ {g start}, met g →
    I.start? g = some start → s.callFlows.get? e.node (g, e.target) =
    some (S.callTargets e.node g start e.target)
  entry : I.isCall e.node = true → ∀ {g start}, met g →
    I.start? g = some start → ∀ t ∈ S.callTargets e.node g start e.target,
      AtLeast le s ⟨t.1, start, t.1⟩ S.identity ∧
      ⟨start, t.1, e.node, e.target⟩ ∈ s.incoming

/-- The rule of a return to the path edge `e` of a caller from the path
edge `x` of an exit. It is met in one of two ways, since the caller and
the exit compose the return differently. -/
def Returned (s : State D W L) (I : Icfg) (met : Proc → Prop) (e : PathEdge D)
    (f : W) (x : PathEdge D) (h : W) : Prop :=
  ∀ {g start r w}, I.isCall e.node = true → met g → I.start? g = some start →
    (x.source, w) ∈ S.callTargets e.node g start e.target → I.Leaves x.node g →
    I.returnSite? e.node = some r →
    ∀ u ∈ S.returnTargets e.node g x.node r x.target e.target,
      AtLeast le s ⟨e.source, r, u.1⟩ (S.comp (S.comp (S.comp f w) h) u.2) ∨
        AtLeast le s ⟨e.source, r, u.1⟩ (S.comp f (S.comp (S.comp w h) u.2))

/-- The rules hold of all path edges but the pending ones. For a
return, neither of its two path edges may be pending. -/
structure Closed (met : PathEdge D → Proc → Prop) (pending : PathEdge D → Prop)
    (s : State D W L) : Prop where
  followed : ∀ {e f}, s.jump? e = some f → ¬pending e →
    Followed S le s (S.view s.graph) (met e) e f
  returned : ∀ {e f x h}, s.jump? e = some f → s.jump? x = some h → ¬pending e →
    ¬pending x → Returned S le s (S.view s.graph) (met e) e f x h

/-- The rules hold throughout, at the callees that call sites have in
the end. -/
def Saturated (s : State D W L) : Prop :=
  Closed S le (fun e g => g ∈ (S.view s.graph).callees e.node)
    (fun _ => False) s

/-- The path edges alone are closed under the rules, whatever the other
tables hold. This is all that completeness needs of a finished run. -/
structure Stable (s : State D W L) : Prop where
  normal : ∀ {e f m t}, s.jump? e = some f →
    (S.view s.graph).isCall e.node = false →
    (S.view s.graph).isExit? e.node = some false →
    m ∈ (S.view s.graph).successors e.node →
    t ∈ S.normalTargets e.node m e.target →
    AtLeast le s ⟨e.source, m, t.1⟩ (S.comp f t.2)
  pass : ∀ {e f r t}, s.jump? e = some f →
    (S.view s.graph).isCall e.node = true →
    (S.view s.graph).returnSite? e.node = some r →
    t ∈ S.passTargets e.node r e.target →
    AtLeast le s ⟨e.source, r, t.1⟩ (S.comp f t.2)
  entry : ∀ {e f g start t}, s.jump? e = some f →
    (S.view s.graph).Enters e.node g start →
    t ∈ S.callTargets e.node g start e.target →
    AtLeast le s ⟨t.1, start, t.1⟩ S.identity
  returned : ∀ {e f x h g start r w u}, s.jump? e = some f →
    s.jump? x = some h → (S.view s.graph).Enters e.node g start →
    (x.source, w) ∈ S.callTargets e.node g start e.target →
      (S.view s.graph).Leaves x.node g →
    (S.view s.graph).returnSite? e.node = some r →
    u ∈ S.returnTargets e.node g x.node r x.target e.target →
    AtLeast le s ⟨e.source, r, u.1⟩ (S.comp (S.comp (S.comp f w) h) u.2) ∨
      AtLeast le s ⟨e.source, r, u.1⟩ (S.comp f (S.comp (S.comp w h) u.2))

end Rules

variable {S : Setup D W L} {le : W → W → Prop} {I₀ : Icfg} {s s' : State D W L}

/-- What other tables hold is not needed any more once nothing is
pending. -/
theorem Saturated.stable (hs : Saturated S le s) : Stable S le s where
  normal := fun hf hcall hexit hm ht =>
    (hs.followed hf id).normal hcall hexit _ hm _ ht
  pass := fun hf hcall hr ht => (hs.followed hf id).pass hcall hr _ ht
  entry := fun hf henter ht =>
    ((hs.followed hf id).entry henter.isCall henter.callee henter.start _ ht).1
  returned := fun hf hh henter hw hleave hr hu =>
    hs.returned hf hh id id henter.isCall henter.callee henter.start hw
      hleave hr _ hu

-- ==================================================== rules that stay met

/-- A summary of another path edge does not matter to a path edge that
was followed. -/
theorem Followed.insert_summary {met : Proc → Prop} {e x : PathEdge D} {f h : W}
    {g : Proc} (hf : Followed S le s (S.view s.graph) met e f) (hne : e ≠ x) :
    Followed S le
      { s with
        summaries := s.summaries.insert ⟨g, x.source, x.node, x.target⟩ h }
      (S.view s.graph) met e f := by
  refine ⟨hf.normal, ?_, hf.pass, hf.known, hf.callFlow, hf.entry⟩
  intro g' hleave
  rw [Table.get?_insert_of_ne]
  · exact hf.exit hleave
  · intro hkey
    obtain ⟨a, n, b⟩ := e
    obtain ⟨a', n', b'⟩ := x
    cases hkey
    exact hne rfl

/-- A path edge that is not pending now, and is not the one that was
taken up, was not pending before. -/
theorem Extends.not_pending (hs : Extends S le s s') {e e' : PathEdge D}
    (hwl : e' ∉ s'.worklist) (hne : e' ≠ e) : ¬(e' ∈ s.worklist ∨ e' = e) := by
  intro hpending
  rcases hpending with hmem | heq
  · exact hwl (hs.worklist hmem)
  · exact hne heq

section Extension

variable [DecidableEq L]

/-- A path edge that was followed stays so while tables grow, for the
callees that it had met. -/
theorem Followed.extend (hle : S.IsGrowthOrder le) {met met' : Proc → Prop}
    {e : PathEdge D} {f : W} (h : Followed S le s (S.view s.graph) met e f)
    (hs : Extends S le s s') (hmet : ∀ {g}, met' g → met g) :
    Followed S le s' (S.view s'.graph) met' e f where
  normal := by
    intro hcall hexit m hm t ht
    rw [hs.view.isCall] at hcall
    rw [hs.view.isExit?] at hexit
    rw [hs.view.successors] at hm
    exact (h.normal hcall hexit m hm t ht).extend hle hs
  exit := by
    intro g hleave
    rw [hs.summaries]
    exact h.exit (hs.view.leaves_iff.mp hleave)
  pass := by
    intro hcall r hr t ht
    rw [hs.view.isCall] at hcall
    rw [hs.view.returnSite?] at hr
    exact (h.pass hcall hr t ht).extend hle hs
  known := by
    intro hcall g hg
    rw [hs.view.isCall] at hcall
    rw [hs.known]
    exact h.known hcall (hmet hg)
  callFlow := by
    intro hcall g start hg hstart
    rw [hs.view.isCall] at hcall
    rw [hs.view.start?] at hstart
    exact hs.callFlow (h.callFlow hcall (hmet hg) hstart)
  entry := by
    intro hcall g start hg hstart t ht
    rw [hs.view.isCall] at hcall
    rw [hs.view.start?] at hstart
    obtain ⟨hatLeast, hinc⟩ := h.entry hcall (hmet hg) hstart t ht
    exact ⟨hatLeast.extend hle hs, hs.incoming hinc⟩

/-- A return that was carried out stays so. -/
theorem Returned.extend (hle : S.IsGrowthOrder le) {met met' : Proc → Prop}
    {e x : PathEdge D} {f h : W}
    (hret : Returned S le s (S.view s.graph) met e f x h)
    (hs : Extends S le s s') (hmet : ∀ {g}, met' g → met g) :
    Returned S le s' (S.view s'.graph) met' e f x h := by
  intro g start r w hcall hg hstart hw hleave hr u hu
  rw [hs.view.isCall] at hcall
  rw [hs.view.start?] at hstart
  rw [hs.view.returnSite?] at hr
  rcases hret hcall (hmet hg) hstart hw (hs.view.leaves_iff.mp hleave) hr u hu
    with hu | hu
  · exact Or.inl (hu.extend hle hs)
  · exact Or.inr (hu.extend hle hs)

/-- To mend the rules after an edge was taken off the worklist, it is
enough to see to the rules in which this edge takes part: alone, as a
caller, and as an exit. -/
theorem Closed.mend (hle : S.IsGrowthOrder le)
    {met met' : PathEdge D → Proc → Prop} {e : PathEdge D}
    (hclosed : Closed S le met (fun e' => e' ∈ s.worklist ∨ e' = e) s)
    (hs : Extends S le s s') (hmet : ∀ {e' g}, e' ≠ e → met' e' g → met e' g)
    (hself : ∀ {f}, s.jump? e = some f →
      Followed S le s' (S.view s'.graph) (met' e) e f)
    (hcaller : ∀ {f x h}, s.jump? e = some f → s'.jump? x = some h →
      x ∉ s'.worklist → Returned S le s' (S.view s'.graph) (met' e) e f x h)
    (hexit : ∀ {e' f h}, s'.jump? e' = some f → s.jump? e = some h →
      e' ∉ s'.worklist → e' ≠ e →
      Returned S le s' (S.view s'.graph) (met' e') e' f e h) :
    Closed S le met' (· ∈ s'.worklist) s' := by
  constructor
  · intro e' f hf hwl
    rw [← hs.jump_eq hwl] at hf
    by_cases hne : e' = e
    · subst hne
      exact hself hf
    · exact (hclosed.followed hf (hs.not_pending hwl hne)).extend hle
        hs (hmet hne)
  · intro e' f x h hf hh hwl hwl'
    by_cases hne : e' = e
    · subst hne
      rw [← hs.jump_eq hwl] at hf
      exact hcaller hf hh hwl'
    · by_cases hne' : x = e
      · subst hne'
        rw [← hs.jump_eq hwl'] at hh
        exact hexit hf hh hwl hne
      · rw [← hs.jump_eq hwl] at hf
        rw [← hs.jump_eq hwl'] at hh
        exact Returned.extend hle
          (hclosed.returned hf hh (hs.not_pending hwl hne)
            (hs.not_pending hwl' hne')) hs (hmet hne)

end Extension

-- =============================================== following one path edge

/-- What the loop is aware of: a callee that is known at a call site
was met there by some path edge, and one that is not known keeps the
path edges of its site pending, or else the graph has grown since the
loop last looked for it. -/
structure Aware (S : Setup D W L) (met : PathEdge D → Proc → Prop)
    (pending : PathEdge D → Prop) (s : State D W L) : Prop where
  seen : s.seenRevision ≤ (S.view s.graph).revision
  known : ∀ {c g}, (c, g) ∈ s.known → ∃ e, e.node = c ∧ met e g
  noticed : ∀ {e w g}, s.jump? e = some w →
    (S.view s.graph).isCall e.node = true →
    g ∈ (S.view s.graph).callees e.node →
    (e.node, g) ∈ s.known ∨ pending e ∨
      s.seenRevision < (S.view s.graph).revision

/-- More callees may be taken as met. -/
theorem Aware.grow {met met' : PathEdge D → Proc → Prop}
    {pending : PathEdge D → Prop} (h : Aware S met pending s)
    (hgrow : ∀ {e g}, met e g → met' e g) : Aware S met' pending s where
  seen := h.seen
  known := by
    intro c g hk
    obtain ⟨e, he, hg⟩ := h.known hk
    exact ⟨e, he, hgrow hg⟩
  noticed := h.noticed

/-- After the edge taken up was followed, what it had to notice is
known at its site. -/
theorem Aware.mend {met : PathEdge D → Proc → Prop} {e : PathEdge D}
    (h : Aware S met (fun e' => e' ∈ s.worklist ∨ e' = e) s)
    (hs : Extends S le s s')
    (hself : ∀ {g}, (S.view s.graph).isCall e.node = true →
      g ∈ (S.view s.graph).callees e.node → (e.node, g) ∈ s.known) :
    Aware S met (· ∈ s'.worklist) s' where
  seen := by
    rw [hs.seenRevision]
    exact Nat.le_trans h.seen hs.view.revision
  known := by
    intro c g hk
    rw [hs.known] at hk
    exact h.known hk
  noticed := by
    intro e' w g hw hcall hg
    rw [hs.view.isCall] at hcall
    rcases hs.changed e' with heq | hmem
    · rw [heq] at hw
      by_cases hrev : (S.view s'.graph).revision = (S.view s.graph).revision
      · rw [hs.view.settled hrev] at hg
        rw [hs.known, hs.seenRevision, hrev]
        rcases h.noticed hw hcall hg with hk | (hmem | rfl) | hlt
        · exact Or.inl hk
        · exact Or.inr (Or.inl (hs.worklist hmem))
        · exact Or.inl (hself hcall hg)
        · exact Or.inr (Or.inr hlt)
      · refine Or.inr (Or.inr ?_)
        have hle := hs.view.revision
        have hseen := h.seen
        rw [hs.seenRevision]
        omega
    · exact Or.inr (Or.inl hmem)

/-- A run in progress: sound tables that are closed but for what is
pending. `met` are callees that each path edge is known to have met. -/
structure InProgress (S : Setup D W L) (le : W → W → Prop) (I₀ : Icfg)
    (met : PathEdge D → Proc → Prop) (pending : PathEdge D → Prop)
    (s : State D W L) : Prop where
  sound : Sound S I₀ s
  closed : Closed S le met pending s
  aware : Aware S met pending s

section Follow

variable {met met' : PathEdge D → Proc → Prop} {e : PathEdge D} {f : W}

-- What is noted before the loop over callees, or over callers, leaves the rules
-- met.

/-- Getting to know callees breaks no rule. -/
theorem Closed.acquaint {pending : PathEdge D → Prop}
    (hs : Closed S le met pending s) (c : Node) (callees : List Proc) :
    Closed S le met pending (acquaint s c callees) := by
  refine ⟨fun hf hpending => ?_, fun hf hh h₁ h₂ => hs.returned hf hh h₁ h₂⟩
  have h := hs.followed hf hpending
  exact ⟨h.normal, h.exit, h.pass,
    fun hc _ hg => mem_known_acquaint.mpr (Or.inl (h.known hc hg)),
    h.callFlow, h.entry⟩

theorem Aware.acquaint {pending : PathEdge D → Prop} {callees : List Proc}
    (hs : Aware S met pending s) (hmet : ∀ {g}, g ∈ callees → met e g) :
    Aware S met pending (acquaint s e.node callees) := by
  refine ⟨hs.seen, fun hk => ?_, fun hf hc hg => ?_⟩
  · rcases mem_known_acquaint.mp hk with hk | ⟨rfl, hg⟩
    · exact hs.known hk
    · exact ⟨e, rfl, hmet hg⟩
  · rcases hs.noticed hf hc hg with hk | hpending
    · exact Or.inl (mem_known_acquaint.mpr (Or.inl hk))
    · exact Or.inr hpending

/-- The summary of the edge that is taken up concerns that edge alone. -/
theorem Closed.insert_summary
    (hs : Closed S le met (fun e' => e' ∈ s.worklist ∨ e' = e) s) (g : Proc) :
    Closed S le met (fun e' => e' ∈ s.worklist ∨ e' = e)
      { s with
        summaries :=
          s.summaries.insert ⟨g, e.source, e.node, e.target⟩ f } := by
  refine ⟨fun hf hpending => ?_, fun hf hh h₁ h₂ => hs.returned hf hh h₁ h₂⟩
  exact (hs.followed hf hpending).insert_summary fun heq =>
    hpending (Or.inr heq)

variable [DecidableEq W] [DecidableEq L]

/-- Following a path edge at a normal node mends the rules. It takes
part in no return, so only its own rules have to be seen to. -/
theorem ensures_processNormal_closed (hle : S.IsGrowthOrder le)
    (hsteady : S.IsSteady)
    (hs : InProgress S le I₀ met (fun e' => e' ∈ s.worklist ∨ e' = e) s)
    (hf : s.jump? e = some f) (hcall : (S.view s.graph).isCall e.node = false)
    (hexit : (S.view s.graph).isExit? e.node = some false)
    (hmet : ∀ {e' g}, e' ≠ e → met' e' g → met e' g)
    (hgrow : ∀ {e' g}, met e' g → met' e' g) :
    Ensures (Failure.Excused I₀) (processNormal S e)
      (fun _ s' => Later S le s s' ∧
        InProgress S le I₀ met' (· ∈ s'.worklist) s') s := by
  refine (ensures_processNormal hle hsteady hs.sound hf hcall hexit).mono
    fun _ s' h => ?_
  obtain ⟨hA, htargets⟩ := h
  have hcall' : (S.view s'.graph).isCall e.node = false := by
    rw [hA.view.isCall]
    exact hcall
  have hexit' : (S.view s'.graph).isExit? e.node = some false := by
    rw [hA.view.isExit?]
    exact hexit
  have hnotCall : (S.view s'.graph).isCall e.node ≠ true := by
    rw [hcall']
    decide
  have hnotExit : ∀ g, ¬(S.view s'.graph).Leaves e.node g := by
    intro g hleave
    have := hleave.isExit.symm.trans hexit'
    cases this
  refine ⟨hA.toLater, hA.sound, hs.closed.mend hle hA.toExtends hmet ?_ ?_ ?_,
    (hs.aware.grow hgrow).mend hA.toExtends
    fun h => by rw [hcall] at h; cases h⟩
  · intro f' hf'
    obtain rfl : f = f' := Option.some.inj (hf.symm.trans hf')
    refine ⟨?_, fun hleave => absurd hleave (hnotExit _),
      fun h => absurd h hnotCall, fun h => absurd h hnotCall,
      fun h => absurd h hnotCall, fun h => absurd h hnotCall⟩
    -- of the rules for this path edge only the one inside procedures
    -- applies; those for calls and exits ask nothing
    intro _ _ m hm
    rw [hA.view.successors] at hm
    exact htargets m hm
  · intro f' x h _ _ _ g start r w hcall
    exact absurd hcall hnotCall
  · intro e' f' h _ _ _ _ g start r w _ _ _ _ hleave
    exact absurd hleave (hnotExit g)

/-- Following a path edge at a call mends the rules. As a caller it
finds the summaries of all exits that were followed before. -/
theorem ensures_processCall_closed (hle : S.IsGrowthOrder le)
    (hsteady : S.IsSteady)
    (hs : InProgress S le I₀ met (fun e' => e' ∈ s.worklist ∨ e' = e) s)
    (hf : s.jump? e = some f) (hcall : (S.view s.graph).isCall e.node = true)
    (hmet : ∀ {e' g}, e' ≠ e → met' e' g → met e' g)
    (hgrow : ∀ {e' g}, met e' g → met' e' g)
    (hnow : ∀ {g}, met' e g ↔ g ∈ (S.view s.graph).callees e.node) :
    Ensures (Failure.Excused I₀) (processCall S e)
      (fun _ s' => Later S le s s' ∧
        InProgress S le I₀ met' (· ∈ s'.worklist) s') s := by
  refine (ensures_processCall hle hsteady hs.sound hf hcall).mono
    fun _ s' h => ?_
  obtain ⟨hA, hcallees, hpass⟩ := h
  have hclosed₁ := hs.closed.acquaint e.node ((S.view s.graph).callees e.node)
  have haware₁ := (hs.aware.grow hgrow).acquaint (e := e) hnow.mpr
  have hcall' : (S.view s'.graph).isCall e.node = true := by
    rw [hA.view.isCall]
    exact hcall
  have hnotCall : (S.view s'.graph).isCall e.node ≠ false := by
    rw [hcall']
    decide
  -- the callees met are those that the call has now, and each was entered with
  -- all facts
  have hmetNow : ∀ {g start}, met' e g →
      (S.view s'.graph).start? g = some start →
      s'.callFlows.get? e.node (g, e.target) =
        some (S.callTargets e.node g start e.target) ∧
      ∀ t ∈ S.callTargets e.node g start e.target,
        EnteredBy S le s' e f ((S.view s.graph).returnSite? e.node) g
          start t := by
    intro g start hg hstart
    rw [hA.view.start?] at hstart
    exact hcallees g (hnow.mp hg) start hstart
  refine ⟨⟨hA.view, hA.graph, hA.jump, hA.seeds⟩, hA.sound,
    hclosed₁.mend hle hA.toExtends hmet ?_ ?_ ?_,
    haware₁.mend hA.toExtends fun _ hg =>
      mem_known_acquaint.mpr (Or.inr ⟨rfl, hg⟩)⟩
  · intro f' hf'
    obtain rfl : f = f' := Option.some.inj (hf.symm.trans hf')
    refine ⟨fun h => absurd h hnotCall,
      fun hleave => absurd hleave.notCall hnotCall, ?_, fun _ _ hg => ?_,
      fun _ _ _ hg hstart => (hmetNow hg hstart).1, ?_⟩
    · intro _ r hr
      rw [hA.view.returnSite?] at hr
      exact hpass hr
    · rw [hA.known]
      exact mem_known_acquaint.mpr (Or.inr ⟨rfl, hnow.mp hg⟩)
    · intro _ g start hg hstart t ht
      have hentered := (hmetNow hg hstart).2 t ht
      exact ⟨hentered.atStart, hentered.incoming⟩
  · -- an exit that is not pending was followed before, so its summary was on
    -- record
    intro f' x h hf' hh hwl g start r w _ hg hstart hw hleave hr u hu
    obtain rfl : f = f' := Option.some.inj (hf.symm.trans hf')
    have hne : x ≠ e := by
      intro heq
      subst heq
      exact hnotCall hleave.notCall
    have hfollowed := hclosed₁.followed ((hA.jump_eq hwl).trans hh)
      (hA.not_pending hwl hne)
    have hsummary := hfollowed.exit (hA.view.leaves_iff.mp hleave)
    rw [← hA.summaries] at hsummary
    rw [hA.view.returnSite?] at hr
    exact Or.inl (((hmetNow hg hstart).2 _ hw).returned hr hsummary
        rfl rfl u hu)
  · intro e' f' h _ _ _ _ g start r w _ _ _ _ hleave
    exact absurd hleave.notCall hnotCall

/-- Following a path edge at an exit mends the rules. As an exit it
finds all callers that were followed before. -/
theorem ensures_processExit_closed (hle : S.IsGrowthOrder le)
    (hsteady : S.IsSteady)
    (hown : ∀ {p : Proc} {n : Node}, I₀.start? p = some n →
      I₀.procOf? n = some p)
    (hs : InProgress S le I₀ met (fun e' => e' ∈ s.worklist ∨ e' = e) s)
    (hf : s.jump? e = some f) (hcall : (S.view s.graph).isCall e.node = false)
    (hexit : (S.view s.graph).isExit? e.node = some true)
    (hmet : ∀ {e' g}, e' ≠ e → met' e' g → met e' g)
    (hgrow : ∀ {e' g}, met e' g → met' e' g) :
    Ensures (Failure.Excused I₀) (processExit S e)
      (fun _ s' => Later S le s s' ∧
        InProgress S le I₀ met' (· ∈ s'.worklist) s') s := by
  refine (ensures_processExit hle hsteady hown hs.sound hf hcall hexit).mono
    fun _ s' h => ?_
  obtain ⟨g, start, hleave, hstart, hA, hback⟩ := h
  have haware₁ : Aware S met' (fun e' => e' ∈ s.worklist ∨ e' = e)
      { s with
        summaries := s.summaries.insert ⟨g, e.source, e.node, e.target⟩ f } :=
    ⟨hs.aware.seen, (hs.aware.grow hgrow).known, hs.aware.noticed⟩
  refine ⟨⟨hA.view, hA.graph, hA.jump, hA.seeds⟩, hA.sound, ?_,
    haware₁.mend hA.toExtends fun h =>
      absurd (hcall.symm.trans h) Bool.false_ne_true⟩
  have hclosed₁ := hs.closed.insert_summary (f := f) g
  have hcall' : (S.view s'.graph).isCall e.node ≠ true := by
    rw [hA.view.isCall]
    show (S.view s.graph).isCall e.node ≠ true
    rw [hcall]
    decide
  have hexit' : (S.view s'.graph).isExit? e.node ≠ some false := by
    rw [hA.view.isExit?]
    show (S.view s.graph).isExit? e.node ≠ some false
    rw [hexit]
    decide
  refine hclosed₁.mend hle hA.toExtends hmet ?_ ?_ ?_
  · intro f' hf'
    obtain rfl : f = f' := Option.some.inj (hf.symm.trans hf')
    refine ⟨fun _ h => absurd h hexit', ?_, fun h => absurd h hcall',
      fun h => absurd h hcall', fun h => absurd h hcall',
      fun h => absurd h hcall'⟩
    intro g' hleave'
    have hproc : (S.view s.graph).procOf? e.node = some g' :=
      (hA.view.leaves_iff.mp hleave').procOf
    obtain rfl : g = g' := Option.some.inj (hleave.procOf.symm.trans hproc)
    rw [hA.summaries]
    exact Table.get?_insert_self ..
  · intro f' x h _ _ _ g' start' r w hcall''
    exact absurd hcall'' hcall'
  · -- a caller that is not pending was followed before, so its entry was on
    -- record
    intro e' f' h hf' hh hwl hne g' start' r w hcall'' hg' hstart' hw
      hleave' hr u hu
    obtain rfl : f = h := Option.some.inj (hf.symm.trans hh)
    have hproc : (S.view s.graph).procOf? e.node = some g' :=
      (hA.view.leaves_iff.mp hleave').procOf
    obtain rfl : g = g' := Option.some.inj (hleave.procOf.symm.trans hproc)
    rw [hA.view.start?] at hstart'
    rw [hA.view.isCall] at hcall''
    rw [hA.view.returnSite?] at hr
    obtain rfl : start = start' := Option.some.inj (hstart.symm.trans hstart')
    have hf₀ : s.jump? e' = some f' := (hA.jump_eq hwl).trans hf'
    have hfollowed := hs.closed.followed hf₀ (hA.not_pending hwl hne)
    have hinc := (hfollowed.entry hcall'' (hmet hne hg') hstart _ hw).2
    rcases hback _ hinc rfl rfl hr hw u hu hf' with hmem | hatLeast
    · exact absurd hmem hwl
    · exact Or.inr hatLeast

end Follow

-- ============================================================ on record

/-- A path edge is on record. -/
def Recorded (s : State D W L) (e : PathEdge D) : Prop :=
  ∃ w, s.jump? e = some w

omit [DecidableEq D] in
/-- The order that tells no edge functions apart. -/
theorem isGrowthOrder_trivial [DecidableEq L] :
    S.IsGrowthOrder fun _ _ => True where
  refl := fun _ => trivial
  trans := fun _ _ => trivial
  join_above := fun _ => ⟨trivial, trivial⟩

theorem AtLeast.recorded {le : W → W → Prop} {e : PathEdge D} {w : W}
    (h : AtLeast le s e w) : Recorded s e := by
  obtain ⟨w', hw', _⟩ := h
  exact ⟨w', hw'⟩

theorem Recorded.atLeast {e : PathEdge D} (h : Recorded s e) (w : W) :
    AtLeast (fun _ _ => True) s e w := by
  obtain ⟨w', hw'⟩ := h
  exact ⟨w', hw', trivial⟩

/-- Path edges that are closed under the rules and hold the seeds hold
all that follows. The induction follows the rules, and codes do not
matter. -/
theorem recorded_of_derivable {le : W → W → Prop} (hs : Stable S le s)
    (hseeds : ∀ seed ∈ S.seedsOn (S.view s.graph),
      Recorded s ⟨seed.fact, seed.node, seed.fact⟩) {e : PathEdge D} {f : W}
    (h : Derivable S (S.view s.graph) e f) : Recorded s e := by
  induction h with
  | seed hseed => exact hseeds _ hseed
  | normal _ hcall hexit hsucc hw ih =>
    obtain ⟨_, hf⟩ := ih
    exact (hs.normal hf hcall hexit hsucc hw).recorded
  | pass _ hcall hret hw ih =>
    obtain ⟨_, hf⟩ := ih
    exact (hs.pass hf hcall hret hw).recorded
  | entry _ henter hw ih =>
    obtain ⟨_, hf⟩ := ih
    exact (hs.entry hf henter hw).recorded
  | ret _ henter hw _ hleave hret hv _ ihf ihh =>
    obtain ⟨_, hf⟩ := ihf
    obtain ⟨_, hh⟩ := ihh
    rcases hs.returned hf hh henter hw hleave hret hv with hback | hback
    · exact hback.recorded
    · exact hback.recorded
  | join _ _ ihf _ => exact ihf

end Tabulation.Solver
