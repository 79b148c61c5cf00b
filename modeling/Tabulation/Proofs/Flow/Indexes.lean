/-
The indexes of a flow graph, after any changes.

Successors and predecessors are two indexes of one relation, and so are
callees and callers. A pair is entered in both at once, and only one of
them is searched for it before. That is enough: as long as the two
mirror each other, a pair that is missing in one is missing in the
other (`Mirrored.enter`). So neither lists anything twice, whether or
not nodes are registered again, calls are added again, or changes are
refused on the way (`Indexed.apply`).

What a graph lists it goes on listing, in the same order (`Extends`).
-/
import Mathlib.Data.Set.Card
import Tabulation.Proofs.Flow.Registry

namespace Tabulation

-- ========================================================= mirrored indexes

/-- Two indexes of one relation that list nothing twice. -/
structure Mirrored {α β : Type} (forth : α → List β) (back : β → List α) :
    Prop where
  mem_iff : ∀ {a b}, b ∈ forth a ↔ a ∈ back b
  nodup : ∀ a, (forth a).Nodup
  nodup_back : ∀ b, (back b).Nodup

section Mirrored

variable {α β : Type} [DecidableEq α] [DecidableEq β]

/-- An index with a further pair, unless it is there already. -/
def Listing.enter (index : α → List β) (a : α) (b : β) (x : α) : List β :=
  if a = x then Listing.add (index a) b else index x

private theorem Listing.mem_enter {index : α → List β} {a x : α} {b y : β} :
    y ∈ Listing.enter index a b x ↔ y ∈ index x ∨ a = x ∧ b = y := by
  unfold Listing.enter
  split
  next h =>
    subst h
    rw [Listing.mem_add]
    grind
  next h => grind

private theorem Listing.nodup_enter {index : α → List β}
    (h : ∀ x, (index x).Nodup) (a : α) (b : β) (x : α) :
    (Listing.enter index a b x).Nodup := by
  unfold Listing.enter
  split
  · exact Listing.nodup_add (h a) b
  · exact h x

/-- What is listed stays where it is. -/
private theorem Listing.isPrefix_enter (index : α → List β) (a : α) (b : β)
    (x : α) : index x <+: Listing.enter index a b x := by
  unfold Listing.enter
  split
  next h =>
    subst h
    unfold Listing.add
    split
    · exact List.prefix_refl _
    · exact List.prefix_append _ _
  next => exact List.prefix_refl _

/-- A pair that is entered on both sides keeps the two indexes in step. -/
theorem Mirrored.enter {forth : α → List β} {back : β → List α}
    (h : Mirrored forth back) (a : α) (b : β) :
    Mirrored (Listing.enter forth a b) (Listing.enter back b a) where
  mem_iff := by
    intro x y
    rw [Listing.mem_enter, Listing.mem_enter, h.mem_iff, and_comm]
  nodup := Listing.nodup_enter h.nodup a b
  nodup_back := Listing.nodup_enter h.nodup_back b a

/-- The pairs of an index with one more. They are counted as a set,
since the index is a function and has no size of its own. -/
private theorem Listing.encard_enter {index : α → List β} {a : α} {b : β}
    (h : b ∉ index a) :
    {x : α × β | x.2 ∈ Listing.enter index a b x.1}.encard =
      {x : α × β | x.2 ∈ index x.1}.encard + 1 := by
  have hinsert : {x : α × β | x.2 ∈ Listing.enter index a b x.1} =
      insert (a, b) {x : α × β | x.2 ∈ index x.1} := by
    ext x
    rw [Set.mem_ofPred_eq, Listing.mem_enter, Set.mem_insert_iff,
        Set.mem_ofPred_eq, Prod.ext_iff]
    grind
  have hnew : (a, b) ∉ {x : α × β | x.2 ∈ index x.1} := h
  rw [hinsert, Set.encard_insert_of_notMem hnew]

end Mirrored

namespace FlowGraph

variable {g : FlowGraph}

-- ============================================== what a change does to them

/-- What an edge does to the successors is entering a pair. -/
private theorem successors_addEdge_eq (g : FlowGraph) (a b : Node) :
    (g.addEdge a b).successors = Listing.enter g.successors a b :=
  funext (successors_addEdge g a b)

private theorem callees_resolve_eq (g : FlowGraph) (c : Node) (p : Proc) :
    (g.resolve c p).callees = Listing.enter g.callees c p :=
  funext fun c' => callees_resolve g c c' p

/-- Predecessors are not searched, since successors were. As long as
the two mirror each other this comes to the same as entering the pair. -/
private theorem predecessors_addEdge (h : Mirrored g.successors g.predecessors)
    (a b : Node) :
    (g.addEdge a b).predecessors = Listing.enter g.predecessors b a := by
  funext n
  unfold addEdge Listing.enter Listing.add
  by_cases hb : b ∈ g.successors a
  · rw [if_pos hb, if_pos (h.mem_iff.mp hb)]
    split
    next hn => rw [hn]
    next => rfl
  · rw [if_neg hb, if_neg (mt h.mem_iff.mpr hb)]
    exact Table.getD_update g.predecessorIndex b n [] (· ++ [a])

/-- Callers are not searched, since callees were. -/
private theorem callers_resolve (h : Mirrored g.callees g.callers) (c : Node)
    (p : Proc) : (g.resolve c p).callers = Listing.enter g.callers p c := by
  funext q
  unfold Listing.enter Listing.add
  by_cases hp : p ∈ g.callees c
  · rw [resolve_of_mem hp, if_pos (h.mem_iff.mp hp)]
    split
    next hq => rw [hq]
    next => rfl
  · rw [resolve_of_not_mem hp, if_neg (mt h.mem_iff.mpr hp)]
    exact Table.getD_update g.callerIndex p q [] (· ++ [c])

/-- Edges do not depend on where calls return to, so the two may change
places. -/
private theorem addEdge_returnSites (g : FlowGraph) (sites : Table Node Node)
    (a b : Node) :
    { g with returnSites := sites }.addEdge a b =
      { g.addEdge a b with returnSites := sites } := by
  unfold addEdge
  show (if b ∈ g.successors a then _ else _) = _
  split <;> rfl

-- ============================================================= invariant

/-- The indexes of a graph agree with each other, and the revision with
them. It is the invariant of all changes. -/
structure Indexed (g : FlowGraph) : Prop where
  edges : Mirrored g.successors g.predecessors
  calls : Mirrored g.callees g.callers
  /-- The revision counts the pairs of calls and callees. -/
  revision : {x : Node × Proc | x.2 ∈ g.callees x.1}.encard = g.revision
  returnSite_mem : ∀ {c r}, g.returnSite? c = some r → r ∈ g.successors c

namespace Indexed

theorem empty : Indexed {} where
  edges := ⟨by simp [successors, predecessors, Table.getD], fun _ => .nil,
      fun _ => .nil⟩
  calls := ⟨by simp [callees, callers, Table.getD], fun _ => .nil,
      fun _ => .nil⟩
  revision := by simp [callees, Table.getD]
  returnSite_mem := nofun

/-- What is registered is in none of the indexes. -/
theorem register (h : Indexed g) (routines : Table Proc Routine)
    (owner : Table Node Proc) :
    Indexed { g with routines := routines, owner := owner } :=
  ⟨h.edges, h.calls, h.revision, h.returnSite_mem⟩

theorem addProc (h : Indexed g) (p : Proc) : Indexed (g.addProc p) := by
  rw [addProc_eq]
  exact h.register _ _

/-- An edge is entered in both indexes, and a return site stays a
successor. -/
theorem addEdge (h : Indexed g) (a b : Node) : Indexed (g.addEdge a b) := by
  have hsucc := successors_addEdge_eq g a b
  have hpred := predecessors_addEdge h.edges a b
  have hedges : Mirrored (g.addEdge a b).successors
      (g.addEdge a b).predecessors := by
    rw [hsucc, hpred]
    exact h.edges.enter a b
  have hreturn : ∀ {c r}, g.returnSite? c = some r →
      r ∈ (g.addEdge a b).successors c := by
    intro c r hr
    rw [hsucc, Listing.mem_enter]
    exact Or.inl (h.returnSite_mem hr)
  rw [addEdge_eq] at hedges hreturn ⊢
  exact ⟨hedges, h.calls, h.revision, hreturn⟩

/-- A target is entered in both indexes, and counted if it is new. -/
theorem resolve (h : Indexed g) (c : Node) (p : Proc) :
    Indexed (g.resolve c p) := by
  have hcallees := callees_resolve_eq g c p
  have hcalls : Mirrored (g.resolve c p).callees (g.resolve c p).callers := by
    rw [hcallees, callers_resolve h.calls c p]
    exact h.calls.enter c p
  have hrevision :
      {x : Node × Proc | x.2 ∈ (g.resolve c p).callees x.1}.encard =
      (g.resolve c p).revision := by
    by_cases hp : p ∈ g.callees c
    · rw [resolve_of_mem hp]
      exact h.revision
    · rw [hcallees, Listing.encard_enter hp, h.revision, resolve_of_not_mem hp]
      rfl
  rw [resolve_eq] at hcalls hrevision ⊢
  exact ⟨h.edges, hcalls, hrevision, h.returnSite_mem⟩

theorem foldl_resolve (h : Indexed g) (c : Node) (ps : List Proc) :
    Indexed (ps.foldl (fun g p => g.resolve c p) g) := by
  induction ps generalizing g with
  | nil => exact h
  | cons p ps ih => exact ih (h.resolve c p)

/-- A call may return to any of its successors, so it may also be told
to return to another one. -/
theorem returnTo (h : Indexed g) {c r : Node} (hr : r ∈ g.successors c) :
    Indexed { g with returnSites := g.returnSites.insert c r } where
  edges := h.edges
  calls := h.calls
  revision := h.revision
  returnSite_mem := by
    intro c' r' h'
    have hread : (g.returnSites.insert c r).get? c' = some r' := h'
    rw [Table.get?_insert] at hread
    split at hread
    next hc =>
      cases hread
      exact hc ▸ hr
    next => exact h.returnSite_mem hread

/-- The edge to the return site comes after it was set, and the order
does not matter. -/
theorem addCall (h : Indexed g) {c : Node} {p : Proc}
    (hp : g.procOf? c = some p) (r : Node) (ts : List Proc) :
    Indexed (g.apply (.addCall c r ts)) := by
  rw [apply_addCall hp]
  refine foldl_resolve ?_ c ts
  rw [addEdge_returnSites]
  have hedge :
      Indexed ((g.updateRoutine p fun r =>
      { r with calls := r.calls ++ [c] }).addEdge c r) :=
      (h.register _ _).addEdge c r
  have hmem : r ∈ ((g.updateRoutine p fun r =>
      { r with calls := r.calls ++ [c] }).addEdge c r).successors c := by
    rw [successors_addEdge_eq, Listing.mem_enter]
    exact Or.inr ⟨rfl, rfl⟩
  have hset := hedge.returnTo hmem
  rw [addEdge_eq] at hset ⊢
  exact hset

/-- No change brings the indexes out of step. A change that is refused
leaves the graph as it is. -/
theorem apply (h : Indexed g) (m : Mutation) : Indexed (g.apply m) := by
  cases m with
  | addProc p => exact h.addProc p
  | addNode p n => exact (h.addProc p).register _ _
  | addExit n =>
    cases hn : g.procOf? n with
    | none =>
      rw [apply_addExit_of_unowned hn]
      exact h
    | some p =>
      rw [apply_addExit hn]
      exact h.register _ _
  | addEdge a b => exact h.addEdge a b
  | addCall c r ts =>
    cases hc : g.procOf? c with
    | none =>
      rw [apply_addCall_of_unowned hc]
      exact h
    | some p => exact h.addCall hc r ts
  | resolveCall c p => exact h.resolve c p

theorem mutateAll (h : Indexed g) (ms : List Mutation) :
    Indexed (g.mutateAll ms) :=
  mutateAll_keeps (fun m h => h.apply m) ms h

end Indexed

-- ================================================================ growth

/-- Whatever `g` lists stands at the beginning of what `g'` lists. -/
structure Extends (g g' : FlowGraph) : Prop where
  successors : ∀ n, g.successors n <+: g'.successors n
  callees : ∀ c, g.callees c <+: g'.callees c
  procs : g.procs <+: g'.procs

namespace Extends

theorem refl (g : FlowGraph) : Extends g g :=
  ⟨fun _ => List.prefix_refl _, fun _ => List.prefix_refl _, List.prefix_refl _⟩

theorem trans {g' g'' : FlowGraph} (h : Extends g g') (h' : Extends g' g'') :
    Extends g g'' where
  successors := fun n => (h.successors n).trans (h'.successors n)
  callees := fun c => (h.callees c).trans (h'.callees c)
  procs := h.procs.trans h'.procs

/-- Updates of routines list no less, and touch neither edges nor
calls. -/
theorem updateRoutine (g : FlowGraph) (p : Proc) (f : Routine → Routine) :
    Extends g (g.updateRoutine p f) where
  successors := fun _ => List.prefix_refl _
  callees := fun _ => List.prefix_refl _
  procs := by
    show g.procs <+: (g.routines.insert p _).keys
    rw [Table.keys_insert]
    split
    · exact List.prefix_refl _
    · exact List.prefix_append _ _

theorem addProc (g : FlowGraph) (p : Proc) : Extends g (g.addProc p) := by
  unfold FlowGraph.addProc
  split
  · exact refl g
  · exact updateRoutine g p id

theorem addEdge (g : FlowGraph) (a b : Node) : Extends g (g.addEdge a b) := by
  have hsucc : ∀ n, g.successors n <+: (g.addEdge a b).successors n := by
    rw [successors_addEdge_eq]
    exact Listing.isPrefix_enter g.successors a b
  rw [addEdge_eq] at hsucc ⊢
  exact ⟨hsucc, fun _ => List.prefix_refl _, List.prefix_refl _⟩

theorem resolve (g : FlowGraph) (c : Node) (p : Proc) :
    Extends g (g.resolve c p) := by
  have hcallees : ∀ c', g.callees c' <+: (g.resolve c p).callees c' := by
    rw [callees_resolve_eq]
    exact Listing.isPrefix_enter g.callees c p
  rw [resolve_eq] at hcallees ⊢
  exact ⟨fun _ => List.prefix_refl _, hcallees, List.prefix_refl _⟩

theorem foldl_resolve (g : FlowGraph) (c : Node) (ps : List Proc) :
    Extends g (ps.foldl (fun g p => g.resolve c p) g) := by
  induction ps generalizing g with
  | nil => exact refl g
  | cons p ps ih => exact (resolve g c p).trans (ih (g.resolve c p))

/-- Every change only appends to the lists. A node that moves to
another procedure does so too: only its owner is replaced. -/
theorem apply (g : FlowGraph) (m : Mutation) : Extends g (g.apply m) := by
  cases m with
  | addProc p => exact addProc g p
  | addNode p n =>
    have hupdate := updateRoutine (g.addProc p) p fun r =>
      { r with nodes := r.nodes ++ [n], start := some (r.start.getD n) }
    -- the owner of the node is in none of the lists
    exact (addProc g p).trans ⟨hupdate.successors, hupdate.callees,
        hupdate.procs⟩
  | addExit n =>
    cases hn : g.procOf? n with
    | none =>
      rw [apply_addExit_of_unowned hn]
      exact refl g
    | some p =>
      rw [apply_addExit hn]
      exact updateRoutine g p _
  | addEdge a b => exact addEdge g a b
  | addCall c r ts =>
    cases hc : g.procOf? c with
    | none =>
      rw [apply_addCall_of_unowned hc]
      exact refl g
    | some p =>
      rw [apply_addCall hc]
      refine (updateRoutine g p fun r =>
          { r with calls := r.calls ++ [c] }).trans ?_
      refine trans ?_ (foldl_resolve _ c ts)
      rw [addEdge_returnSites]
      have hedge :=
        addEdge (g.updateRoutine p fun r =>
          { r with calls := r.calls ++ [c] }) c r
      exact ⟨hedge.successors, hedge.callees, hedge.procs⟩
  | resolveCall c p => exact resolve g c p

theorem mutateAll (g : FlowGraph) (ms : List Mutation) :
    Extends g (g.mutateAll ms) :=
  mutateAll_keeps (fun m h => h.trans (apply _ m)) ms (refl g)

end Extends

-- ========================================================= answers, refusals

/-- A resolution says whether the revision moved on. -/
private theorem resolveCall_iff_revision (g : FlowGraph) (c : Node) (p : Proc) :
    (g.resolveCall c p).1 = true ↔ g.revision < (g.resolve c p).revision := by
  by_cases hp : p ∈ g.callees c
  · rw [resolve_of_mem hp, resolveCall, if_pos hp]
    exact iff_of_false Bool.false_ne_true (Nat.lt_irrefl _)
  · rw [resolve_of_not_mem hp, resolveCall, if_neg hp]
    exact iff_of_true rfl (Nat.lt_succ_self _)

/-- The changes that are refused: those of a node without an owner that
would need one. What a refusal leaves is the graph from before. -/
private theorem mutate_eq_error_iff (g : FlowGraph) (m : Mutation)
    (fault : Fault) (g' : FlowGraph) :
    mutate m g = .error fault g' ↔
      g' = g ∧ ∃ n, fault = .unknownNode n ∧ g.procOf? n = none ∧
        (m = .addExit n ∨ ∃ r ts, m = .addCall n r ts) := by
  constructor
  · intro h
    refine ⟨eq_of_mutate_eq_error h, ?_⟩
    cases m with
    | addExit n =>
      cases hn : g.procOf? n with
      | none =>
        rw [mutate_addExit_of_unowned hn] at h
        cases h
        exact ⟨n, rfl, hn, Or.inl rfl⟩
      | some p =>
        rw [mutate_addExit hn] at h
        cases h
    | addCall c r ts =>
      cases hc : g.procOf? c with
      | none =>
        rw [mutate_addCall_of_unowned hc] at h
        cases h
        exact ⟨c, rfl, hc, Or.inr ⟨r, ts, rfl⟩⟩
      | some p =>
        rw [mutate_addCall hc] at h
        cases h
    | _ => cases h
  · rintro ⟨rfl, n, rfl, hn, rfl | ⟨r, ts, rfl⟩⟩
    · exact mutate_addExit_of_unowned hn
    · exact mutate_addCall_of_unowned hn r ts

/-- A change that is refused counts for nothing among all changes. -/
private theorem apply_of_refused {m : Mutation} {fault : Fault} {g' : FlowGraph}
    (h : mutate m g = .error fault g') : g.apply m = g := by
  rw [apply, h]
  exact eq_of_mutate_eq_error h

-- ======================================================= after any changes

/-- Whatever changes were made to a graph, its indexes agree, it lists
nothing twice and owners have starts. From there on its lists are only
appended to, a resolution says whether it was counted, and a change is
refused only for want of an owner; what the refusal leaves, and what
later changes find, is the graph as it was. -/
theorem indexes_agree_after_any_changes (ms : List Mutation) :
    let g := mutateAll {} ms
    Indexed g ∧ g.procs.Nodup ∧ OwnersStart g ∧
      (∀ ms', Extends g (mutateAll {} (ms ++ ms'))) ∧
      (∀ c p, ∃ new g', mutate (.resolveCall c p) g = .ok (some new) g' ∧
        mutateAll {} (ms ++ [.resolveCall c p]) = g' ∧
        (new = true ↔ g.revision < g'.revision)) ∧
      ∀ m fault g', (mutate m g = .error fault g' ↔
          g' = g ∧ ∃ n, fault = .unknownNode n ∧ g.procOf? n = none ∧
            (m = .addExit n ∨ ∃ r ts, m = .addCall n r ts)) ∧
        (mutate m g = .error fault g' → mutateAll {} (ms ++ [m]) = g) := by
  intro g
  refine ⟨Indexed.empty.mutateAll ms, g.routines.nodup_keys,
    ownersStart_empty.mutateAll ms, fun ms' => ?_, fun c p => ?_,
    fun m fault g' => ⟨mutate_eq_error_iff g m fault g', fun h => ?_⟩⟩
  · rw [mutateAll_append]
    exact Extends.mutateAll g ms'
  · refine ⟨(g.resolveCall c p).1, g.resolve c p, rfl, ?_,
      resolveCall_iff_revision g c p⟩
    rw [mutateAll_append]
    rfl
  · rw [mutateAll_append]
    exact apply_of_refused h

/-- Node 0 is a call twice, and moves to another procedure in between. -/
def movedCall : List Mutation :=
  [ .addNode ⟨0⟩ ⟨0⟩, .addNode ⟨0⟩ ⟨1⟩, .addNode ⟨0⟩ ⟨2⟩,
    .addCall ⟨0⟩ ⟨1⟩ [⟨1⟩, ⟨1⟩], .addNode ⟨1⟩ ⟨0⟩, .addCall ⟨0⟩ ⟨2⟩ [⟨1⟩, ⟨2⟩],
    .addEdge ⟨0⟩ ⟨1⟩]

theorem indexes_agree_movedCall :
    Indexed (mutateAll {} movedCall) ∧
      (mutateAll {} movedCall).successors ⟨0⟩ = [⟨1⟩, ⟨2⟩] ∧
      (mutateAll {} movedCall).predecessors ⟨1⟩ = [⟨0⟩] ∧
      (mutateAll {} movedCall).revision = 2 ∧
      mutate (.addCall ⟨3⟩ ⟨1⟩ [⟨3⟩]) (mutateAll {} movedCall) =
        .error (.unknownNode ⟨3⟩) (mutateAll {} movedCall) ∧
      mutateAll {} (movedCall ++ [.addCall ⟨3⟩ ⟨1⟩ [⟨3⟩]]) =
        mutateAll {} movedCall := by
  obtain ⟨hindexed, -, -, -, -, hrefused⟩ :=
    indexes_agree_after_any_changes movedCall
  have hfault : mutate (.addCall ⟨3⟩ ⟨1⟩ [⟨3⟩]) (mutateAll {} movedCall) =
      .error (.unknownNode ⟨3⟩) (mutateAll {} movedCall) :=
    mutate_addCall_of_unowned rfl ⟨1⟩ [⟨3⟩]
  exact ⟨hindexed, rfl, rfl, rfl, hfault, (hrefused _ _ _).2 hfault⟩

end FlowGraph

end Tabulation
