/-
What a flow graph lists after a list of changes, in order.

`Registered` and `Wired` say which nodes, calls and edges a graph has
once changes were made; here it is said in which order they are listed.
A change touches the routine of one procedure at most
(`routine_apply`). Nodes and calls are appended, edges and callees only
if they are new.
-/
import Tabulation.Proofs.Flow.Indexes

namespace Tabulation

namespace Listing

variable {α : Type} [DecidableEq α]

private theorem addAll_append (xs ys zs : List α) :
    addAll xs (ys ++ zs) = addAll (addAll xs ys) zs :=
  List.foldl_append

end Listing

namespace FlowGraph

variable {g : FlowGraph}

-- =============================================================== routines

/-- What a change makes of the routine of a procedure. For exits and
calls that is decided by the owner of the node. -/
def Mutation.revise (owner : Node → Option Proc) (q : Proc) (r : Routine) :
    Mutation → Routine
  | .addNode p n =>
    if p = q then
      { r with nodes := r.nodes ++ [n], start := some (r.start.getD n) }
    else r
  | .addExit n =>
    if owner n = some q then { r with exits := Listing.add r.exits n } else r
  | .addCall c _ _ =>
    if owner c = some q then { r with calls := r.calls ++ [c] } else r
  | .addProc _ | .addEdge _ _ | .resolveCall _ _ => r

/-- Every change makes of every routine what `revise` says, changes
that are refused included. -/
private theorem routine_apply (g : FlowGraph) (m : Mutation) (q : Proc) :
    (g.apply m).routine q = m.revise g.procOf? q (g.routine q) := by
  cases m with
  | addProc p => exact routine_addProc g p q
  | addNode p n =>
    show (g.addNode p n).routine q = _
    rw [routine_addNode, Mutation.revise]
    split
    next h => rw [h]
    next => rfl
  | addExit n =>
    cases hn : g.procOf? n with
    | none =>
      -- a node without an owner is refused, and nothing is entered
      rw [apply_addExit_of_unowned hn, Mutation.revise, hn, if_neg nofun]
    | some p =>
      rw [apply_addExit hn, routine_updateRoutine, Mutation.revise, hn]
      by_cases h : p = q
      · rw [if_pos h, if_pos (congrArg some h), h]
      · rw [if_neg h, if_neg fun heq => h (Option.some.inj heq)]
  | addEdge a b =>
    show (g.addEdge a b).routine q = g.routine q
    rw [addEdge_eq]
    rfl
  | addCall c r ts =>
    cases hc : g.procOf? c with
    | none =>
      rw [apply_addCall_of_unowned hc, Mutation.revise, hc, if_neg nofun]
    | some p =>
      rw [apply_addCall hc, routine_withCall, Mutation.revise, hc]
      by_cases h : p = q
      · rw [if_pos h, if_pos (congrArg some h), h]
      · rw [if_neg h, if_neg fun heq => h (Option.some.inj heq)]
  | resolveCall c p =>
    show (g.resolve c p).routine q = g.routine q
    rw [resolve_eq]
    rfl

/-- The node that a change registers under a procedure. -/
def Mutation.nodeUnder? (q : Proc) : Mutation → Option Node
  | .addNode p n => if p = q then some n else none
  | _ => none

/-- One change appends the node that it registers. A node that is
registered again under the same procedure is listed again. -/
private theorem nodes_apply (g : FlowGraph) (m : Mutation) (q : Proc) :
    (g.apply m).nodes q = g.nodes q ++ (m.nodeUnder? q).toList := by
  unfold nodes
  rw [routine_apply]
  cases m with
  | addNode p n =>
    by_cases hp : p = q <;> simp [Mutation.revise, Mutation.nodeUnder?, hp]
  | addExit n =>
    by_cases hn : g.procOf? n =
      some q <;> simp [Mutation.revise, Mutation.nodeUnder?, hn]
  | addCall c r ts =>
    by_cases hc : g.procOf? c =
      some q <;> simp [Mutation.revise, Mutation.nodeUnder?, hc]
  | _ => simp [Mutation.revise, Mutation.nodeUnder?]

/-- Nodes are listed as they were registered. Nothing that comes later
takes one out or moves it. -/
theorem nodes_mutateAll (g : FlowGraph) (ms : List Mutation) (q : Proc) :
    (g.mutateAll ms).nodes q = g.nodes q ++
      ms.filterMap (Mutation.nodeUnder? q) := by
  induction ms generalizing g with
  | nil => exact (List.append_nil _).symm
  | cons m ms ih =>
    rw [mutateAll_cons, ih, nodes_apply, List.append_assoc, List.filterMap_cons]
    cases m.nodeUnder? q <;> rfl

/-- Procedures start with their first nodes. There is no other way for
a procedure to get a start. -/
def StartsFirst (g : FlowGraph) : Prop := ∀ p, g.start? p = (g.nodes p).head?

theorem startsFirst_empty : StartsFirst {} := fun _ => rfl

/-- A procedure gets its start with its first node, and both stay. -/
theorem StartsFirst.apply (h : StartsFirst g) (m : Mutation) :
    StartsFirst (g.apply m) := by
  intro q
  have hq : (g.routine q).start = (g.routine q).nodes.head? := h q
  unfold start? nodes
  rw [routine_apply]
  cases m with
  | addNode p n =>
    dsimp only [Mutation.revise]
    split
    · show some ((g.routine q).start.getD n) = _
      rw [hq, List.head?_append]
      cases (g.routine q).nodes.head? <;> rfl
    · exact hq
  | addExit n =>
    dsimp only [Mutation.revise]
    split
    · exact hq
    · exact hq
  | addCall c r ts =>
    dsimp only [Mutation.revise]
    split
    · exact hq
    · exact hq
  | _ => exact hq

theorem StartsFirst.mutateAll (h : StartsFirst g) (ms : List Mutation) :
    StartsFirst (g.mutateAll ms) :=
  mutateAll_keeps (fun m h => h.apply m) ms h

/-- The node that a change makes a call of a procedure. Which procedure
that is depends on who owns the node at the time. -/
def Mutation.callUnder? (owner : Node → Option Proc) (q : Proc) :
    Mutation → Option Node
  | .addCall c _ _ => if owner c = some q then some c else none
  | _ => none

/-- One change appends the call that it makes. -/
private theorem callsWithin_apply (g : FlowGraph) (m : Mutation) (q : Proc) :
    (g.apply m).callsWithin q = g.callsWithin q ++
      (m.callUnder? g.procOf? q).toList := by
  unfold callsWithin
  rw [routine_apply]
  cases m with
  | addNode p n =>
    by_cases hp : p = q <;> simp [Mutation.revise, Mutation.callUnder?, hp]
  | addExit n =>
    by_cases hn : g.procOf? n =
      some q <;> simp [Mutation.revise, Mutation.callUnder?, hn]
  | addCall c r ts =>
    by_cases hc : g.procOf? c =
      some q <;> simp [Mutation.revise, Mutation.callUnder?, hc]
  | _ => simp [Mutation.revise, Mutation.callUnder?]

/-- Calls are listed as they were wired. With wires alone owners do not
change, so they can be read off at the beginning. -/
theorem callsWithin_mutateAll {ms : List Mutation} (hms : ∀ m ∈ ms, m.IsWire)
    (q : Proc) :
    (g.mutateAll ms).callsWithin q =
      g.callsWithin q ++ ms.filterMap (Mutation.callUnder? g.procOf? q) := by
  induction ms generalizing g with
  | nil => exact (List.append_nil _).symm
  | cons m ms ih =>
    have howner := (wired_apply (g := g) (hms m List.mem_cons_self)).procOf?
    rw [mutateAll_cons, ih fun m' hm' => hms m' (List.mem_cons_of_mem _ hm'),
      howner, callsWithin_apply, List.append_assoc, List.filterMap_cons]
    cases m.callUnder? g.procOf? q <;> rfl

-- ====================================================== edges and callees

/-- The calls among some changes are of nodes that have an owner. For
any other node the change is refused, and leaves no trace. -/
def CallsOwned (g : FlowGraph) (ms : List Mutation) : Prop :=
  ∀ c r ts, .addCall c r ts ∈ ms → (g.procOf? c).isSome

/-- Once a node has an owner it always has one, though it may be
another. -/
private theorem isSome_procOf?_apply {n : Node} (h : (g.procOf? n).isSome)
    (m : Mutation) : ((g.apply m).procOf? n).isSome := by
  cases m with
  | addProc p =>
    show ((g.addProc p).procOf? n).isSome
    rw [addProc_eq]
    exact h
  | addNode p k =>
    show ((g.addNode p k).procOf? n).isSome
    rw [procOf?_addNode]
    split
    · rfl
    · exact h
  | addExit x =>
    rw [(wired_addExit x).procOf?]
    exact h
  | addEdge a b =>
    show ((g.addEdge a b).procOf? n).isSome
    rw [addEdge_eq]
    exact h
  | addCall c r ts =>
    rw [(wired_addCall c r ts).procOf?]
    exact h
  | resolveCall c p =>
    show ((g.resolve c p).procOf? n).isSome
    rw [resolve_eq]
    exact h

/-- Later changes find the owners that earlier ones found. A node may
get another owner, but never loses the one it has for none. -/
theorem CallsOwned.tail {m : Mutation} {ms : List Mutation}
    (h : CallsOwned g (m :: ms)) : CallsOwned (g.apply m) ms :=
  fun c r ts hmem => isSome_procOf?_apply
    (h c r ts (List.mem_cons_of_mem _ hmem)) m

/-- The successors that a change gives to a node. A call gives its
return site. -/
def Mutation.successorsOf (n : Node) : Mutation → List Node
  | .addEdge a b => if a = n then [b] else []
  | .addCall c r _ => if c = n then [r] else []
  | _ => []

/-- One change adds the successors that it gives, if they are not
there. -/
private theorem successors_apply {m : Mutation} {ms : List Mutation}
    (h : CallsOwned g (m :: ms)) (n : Node) :
    (g.apply m).successors n = Listing.addAll (g.successors n)
      (m.successorsOf n) := by
  cases m with
  | addProc p =>
    show (g.addProc p).successors n = _
    rw [addProc_eq]
    rfl
  | addNode p k =>
    show (g.addProc p).successors n = _
    rw [addProc_eq]
    rfl
  | addExit x =>
    cases hx : g.procOf? x with
    | none => rw [apply_addExit_of_unowned hx]; rfl
    | some p => rw [apply_addExit hx]; rfl
  | addEdge a b =>
    show (g.addEdge a b).successors n = _
    rw [successors_addEdge, Mutation.successorsOf]
    split
    next ha => rw [ha]; rfl
    next => rfl
  | addCall c r ts =>
    obtain ⟨p, hp⟩ := Option.isSome_iff_exists.mp (h c r ts List.mem_cons_self)
    rw [apply_addCall hp, successors_withCall, Mutation.successorsOf]
    split
    next hc => rw [hc]; rfl
    next => rfl
  | resolveCall c p =>
    show (g.resolve c p).successors n = _
    rw [resolve_eq]
    rfl

/-- Successors are listed as they came, each once. So what a node leads
to is read off the list of changes. -/
theorem successors_mutateAll {ms : List Mutation} (h : CallsOwned g ms)
    (n : Node) :
    (g.mutateAll ms).successors n =
      Listing.addAll (g.successors n)
        (ms.flatMap (Mutation.successorsOf n)) := by
  induction ms generalizing g with
  | nil => rfl
  | cons m ms ih =>
    rw [mutateAll_cons, ih h.tail, successors_apply h, List.flatMap_cons,
        Listing.addAll_append]

/-- The callees that a change gives to a node, by the call itself or by
a target that is resolved later. -/
def Mutation.calleesOf (n : Node) : Mutation → List Proc
  | .addCall c _ ts => if c = n then ts else []
  | .resolveCall c p => if c = n then [p] else []
  | _ => []

/-- Several targets of one call are added one after the other. -/
private theorem callees_foldl_resolve (g : FlowGraph) (c n : Node)
    (ps : List Proc) :
    (ps.foldl (fun g p => g.resolve c p) g).callees n =
      if c = n then Listing.addAll (g.callees n) ps else g.callees n := by
  induction ps generalizing g with
  | nil => exact (ite_self _).symm
  | cons p ps ih =>
    rw [List.foldl_cons, ih, callees_resolve]
    split
    next h => rw [h]; rfl
    next => rfl

/-- One change adds the callees that it gives, if they are not
there. -/
private theorem callees_apply {m : Mutation} {ms : List Mutation}
    (h : CallsOwned g (m :: ms)) (n : Node) :
    (g.apply m).callees n = Listing.addAll (g.callees n) (m.calleesOf n) := by
  cases m with
  | addProc p =>
    show (g.addProc p).callees n = _
    rw [addProc_eq]
    rfl
  | addNode p k =>
    show (g.addProc p).callees n = _
    rw [addProc_eq]
    rfl
  | addExit x =>
    cases hx : g.procOf? x with
    | none => rw [apply_addExit_of_unowned hx]; rfl
    | some p => rw [apply_addExit hx]; rfl
  | addEdge a b =>
    show (g.addEdge a b).callees n = _
    rw [addEdge_eq]
    rfl
  | addCall c r ts =>
    obtain ⟨p, hp⟩ := Option.isSome_iff_exists.mp (h c r ts List.mem_cons_self)
    rw [apply_addCall hp, withCall, callees_foldl_resolve, addEdge_eq,
      Mutation.calleesOf]
    split
    · rfl
    · rfl
  | resolveCall c p =>
    show (g.resolve c p).callees n = _
    rw [callees_resolve, Mutation.calleesOf]
    split
    next hc => rw [hc]; rfl
    next => rfl

/-- Callees are listed as they came, each once. It is the order in
which the solver enters them. -/
theorem callees_mutateAll {ms : List Mutation} (h : CallsOwned g ms)
    (n : Node) :
    (g.mutateAll ms).callees n =
      Listing.addAll (g.callees n) (ms.flatMap (Mutation.calleesOf n)) := by
  induction ms generalizing g with
  | nil => rfl
  | cons m ms ih =>
    rw [mutateAll_cons, ih h.tail, callees_apply h, List.flatMap_cons,
        Listing.addAll_append]

end FlowGraph

end Tabulation
