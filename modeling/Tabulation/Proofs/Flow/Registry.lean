/-
What changes do to a flow graph, and which ones make it well formed.

Changes are read off the questions a solver asks: who owns a node,
where it leads, which nodes are calls and exits. There are two kinds.
Registrations give nodes an owner and procedures a start
(`Registered`). Wires are all the others; they leave ownership and
starts as they are (`Wired`). What a whole list of changes of one kind
does is said in terms of which changes it lists, whatever their order.

A graph that is laid out by registering distinct nodes and then wiring
inside procedures is well formed as the solver sees it
(`wellFormed_of_registered`), and its procedures list their own calls
and no others (`listsOwnCalls_of_registered`).
-/
import Tabulation.Flow.WellFormed
import Tabulation.Proofs.Ensures
import Tabulation.Proofs.Growth

namespace Tabulation

/-- A procedure lists calls of its own only. A node that changes its
owner after it became a call would break this. -/
def Icfg.ListsOwnCalls (I : Icfg) : Prop :=
  ∀ {p : Proc} {c : Node}, c ∈ I.callsWithin p → I.procOf? c = some p

namespace FlowGraph

variable {g : FlowGraph}

-- ============================================================ one change

theorem mutateAll_cons (g : FlowGraph) (m : Mutation) (ms : List Mutation) :
    g.mutateAll (m :: ms) = (g.apply m).mutateAll ms := rfl

/-- What every change keeps is kept by all of them together. Changes
that are refused do nothing, so they count as well. -/
theorem mutateAll_keeps {P : FlowGraph → Prop}
    (hstep : ∀ {g} (m : Mutation), P g → P (g.apply m)) (ms : List Mutation)
    (h : P g) : P (g.mutateAll ms) := by
  induction ms generalizing g with
  | nil => exact h
  | cons m ms ih => exact ih (hstep m h)

theorem mutateAll_append (g : FlowGraph) (ms ms' : List Mutation) :
    g.mutateAll (ms ++ ms') = (g.mutateAll ms).mutateAll ms' :=
  List.foldl_append

/-- What an update of one routine shows of every routine. -/
theorem routine_updateRoutine (g : FlowGraph) (p q : Proc)
    (f : Routine → Routine) :
    (g.updateRoutine p f).routine q = if p = q then f (g.routine p)
      else g.routine q :=
  Table.getD_update g.routines p q {} f

/-- What an update of one routine leaves alone is as it was in all of
them. It saves going through the two cases once for every field. -/
private theorem field_routine_eq {g' : FlowGraph} {p : Proc} {r : Routine}
    {α : Type} (h : ∀ q, g'.routine q = if p = q then r else g.routine q)
    (field : Routine → α) (hfield : field r = field (g.routine p)) (q : Proc) :
    field (g'.routine q) = field (g.routine q) := by
  rw [h]
  split
  next heq => rw [hfield, heq]
  next => rfl

/-- Registering a procedure gives it an empty routine, which is what an
unknown one is taken to have. -/
theorem routine_addProc (g : FlowGraph) (p q : Proc) :
    (g.addProc p).routine q = g.routine q := by
  unfold addProc
  split
  · rfl
  · rw [routine_updateRoutine]
    split
    next h => rw [h, id]
    next => rfl

/-- Registering a procedure is not seen by the questions about nodes.
It changes the routines and nothing else. -/
theorem addProc_eq (g : FlowGraph) (p : Proc) :
    g.addProc p = { g with routines := (g.addProc p).routines } := by
  unfold addProc
  split <;> rfl

/-- Registering a node gives it an owner, also if it had one before.
The last registration counts. -/
theorem procOf?_addNode (g : FlowGraph) (p : Proc) (n m : Node) :
    (g.addNode p n).procOf? m = if n = m then some p else g.procOf? m := by
  show ((g.addProc p).owner.insert n p).get? m = _
  rw [addProc_eq, Table.get?_insert]
  rfl

/-- The first node that is registered for a procedure is its start, and
stays so. -/
theorem routine_addNode (g : FlowGraph) (p q : Proc) (n : Node) :
    (g.addNode p n).routine q =
      if p = q then
        { g.routine p with
          nodes := (g.routine p).nodes ++ [n]
          start := some ((g.routine p).start.getD n) }
      else g.routine q := by
  unfold addNode
  rw [routine_updateRoutine]
  show (if p = q then _ else (g.addProc p).routine q) = _
  rw [routine_addProc]
  show (if p = q then
      { (g.addProc p).routine p with
        nodes := ((g.addProc p).routine p).nodes ++ [n]
        start := some (((g.addProc p).routine p).start.getD n) }
    else g.routine q) = _
  rw [routine_addProc]

/-- An edge is listed once, after those that the node had. -/
theorem successors_addEdge (g : FlowGraph) (a b n : Node) :
    (g.addEdge a b).successors n =
      if a = n then Listing.add (g.successors a) b else g.successors n := by
  unfold addEdge Listing.add
  by_cases hb : b ∈ g.successors a
  · rw [if_pos hb, if_pos hb]
    split
    next h => rw [h]
    next => rfl
  · rw [if_neg hb, if_neg hb]
    exact Table.getD_update g.successorIndex a n [] (· ++ [b])

/-- An edge is seen by the question for successors only. -/
theorem addEdge_eq (g : FlowGraph) (a b : Node) :
    g.addEdge a b =
      { g with
        successorIndex := (g.addEdge a b).successorIndex
        predecessorIndex := (g.addEdge a b).predecessorIndex } := by
  unfold addEdge
  split <;> rfl

/-- A call target is seen by the questions for callees and callers
only. -/
theorem resolve_eq (g : FlowGraph) (c : Node) (p : Proc) :
    g.resolve c p =
      { g with
        calleeIndex := (g.resolve c p).calleeIndex
        callerIndex := (g.resolve c p).callerIndex
        revision := (g.resolve c p).revision } := by
  by_cases hp : p ∈ g.callees c
  · rw [resolve_of_mem hp]
  · rw [resolve_of_not_mem hp]

/-- And so are several targets of one call. -/
private theorem foldl_resolve_eq (g : FlowGraph) (c : Node) (ps : List Proc) :
    ps.foldl (fun g p => g.resolve c p) g =
      { g with
        calleeIndex := (ps.foldl (fun g p => g.resolve c p) g).calleeIndex
        callerIndex := (ps.foldl (fun g p => g.resolve c p) g).callerIndex
        revision := (ps.foldl (fun g p => g.resolve c p) g).revision } := by
  induction ps generalizing g with
  | nil => rfl
  | cons p ps ih =>
    rw [List.foldl_cons, ih (g.resolve c p), resolve_eq]

/-- A node that is owned has its owner looked up, and the graph
stays. -/
private theorem ownerOf_eq_ok {n : Node} {p : Proc}
    (hp : g.procOf? n = some p) : ownerOf n g = .ok p g := by
  unfold ownerOf
  rw [get_bind_apply]
  simp only [hp]
  rfl

/-- For a node that is not, the lookup fails and the graph stays. -/
private theorem ownerOf_eq_error {n : Node} (hp : g.procOf? n = none) :
    ownerOf n g = .error (.unknownNode n) g := by
  unfold ownerOf
  rw [get_bind_apply]
  simp only [hp]
  rfl

/-- An exit is added to the procedure that owns the node, once. -/
theorem mutate_addExit {n : Node} {p : Proc} (hp : g.procOf? n = some p) :
    mutate (.addExit n) g =
      .ok none (g.updateRoutine p fun r =>
        { r with exits := Listing.add r.exits n }) := by
  have hadd : addExit n g = .ok () (g.updateRoutine p fun r =>
      { r with exits := Listing.add r.exits n }) :=
    bind_of_ok (ownerOf_eq_ok hp) _
  exact bind_of_ok hadd _

/-- A node without an owner cannot be an exit. The change is refused,
with the graph as it was. -/
theorem mutate_addExit_of_unowned {n : Node} (hp : g.procOf? n = none) :
    mutate (.addExit n) g = .error (.unknownNode n) g := by
  have hadd : addExit n g = .error (.unknownNode n) g :=
    bind_of_error (ownerOf_eq_error hp) _
  exact bind_of_error hadd _

/-- The graph with one more call of the procedure `p`, its edge to the
return site and its targets. -/
def withCall (g : FlowGraph) (p : Proc) (c r : Node) (ts : List Proc) :
    FlowGraph :=
  ts.foldl (fun g p => g.resolve c p)
    ({ g.updateRoutine p fun r => { r with calls := r.calls ++ [c] } with
        returnSites := g.returnSites.insert c r }.addEdge c r)

/-- A call is added to the procedure that owns the node, with its
return site and its targets. -/
theorem mutate_addCall {c : Node} {p : Proc} (hp : g.procOf? c = some p)
    (r : Node) (ts : List Proc) :
    mutate (.addCall c r ts) g = .ok none (g.withCall p c r ts) := by
  have hadd : addCall c r ts g = .ok () (g.withCall p c r ts) :=
    bind_of_ok (ownerOf_eq_ok hp) _
  exact bind_of_ok hadd _

/-- A node without an owner cannot be a call. The return site and the
targets are not looked at. -/
theorem mutate_addCall_of_unowned {c : Node} (hp : g.procOf? c = none)
    (r : Node) (ts : List Proc) :
    mutate (.addCall c r ts) g = .error (.unknownNode c) g := by
  have hadd : addCall c r ts g = .error (.unknownNode c) g :=
    bind_of_error (ownerOf_eq_error hp) _
  exact bind_of_error hadd _

/-- Owners are asked for before anything is written, so a change that
is refused leaves the graph as it found it. -/
theorem eq_of_mutate_eq_error {m : Mutation} {fault : Fault} {g' : FlowGraph}
    (h : mutate m g = .error fault g') : g' = g := by
  cases m with
  | addExit n =>
    cases hn : g.procOf? n with
    | none =>
      rw [mutate_addExit_of_unowned hn] at h
      cases h
      rfl
    | some p =>
      rw [mutate_addExit hn] at h
      cases h
  | addCall c r ts =>
    cases hc : g.procOf? c with
    | none =>
      rw [mutate_addCall_of_unowned hc] at h
      cases h
      rfl
    | some p =>
      rw [mutate_addCall hc] at h
      cases h
  | _ => cases h

theorem apply_addExit {n : Node} {p : Proc} (hp : g.procOf? n = some p) :
    g.apply (.addExit n) =
      g.updateRoutine p fun r => { r with exits := Listing.add r.exits n } := by
  rw [apply, mutate_addExit hp]

theorem apply_addExit_of_unowned {n : Node} (hp : g.procOf? n = none) :
    g.apply (.addExit n) = g := by
  rw [apply, mutate_addExit_of_unowned hp]

theorem apply_addCall {c : Node} {p : Proc} (hp : g.procOf? c = some p)
    (r : Node) (ts : List Proc) :
    g.apply (.addCall c r ts) = g.withCall p c r ts := by
  rw [apply, mutate_addCall hp]

theorem apply_addCall_of_unowned {c : Node} (hp : g.procOf? c = none)
    (r : Node) (ts : List Proc) : g.apply (.addCall c r ts) = g := by
  rw [apply, mutate_addCall_of_unowned hp]

private theorem procOf?_withCall (g : FlowGraph) (p : Proc) (c r : Node)
    (ts : List Proc) : (g.withCall p c r ts).procOf? = g.procOf? := by
  rw [withCall, foldl_resolve_eq, addEdge_eq]
  rfl

/-- In the routines, a call shows as one more call of its procedure. -/
theorem routine_withCall (g : FlowGraph) (p : Proc) (c r : Node)
    (ts : List Proc) (q : Proc) :
    (g.withCall p c r ts).routine q =
      if p = q then { g.routine p with calls := (g.routine p).calls ++ [c] }
      else g.routine q := by
  rw [withCall, foldl_resolve_eq, addEdge_eq]
  exact routine_updateRoutine g p q _

/-- A call leads to its return site like to any successor. Whether an
edge is followed is up to the solver. -/
theorem successors_withCall (g : FlowGraph) (p : Proc) (c r : Node)
    (ts : List Proc) (n : Node) :
    (g.withCall p c r ts).successors n =
      if c = n then Listing.add (g.successors c) r else g.successors n := by
  rw [withCall, foldl_resolve_eq]
  exact successors_addEdge _ c r n

private theorem returnSite?_withCall (g : FlowGraph) (p : Proc) (c r : Node)
    (ts : List Proc) (n : Node) :
    (g.withCall p c r ts).returnSite? n =
      if c = n then some r else g.returnSite? n := by
  rw [withCall, foldl_resolve_eq, addEdge_eq]
  exact Table.get?_insert g.returnSites c n r

-- ================================================================== wires

/-- A change that registers nothing: it may fail for want of an owner,
but gives none. -/
def Mutation.IsWire : Mutation → Prop
  | .addProc _ => False
  | .addNode _ _ => False
  | _ => True

/-- How wires show: `g'` is `g` after the changes `ms`. Each field but
the first two says of one question how its answers grow, in terms of
what `ms` lists. -/
structure Wired (g : FlowGraph) (ms : List Mutation) (g' : FlowGraph) :
    Prop where
  procOf? : g'.procOf? = g.procOf?
  start? : g'.start? = g.start?
  exits : ∀ {p n}, n ∈ g'.exits p ↔ n ∈ g.exits p ∨
    (.addExit n ∈ ms ∧ g.procOf? n = some p)
  callsWithin : ∀ {p c}, c ∈ g'.callsWithin p ↔
    c ∈ g.callsWithin p ∨ ∃ r ts, .addCall c r ts ∈ ms ∧ g.procOf? c = some p
  successors : ∀ {n m}, m ∈ g'.successors n ↔ m ∈ g.successors n ∨
    .addEdge n m ∈ ms ∨ ∃ ts, .addCall n m ts ∈ ms ∧ (g.procOf? n).isSome
  /-- Only one direction: a call that is added again gets another
  return site. -/
  returnSite? : ∀ {n r}, g'.returnSite? n = some r →
    g.returnSite? n = some r ∨ ∃ ts, .addCall n r ts ∈ ms
  isCall : ∀ {n}, g'.isCall n = true ↔
    g.isCall n = true ∨ ∃ r ts, .addCall n r ts ∈ ms ∧ (g.procOf? n).isSome

namespace Wired

theorem nil (g : FlowGraph) : Wired g [] g := by
  constructor <;> simp

/-- One list of wires after another. Owners are the same before both,
so which changes are refused does not depend on the order. -/
theorem append {g' g'' : FlowGraph} {ms ms' : List Mutation} (h : Wired g ms g')
    (h' : Wired g' ms' g'') : Wired g (ms ++ ms') g'' where
  procOf? := h'.procOf?.trans h.procOf?
  start? := h'.start?.trans h.start?
  exits := by
    intro p n
    rw [h'.exits, h.exits, h.procOf?, List.mem_append]
    grind
  callsWithin := by
    intro p c
    rw [h'.callsWithin, h.callsWithin, h.procOf?]
    simp only [List.mem_append]
    grind
  successors := by
    intro n m
    rw [h'.successors, h.successors, h.procOf?]
    simp only [List.mem_append]
    grind
  returnSite? := by
    intro n r hr
    simp only [List.mem_append]
    rcases h'.returnSite? hr with hr | ⟨ts, hts⟩
    · rcases h.returnSite? hr with hr | ⟨ts, hts⟩
      · exact Or.inl hr
      · exact Or.inr ⟨ts, Or.inl hts⟩
    · exact Or.inr ⟨ts, Or.inr hts⟩
  isCall := by
    intro n
    rw [h'.isCall, h.isCall, h.procOf?]
    simp only [List.mem_append]
    grind

end Wired

/-- A node is a call if it has a return site. There is no other mark on
it. -/
theorem isCall_eq (g : FlowGraph) (n : Node) :
    g.isCall n = (g.returnSite? n).isSome :=
  rfl

/-- One exit, as a wire. -/
theorem wired_addExit (x : Node) :
    Wired g [.addExit x] (g.apply (.addExit x)) := by
  cases hx : g.procOf? x with
  | none =>
    rw [apply_addExit_of_unowned hx]
    constructor <;> simp
    grind
  | some q =>
    rw [apply_addExit hx]
    have hroutine := fun p => routine_updateRoutine g q p fun r =>
      { r with exits := Listing.add r.exits x }
    refine ⟨rfl, funext fun p => ?_, fun {p n} => ?_,
        fun {p c} => ?_, ?_, ?_, ?_⟩
    · exact field_routine_eq hroutine Routine.start rfl p
    · unfold exits
      rw [hroutine]
      -- the owner gets the exit, and all others keep theirs
      by_cases hp : q = p
      · subst hp
        rw [if_pos rfl, Listing.mem_add, List.mem_singleton]
        grind
      · rw [if_neg hp, List.mem_singleton]
        grind
    · have hsame := field_routine_eq hroutine Routine.calls rfl p
      unfold callsWithin
      rw [hsame]
      simp
    · simp [updateRoutine, successors]
    · simp [updateRoutine, returnSite?]
    · simp [updateRoutine, isCall]

/-- One edge, as a wire. It needs no owners. -/
private theorem wired_addEdge (a b : Node) :
    Wired g [.addEdge a b] (g.addEdge a b) := by
  have hsucc := successors_addEdge g a b
  rw [addEdge_eq] at hsucc ⊢
  refine ⟨rfl, rfl, ?_, ?_, fun {n m} => ?_, ?_, ?_⟩
  · simp [exits, routine]
  · simp [callsWithin, routine]
  · rw [hsucc]
    by_cases hn : a = n
    · subst hn
      rw [if_pos rfl, Listing.mem_add]
      simp
    · rw [if_neg hn]
      simp [Ne.symm hn]
  · simp [returnSite?]
  · simp [isCall]

/-- One call, as a wire. It shows in three places: with its owner,
among the successors, and as a return site. -/
theorem wired_addCall (c r : Node) (ts : List Proc) :
    Wired g [.addCall c r ts] (g.apply (.addCall c r ts)) := by
  cases hc : g.procOf? c with
  | none =>
    rw [apply_addCall_of_unowned hc]
    constructor <;> simp
    all_goals grind
  | some q =>
    have hroutine := routine_withCall g q c r ts
    rw [apply_addCall hc]
    refine ⟨procOf?_withCall g q c r ts, funext fun p => ?_, fun {p n} => ?_,
      fun {p n} => ?_, fun {n m} => ?_, fun {n r'} h => ?_, fun {n} => ?_⟩
    · exact field_routine_eq hroutine Routine.start rfl p
    · have hsame := field_routine_eq hroutine Routine.exits rfl p
      unfold exits
      rw [hsame]
      simp
    -- the list has one change, so what it lists is read off first
    · have hlisted : (∃ r' ts', .addCall n r' ts' ∈ [Mutation.addCall c r ts] ∧
          g.procOf? n = some p) ↔ n = c ∧ g.procOf? n = some p := by simp
      unfold callsWithin
      rw [hroutine, hlisted]
      by_cases hp : q = p
      · subst hp
        rw [if_pos rfl, List.mem_append, List.mem_singleton]
        grind
      · rw [if_neg hp]
        grind
    · rw [successors_withCall]
      by_cases hn : c = n
      · subst hn
        rw [if_pos rfl, Listing.mem_add]
        simp [hc]
      · rw [if_neg hn]
        simp [Ne.symm hn]
    · rw [returnSite?_withCall] at h
      by_cases hn : c = n
      · subst hn
        rw [if_pos rfl] at h
        cases h
        exact Or.inr ⟨ts, List.mem_singleton.mpr rfl⟩
      · rw [if_neg hn] at h
        exact Or.inl h
    · rw [isCall_eq, isCall_eq, returnSite?_withCall]
      by_cases hn : c = n
      · subst hn
        simp [hc]
      · simp [hn, Ne.symm hn]

/-- One wire of any kind. -/
theorem wired_apply {m : Mutation} (hm : m.IsWire) :
    Wired g [m] (g.apply m) := by
  cases m with
  | addProc p => exact absurd hm id
  | addNode p n => exact absurd hm id
  | addExit x => exact wired_addExit x
  | addEdge a b => exact wired_addEdge a b
  | addCall c r ts => exact wired_addCall c r ts
  | resolveCall c p =>
    show Wired g _ (g.resolve c p)
    rw [resolve_eq]
    refine ⟨rfl, rfl, ?_, ?_, ?_, ?_, ?_⟩ <;>
      simp [exits, callsWithin, successors, returnSite?, isCall, routine]

/-- Wires, one after the other. What they show does not depend on their
order. -/
theorem wired_mutateAll {ms : List Mutation} (hms : ∀ m ∈ ms, m.IsWire) :
    Wired g ms (g.mutateAll ms) := by
  induction ms generalizing g with
  | nil => exact .nil g
  | cons m ms ih =>
    exact (wired_apply (hms m List.mem_cons_self)).append
      (ih fun m' hm' => hms m' (List.mem_cons_of_mem _ hm'))

-- =========================================================== registration

/-- The node that a change registers. -/
def Mutation.registered? : Mutation → Option Node
  | .addNode _ n => some n
  | _ => none

/-- How registrations show: `g'` is `g` after the changes `ms`. Only
owners and starts change. -/
structure Registered (g : FlowGraph) (ms : List Mutation) (g' : FlowGraph) :
    Prop where
  procOf? : ∀ {n p}, g'.procOf? n = some p ↔ g.procOf? n = some p ∨
    .addNode p n ∈ ms
  /-- Only one direction: of several nodes, the first one is the start. -/
  start? : ∀ {p n}, g'.start? p = some n → g.start? p = some n ∨
    .addNode p n ∈ ms
  exits : g'.exits = g.exits
  callsWithin : g'.callsWithin = g.callsWithin
  successors : g'.successors = g.successors
  returnSite? : g'.returnSite? = g.returnSite?

/-- One procedure, as a registration. -/
private theorem registered_addProc (p : Proc) :
    Registered g [.addProc p] (g.addProc p) := by
  have hroutine := routine_addProc g p
  refine ⟨fun {n q} => ?_, fun {q n} h => ?_, funext fun q => ?_,
      funext fun q => ?_, ?_, ?_⟩
  · rw [addProc_eq]
    simp [procOf?]
  · unfold start? at h
    rw [hroutine] at h
    exact Or.inl h
  · unfold exits
    rw [hroutine]
  · unfold callsWithin
    rw [hroutine]
  · rw [addProc_eq]
    rfl
  · rw [addProc_eq]
    rfl

/-- A node that is registered must be new, or it would move from one
procedure to another. -/
private theorem registered_addNode {p : Proc} {n : Node}
    (hn : g.procOf? n = none) :
    Registered g [.addNode p n] (g.addNode p n) := by
  have hroutine := routine_addNode g p
  refine ⟨fun {m q} => ?_, fun {q m} h => ?_, funext fun q => ?_,
      funext fun q => ?_, ?_, ?_⟩
  · rw [procOf?_addNode]
    by_cases hm : n = m
    · subst hm
      simp [hn, eq_comm]
    · simp [hm, Ne.symm hm]
  · unfold start? at h ⊢
    rw [hroutine] at h
    by_cases hq : p = q
    · subst hq
      rw [if_pos rfl] at h
      -- the first node under a procedure becomes its start
      cases hstart : (g.routine p).start with
      | none =>
        rw [hstart] at h
        cases h
        exact Or.inr (List.mem_singleton.mpr rfl)
      | some s =>
        rw [hstart] at h
        exact Or.inl h
    · rw [if_neg hq] at h
      exact Or.inl h
  · exact field_routine_eq (hroutine · n) Routine.exits rfl q
  · exact field_routine_eq (hroutine · n) Routine.calls rfl q
  · show (g.addProc p).successors = _
    rw [addProc_eq]
    rfl
  · show (g.addProc p).returnSite? = _
    rw [addProc_eq]
    rfl

/-- Registrations of distinct new nodes, one after the other. A node
that is still to come has no owner yet, because the ones before it are
others. -/
theorem registered_mutateAll {ms : List Mutation} (hms : ∀ m ∈ ms, ¬m.IsWire)
    (hnodup : (ms.filterMap Mutation.registered?).Nodup)
    (hfresh : ∀ n ∈ ms.filterMap Mutation.registered?, g.procOf? n = none) :
    Registered g ms (g.mutateAll ms) := by
  induction ms generalizing g with
  | nil => constructor <;> simp [mutateAll]
  | cons m ms ih =>
    have hrest : ∀ m ∈ ms, ¬m.IsWire :=
      fun m' hm' => hms m' (List.mem_cons_of_mem _ hm')
    rw [mutateAll_cons]
    -- the head is registered by itself, and the nodes of the tail are still new
    -- after it
    have hstep : Registered g [m] (g.apply m) ∧
        Registered (g.apply m) ms ((g.apply m).mutateAll ms) := by
      cases m with
      | addProc p =>
        have hfirst := registered_addProc (g := g) p
        refine ⟨hfirst, ih hrest hnodup fun n hn => ?_⟩
        rw [Option.eq_none_iff_forall_ne_some]
        intro q hq
        rcases hfirst.procOf?.mp hq with hq | hq
        · exact absurd ((hfresh n hn).symm.trans hq) nofun
        · exact absurd (List.mem_singleton.mp hq) nofun
      | addNode p n =>
        have hfirst := registered_addNode (p := p) (hfresh n List.mem_cons_self)
        have hnodup' := List.nodup_cons.mp hnodup
        refine ⟨hfirst, ih hrest hnodup'.2 fun m hm => ?_⟩
        rw [Option.eq_none_iff_forall_ne_some]
        intro q hq
        rcases hfirst.procOf?.mp hq with hq | hq
        · exact absurd
            ((hfresh m (List.mem_cons_of_mem _ hm)).symm.trans hq) nofun
        · cases List.mem_singleton.mp hq
          exact hnodup'.1 hm
      | addExit n => exact absurd trivial (hms _ List.mem_cons_self)
      | addEdge a b => exact absurd trivial (hms _ List.mem_cons_self)
      | addCall c r ts => exact absurd trivial (hms _ List.mem_cons_self)
      | resolveCall c p => exact absurd trivial (hms _ List.mem_cons_self)
    obtain ⟨hfirst, hlater⟩ := hstep
    refine ⟨fun {n p} => ?_, fun {p n} h => ?_, hlater.exits.trans hfirst.exits,
      hlater.callsWithin.trans hfirst.callsWithin,
      hlater.successors.trans hfirst.successors,
      hlater.returnSite?.trans hfirst.returnSite?⟩
    · rw [hlater.procOf?, hfirst.procOf?, List.mem_singleton, List.mem_cons]
      grind
    · rcases hlater.start? h with h | h
      · rcases hfirst.start? h with h | h
        · exact Or.inl h
        · exact Or.inr (List.mem_cons.mpr (Or.inl (List.mem_singleton.mp h)))
      · exact Or.inr (List.mem_cons_of_mem _ h)

-- ================================================== after any changes

/-- Every procedure that owns a node has a start. The solver relies on
it when it summarises a procedure at an exit. -/
def OwnersStart (g : FlowGraph) : Prop :=
  ∀ (n : Node) (p : Proc), g.procOf? n = some p →
  ∃ start, g.start? p = some start

theorem OwnersStart.addNode (h : OwnersStart g) (p : Proc) (n : Node) :
    OwnersStart (g.addNode p n) := by
  intro m q hq
  have hroutine := routine_addNode g p q n
  unfold start?
  by_cases hpq : p = q
  · rw [hroutine, if_pos hpq]
    exact ⟨_, rfl⟩
  · rw [hroutine, if_neg hpq]
    rw [procOf?_addNode] at hq
    split at hq
    · exact absurd (Option.some.inj hq) hpq
    · exact h m q hq

/-- No change takes this away: wires leave owners and starts alone, and
a node that is registered brings a start with it. -/
theorem OwnersStart.apply (h : OwnersStart g) (m : Mutation) :
    OwnersStart (g.apply m) := by
  have hsame : (g.apply m).procOf? = g.procOf? → (g.apply m).start? = g.start? →
      OwnersStart (g.apply m) := by
    intro hproc hstart n p hp
    rw [hproc] at hp
    rw [hstart]
    exact h n p hp
  cases m with
  | addProc p =>
    refine hsame ?_ (funext fun q => ?_)
    · show (g.addProc p).procOf? = g.procOf?
      rw [addProc_eq]
      rfl
    · show ((g.addProc p).routine q).start = (g.routine q).start
      rw [routine_addProc]
  | addNode p n => exact h.addNode p n
  | addExit x => exact hsame (wired_addExit x).procOf? (wired_addExit x).start?
  | addEdge a b =>
    exact hsame (wired_addEdge a b).procOf? (wired_addEdge a b).start?
  | addCall c r ts =>
    exact hsame (wired_addCall c r ts).procOf? (wired_addCall c r ts).start?
  | resolveCall c p =>
    have hwired : Wired g [.resolveCall c p] (g.apply (.resolveCall c p)) :=
      wired_apply trivial
    exact hsame hwired.procOf? hwired.start?

/-- However a graph was changed, the procedures that own nodes have
starts. -/
theorem OwnersStart.mutateAll (h : OwnersStart g) (ms : List Mutation) :
    OwnersStart (g.mutateAll ms) :=
  mutateAll_keeps (fun m h => h.apply m) ms h

theorem ownersStart_empty : OwnersStart {} := fun _ _ h => nomatch h

/-- No call site lists a target twice. So nothing is counted twice when
the targets are gone through. -/
def CalleesOnce (g : FlowGraph) : Prop := ∀ c, (g.callees c).Nodup

/-- The condition, as the solver sees the graph. -/
theorem CalleesOnce.nodup_callees_icfg (h : CalleesOnce g) (c : Node) :
    (g.icfg.callees c).Nodup :=
  h c

/-- A target is added only if it is not listed, so none comes to be
listed twice. -/
theorem CalleesOnce.resolve (h : CalleesOnce g) (c : Node) (p : Proc) :
    CalleesOnce (g.resolve c p) := by
  intro c'
  rw [callees_resolve]
  split
  · exact Listing.nodup_add (h c) p
  · exact h c'

theorem CalleesOnce.foldl_resolve (h : CalleesOnce g) (c : Node)
    (ps : List Proc) : CalleesOnce (ps.foldl (fun g p => g.resolve c p) g) := by
  induction ps generalizing g with
  | nil => exact h
  | cons p ps ih => exact ih (h.resolve c p)

theorem CalleesOnce.addProc (h : CalleesOnce g) (p : Proc) :
    CalleesOnce (g.addProc p) := by
  rw [addProc_eq]
  exact h

theorem CalleesOnce.addEdge (h : CalleesOnce g) (a b : Node) :
    CalleesOnce (g.addEdge a b) := by
  rw [addEdge_eq]
  exact h

/-- Targets are only ever added one by one, so every change keeps it. -/
theorem CalleesOnce.apply (h : CalleesOnce g) (m : Mutation) :
    CalleesOnce (g.apply m) := by
  cases m with
  | addProc p => exact h.addProc p
  | addNode p n => exact h.addProc p
  | addExit x =>
    cases hx : g.procOf? x with
    | none =>
      rw [apply_addExit_of_unowned hx]
      exact h
    | some p =>
      rw [apply_addExit hx]
      exact h
  | addEdge a b => exact h.addEdge a b
  | addCall c r ts =>
    cases hc : g.procOf? c with
    | none =>
      rw [apply_addCall_of_unowned hc]
      exact h
    | some p =>
      rw [apply_addCall hc]
      refine CalleesOnce.foldl_resolve (CalleesOnce.addEdge ?_ c r) c ts
      exact h
  | resolveCall c p => exact h.resolve c p

/-- However a graph was changed, its call sites list their targets
once. -/
theorem CalleesOnce.mutateAll (h : CalleesOnce g) (ms : List Mutation) :
    CalleesOnce (g.mutateAll ms) :=
  mutateAll_keeps (fun m h => h.apply m) ms h

theorem calleesOnce_empty : CalleesOnce {} := fun _ => List.nodup_nil

-- ============================================================ well formed

/-- Registrations of distinct nodes, and then wires inside procedures,
lay out a graph that is well formed. The conditions on wires are about
the owners that the registrations gave. -/
theorem wellFormed_of_registered {g₁ g₂ : FlowGraph}
    {regs wires : List Mutation} (hreg : Registered {} regs g₁)
    (hwired : Wired g₁ wires g₂)
    (hedge : ∀ {a b}, .addEdge a b ∈ wires → ∃ p, g₁.procOf? a = some p ∧
      g₁.procOf? b = some p) (hcall : ∀ {c r ts}, .addCall c r ts ∈ wires →
      ∃ p, g₁.procOf? c = some p ∧ g₁.procOf? r = some p) :
    g₂.icfg.WellFormed where
  start_owned := by
    intro p s hs
    show g₂.procOf? s = some p
    have hs₁ : g₁.start? p = some s := by
      rw [← hwired.start?]
      exact hs
    rw [hwired.procOf?, hreg.procOf?]
    rcases hreg.start? hs₁ with h | h
    · cases h
    · exact Or.inr h
  successor_owned := by
    intro p n m hn hm
    change g₂.procOf? n = some p at hn
    show g₂.procOf? m = some p
    rw [hwired.procOf?] at hn ⊢
    -- an edge into `m` was wired, alone or with a call
    have hinside : ∃ q, g₁.procOf? n = some q ∧ g₁.procOf? m = some q := by
      rcases hwired.successors.mp hm with h | h | ⟨ts, h, _⟩
      · rw [hreg.successors] at h
        exact absurd h List.not_mem_nil
      · exact hedge h
      · exact hcall h
    obtain ⟨q, hq, hmq⟩ := hinside
    obtain rfl := Option.some.inj (hn.symm.trans hq)
    exact hmq
  returnSite_owned := by
    intro p c r hc hr
    change g₂.procOf? c = some p at hc
    show g₂.procOf? r = some p
    rw [hwired.procOf?] at hc ⊢
    rcases hwired.returnSite? hr with h | ⟨ts, h⟩
    · rw [hreg.returnSite?] at h
      cases h
    · obtain ⟨q, hq, hrq⟩ := hcall h
      obtain rfl := Option.some.inj (hc.symm.trans hq)
      exact hrq
  call_listed := by
    intro p c hc hcalls
    change g₂.procOf? c = some p at hc
    show c ∈ g₂.callsWithin p
    rw [hwired.procOf?] at hc
    rcases hwired.isCall.mp hcalls with h | ⟨r, ts, h, _⟩
    · rw [isCall_eq, hreg.returnSite?] at h
      cases h
    · exact hwired.callsWithin.mpr (Or.inr ⟨r, ts, h, hc⟩)
  exit_known := fun _ => rfl

/-- Calls that are wired after all nodes were registered are listed by
their owners only. -/
theorem listsOwnCalls_of_registered {g₁ g₂ : FlowGraph}
    {regs wires : List Mutation} (hreg : Registered {} regs g₁)
    (hwired : Wired g₁ wires g₂) : g₂.icfg.ListsOwnCalls := by
  intro p c hc
  show g₂.procOf? c = some p
  rw [hwired.procOf?]
  rcases hwired.callsWithin.mp hc with h | ⟨r, ts, _, hp⟩
  · rw [hreg.callsWithin] at h
    exact absurd h List.not_mem_nil
  · exact hp

end FlowGraph

end Tabulation
