/-
The graph that a draft lays out fits its statements.

However a draft was written, its nodes are distinct: each statement
takes the next number, and the returns that are added at the end take
numbers beyond. The layout therefore registers each node once. If
branches and jumps stay inside their procedures, so do all edges, and
the graph is well formed. Calls of the graph are exactly the nodes with
a call statement, and exits are exactly those with a return: a body
ends in a return, so that no call is left without a node to return to.
-/
import Mathlib.Data.List.Basic
import Tabulation.Program.Scope
import Tabulation.Proofs.Flow.Registry

namespace Tabulation

-- ====================================================== numbers of a draft

namespace Draft

/-- The nodes of all procedures, in the order in which procedures were
declared. -/
def allNodes (fs : List ProcDraft) : List Node := fs.flatMap ProcDraft.nodes

/-- Statements are numbered apart, below the next number. It is the
invariant of writing a draft. -/
structure IsNumbered (d : Draft) : Prop where
  nodup : (allNodes d.procs).Nodup
  below : ∀ n ∈ allNodes d.procs, n.id < d.next

/-- What is collected from procedures does not change with a part of
them that it does not show. -/
private theorem flatMap_modify {α : Type} {g : ProcDraft → List α}
    {F : ProcDraft → ProcDraft} (hF : ∀ f, g (F f) = g f) (fs : List ProcDraft)
    (i : Nat) : (fs.modify i F).flatMap g = fs.flatMap g := by
  induction fs generalizing i with
  | nil => simp
  | cons f fs ih =>
    cases i with
    | zero => simp [hF]
    | succ i => simp [ih]

/-- What is collected from procedures grows by what is appended to one
of them. -/
theorem flatMap_modify_append {α : Type} {g : ProcDraft → List α}
    {F : ProcDraft → ProcDraft} {new : List α} (hF : ∀ f, g (F f) = g f ++ new)
    {fs : List ProcDraft} {i : Nat} (hi : i < fs.length) :
    ((fs.modify i F).flatMap g).Perm (new ++ fs.flatMap g) := by
  induction fs generalizing i with
  | nil => exact absurd hi (Nat.not_lt_zero i)
  | cons f fs ih =>
    cases i with
    | zero =>
      rw [List.modify_zero_cons, List.flatMap_cons, List.flatMap_cons, hF,
          List.append_assoc]
      exact List.perm_append_comm_assoc _ _ _
    | succ i =>
      rw [List.modify_succ_cons, List.flatMap_cons, List.flatMap_cons]
      exact ((ih (Nat.lt_of_succ_lt_succ hi)).append_left (g f)).trans
        (List.perm_append_comm_assoc _ _ _)

/-- An edit that is made changes one procedure, which exists, and
nothing else. -/
theorem edit_eq_ok {d d' : Draft} {p : Proc} {F : ProcDraft → ProcDraft}
    (h : d.edit p F = .ok d') :
    p.id < d.procs.length ∧ d' = { d with procs := d.procs.modify p.id F } := by
  unfold edit at h
  split at h
  next hp =>
    cases h
    exact ⟨hp, rfl⟩
  next => cases h

/-- Numbering is a matter of the nodes alone, so anything else of a
draft may change. -/
theorem IsNumbered.of_nodes_eq {d d' : Draft} (hd : d.IsNumbered)
    (hprocs : allNodes d'.procs = allNodes d.procs) (hnext : d'.next = d.next) :
    d'.IsNumbered := by
  constructor
  · rw [hprocs]
    exact hd.nodup
  · rw [hprocs, hnext]
    exact hd.below

/-- In particular, edges may be added to a procedure. -/
theorem IsNumbered.edit {d d' : Draft} (hd : d.IsNumbered) {p : Proc}
    {F : ProcDraft → ProcDraft} (hF : ∀ f, (F f).nodes = f.nodes)
    (h : d.edit p F = .ok d') : d'.IsNumbered := by
  obtain ⟨_, rfl⟩ := edit_eq_ok h
  exact hd.of_nodes_eq (flatMap_modify hF d.procs p.id) rfl

/-- A statement that is written takes the next number. The number is
taken even if the procedure does not exist and nothing is written. -/
theorem IsNumbered.write {d : Draft} (hd : d.IsNumbered) (p : Proc) (s : Stmt) :
    (d.write p s).2.IsNumbered := by
  unfold Draft.write
  dsimp only
  cases hedit : Draft.edit { d with next := d.next + 1 } p
      fun f => { f with body := f.body ++ [(⟨d.next⟩, s)] } with
  | error fault =>
    exact ⟨hd.nodup, fun n hn => Nat.lt_succ_of_lt (hd.below n hn)⟩
  | ok d' =>
    obtain ⟨hp, rfl⟩ := edit_eq_ok hedit
    have hnodes : ∀ f : ProcDraft,
        ProcDraft.nodes { f with body := f.body ++ [(⟨d.next⟩, s)] } =
        f.nodes ++ [⟨d.next⟩] := fun f => by simp [ProcDraft.nodes]
    -- the new node is in the middle of the list, at the end of its procedure
    have hperm : (allNodes (d.procs.modify p.id fun f =>
        { f with body := f.body ++ [(⟨d.next⟩, s)] })).Perm
          (⟨d.next⟩ :: allNodes d.procs) :=
      flatMap_modify_append hnodes hp
    have hnew : (⟨d.next⟩ : Node) ∉ allNodes d.procs :=
      fun h => Nat.lt_irrefl _ (hd.below _ h)
    constructor
    · exact hperm.nodup_iff.mpr (List.nodup_cons.mpr ⟨hnew, hd.nodup⟩)
    · intro n hn
      rcases List.mem_cons.mp (hperm.mem_iff.mp hn) with rfl | hn
      · exact Nat.lt_succ_self _
      · exact Nat.lt_succ_of_lt (hd.below n hn)

/-- Every step of writing a draft keeps statements numbered apart. This
is the step lemma for `isNumbered_ofSteps`. -/
theorem IsNumbered.perform {d : Draft} (hd : d.IsNumbered) (step : Step) :
    (d.perform step).2.IsNumbered := by
  cases step with
  | declare name params =>
    have hsame : allNodes (d.declare name params).2.procs =
        allNodes d.procs := by
      simp [declare, allNodes, ProcDraft.nodes]
    exact hd.of_nodes_eq hsame rfl
  | write p s => exact hd.write p s
  | branch p a b =>
    simp only [Draft.perform]
    cases h : d.branch p a b with
    | error fault => exact hd
    | ok d' =>
      unfold Draft.branch at h
      refine hd.edit ?_ h
      exact fun _ => rfl
  | jump p a b =>
    simp only [Draft.perform]
    cases h : d.jump p a b with
    | error fault => exact hd
    | ok d' =>
      unfold Draft.jump at h
      refine hd.edit ?_ h
      exact fun _ => rfl

/-- However a draft was written, its statements are numbered apart.
Steps that are refused count as well. -/
theorem isNumbered_ofSteps (steps : List Step) :
    (ofSteps steps).IsNumbered := by
  have hall : ∀ d : Draft, d.IsNumbered →
      (d.performAll steps).2.IsNumbered := by
    induction steps with
    | nil => exact fun d hd => hd
    | cons step steps ih => exact fun d hd => ih _ (hd.perform step)
  exact hall {} ⟨List.nodup_nil, fun n hn => absurd hn List.not_mem_nil⟩

-- ================================================================= sealing

/-- Every procedure ends in a return once it is sealed: it did before,
or one is added. -/
private theorem needsReturn_of_mem_sealFrom {fs : List ProcDraft} {next : Nat}
    {f : ProcDraft} (h : f ∈ sealFrom next fs) : f.needsReturn = false := by
  induction fs generalizing next with
  | nil => exact absurd h List.not_mem_nil
  | cons f' fs ih =>
    unfold sealFrom at h
    split at h
    next =>
      rcases List.mem_cons.mp h with rfl | h
      · simp [ProcDraft.needsReturn, Stmt.isReturn]
      · exact ih h
    next hdone =>
      rcases List.mem_cons.mp h with rfl | h
      · simpa using hdone
      · exact ih h

/-- Nodes of sealed procedures are nodes that were there, or numbered
beyond: the returns that are added take numbers from `next` on. -/
private theorem mem_allNodes_sealFrom {fs : List ProcDraft} {next : Nat}
    {n : Node} (h : n ∈ allNodes (sealFrom next fs)) :
    n ∈ allNodes fs ∨ next ≤ n.id := by
  induction fs generalizing next with
  | nil => exact absurd h List.not_mem_nil
  | cons f fs ih =>
    unfold sealFrom at h
    unfold allNodes at h ih ⊢
    split at h
    next =>
      simp only [ProcDraft.nodes, List.flatMap_cons, List.map_append,
        List.mem_append, List.map_cons, List.map_nil, List.mem_singleton] at h ⊢
      rcases h with (h | rfl) | h
      · exact Or.inl (Or.inl h)
      · exact Or.inr (Nat.le_refl _)
      · rcases ih h with h | h
        · exact Or.inl (Or.inr h)
        · exact Or.inr (Nat.le_of_succ_le h)
    next =>
      rw [List.flatMap_cons, List.mem_append] at h ⊢
      rcases h with h | h
      · exact Or.inl (Or.inl h)
      · rcases ih h with h | h
        · exact Or.inl (Or.inr h)
        · exact Or.inr h

/-- Read the other way: a number below `next` that no statement has is
not given out by sealing. -/
private theorem not_mem_allNodes_sealFrom {fs : List ProcDraft} {next : Nat}
    {n : Node} (hnot : n ∉ allNodes fs) (hbelow : n.id < next) :
    n ∉ allNodes (sealFrom next fs) := by
  intro h
  rcases mem_allNodes_sealFrom h with h | h
  · exact hnot h
  · omega

/-- Sealing keeps nodes apart. The numbers it gives out are new, and
each is given out once. -/
theorem nodup_sealFrom {fs : List ProcDraft} {next : Nat}
    (hnodup : (allNodes fs).Nodup) (hbelow : ∀ n ∈ allNodes fs, n.id < next) :
    (allNodes (sealFrom next fs)).Nodup := by
  induction fs generalizing next with
  | nil => exact List.nodup_nil
  | cons f fs ih =>
    have hsplit : allNodes (f :: fs) = f.nodes ++ allNodes fs :=
      List.flatMap_cons
    rw [hsplit] at hnodup hbelow
    obtain ⟨hf, hfs, hapart⟩ := List.nodup_append.mp hnodup
    have hbelow_f : ∀ n ∈ f.nodes, n.id < next :=
      fun n hn => hbelow n (List.mem_append_left _ hn)
    have hbelow_fs : ∀ n ∈ allNodes fs, n.id < next :=
      fun n hn => hbelow n (List.mem_append_right _ hn)
    have hapart_fs : ∀ n ∈ f.nodes, n ∉ allNodes fs :=
      fun n hn h => hapart n hn n h rfl
    unfold sealFrom
    split
    next =>
      -- the return that is added is beyond the nodes written, and the later
      -- ones beyond it
      have hnodes :
          allNodes ({ f with body := f.body ++ [(⟨next⟩, .ret none)] } ::
          sealFrom (next + 1) fs) =
            f.nodes ++ ⟨next⟩ :: allNodes (sealFrom (next + 1) fs) := by
        simp [allNodes, ProcDraft.nodes]
      have hrest : (allNodes (sealFrom (next + 1) fs)).Nodup :=
        ih hfs fun n hn => Nat.lt_succ_of_lt (hbelow_fs n hn)
      have hnew : (⟨next⟩ : Node) ∉ allNodes (sealFrom (next + 1) fs) :=
        not_mem_allNodes_sealFrom (fun h => Nat.lt_irrefl _ (hbelow_fs _ h))
          (Nat.lt_succ_self _)
      rw [hnodes]
      refine List.nodup_append.mpr ⟨hf, List.nodup_cons.mpr ⟨hnew, hrest⟩, ?_⟩
      rintro a ha b hb rfl
      rcases List.mem_cons.mp hb with rfl | hb
      · exact Nat.lt_irrefl _ (hbelow_f _ ha)
      · exact not_mem_allNodes_sealFrom (hapart_fs a ha)
          (Nat.lt_succ_of_lt (hbelow_f a ha)) hb
    next =>
      show (f.nodes ++ allNodes (sealFrom next fs)).Nodup
      refine List.nodup_append.mpr ⟨hf, ih hfs hbelow_fs, ?_⟩
      rintro a ha b hb rfl
      exact not_mem_allNodes_sealFrom (hapart_fs a ha) (hbelow_f a ha) hb

end Draft

-- ============================================================== statements

namespace ProcDraft

/-- What is paired with a statement as the next one is a statement of
the same body. -/
theorem mem_of_mem_followed {body : List (Node × Stmt)} {n : Node} {s : Stmt}
    {next : Option Node} (h : (n, s, next) ∈ followed body) :
    (n, s) ∈ body ∧ ∀ m, next = some m → m ∈ body.map Prod.fst := by
  induction body with
  | nil => exact absurd h List.not_mem_nil
  | cons e body ih =>
    obtain ⟨a, t⟩ := e
    unfold followed at h
    rcases List.mem_cons.mp h with h | h
    · cases h
      refine ⟨List.mem_cons_self, fun m hm => List.mem_cons_of_mem _ ?_⟩
      obtain ⟨e, he, rfl⟩ := Option.map_eq_some_iff.mp hm
      exact List.mem_map.mpr ⟨e, List.mem_of_head? he, rfl⟩
    · obtain ⟨hmem, hnext⟩ := ih h
      exact ⟨List.mem_cons_of_mem _ hmem,
          fun m hm => List.mem_cons_of_mem _ (hnext m hm)⟩

/-- Every statement is followed by another one, or is the last. -/
theorem exists_followed {body : List (Node × Stmt)} {n : Node} {s : Stmt}
    (h : (n, s) ∈ body) :
    ∃ next, (n, s, next) ∈ followed body ∧
    (next = none → body.getLast? = some (n, s)) := by
  induction body with
  | nil => exact absurd h List.not_mem_nil
  | cons e body ih =>
    obtain ⟨a, t⟩ := e
    unfold followed
    rcases List.mem_cons.mp h with h | h
    · cases h
      refine ⟨_, List.mem_cons_self, fun hnone => ?_⟩
      rw [Option.map_eq_none_iff, List.head?_eq_none_iff] at hnone
      rw [hnone]
      rfl
    · obtain ⟨next, hmem, hlast⟩ := ih h
      refine ⟨next, List.mem_cons_of_mem _ hmem, fun hnone => ?_⟩
      rw [List.getLast?_cons, hlast hnone]
      rfl

variable {f : ProcDraft}

/-- What a statement contributes to the wiring: an exit if it is a
return, and an edge to the next one if control simply goes on. -/
theorem mem_wireStmt {m : FlowGraph.Mutation} {n : Node} {s : Stmt}
    {next : Option Node} :
    m ∈ f.wireStmt (n, s, next) ↔ (m = .addExit n ∧ s.isReturn = true) ∨
      ∃ k, m = .addEdge n k ∧ next = some k ∧ s.isReturn = false ∧
        s.isCall = false ∧ n ∉ f.redirected := by
  cases s <;> cases next <;> by_cases hr : n ∈ f.redirected <;>
    simp [wireStmt, Stmt.isReturn, Stmt.isCall, hr]

/-- Exits are the nodes of returns. The edges that were asked for add
none. -/
private theorem addExit_mem_wiring {n : Node} :
    .addExit n ∈ f.wiring ↔ ∃ s, (n, s) ∈ f.body ∧ s.isReturn = true := by
  simp only [wiring, List.mem_append, List.mem_flatMap, List.mem_map,
    Prod.exists, mem_wireStmt, reduceCtorEq, false_and, and_false, exists_false,
    or_false, FlowGraph.Mutation.addExit.injEq]
  constructor
  · intro h
    obtain ⟨m, s, next, hmem, rfl, hs⟩ := h
    exact ⟨s, (mem_of_mem_followed hmem).1, hs⟩
  · intro h
    obtain ⟨s, hmem, hs⟩ := h
    obtain ⟨next, hfollowed, _⟩ := exists_followed hmem
    exact ⟨n, s, next, hfollowed, rfl, hs⟩

/-- Edges fall through to the next statement, or were asked for by a
branch or a jump. -/
theorem addEdge_mem_wiring {a b : Node} (h : .addEdge a b ∈ f.wiring) :
    (a ∈ f.nodes ∧ b ∈ f.nodes) ∨ (a, b) ∈ f.extraEdges := by
  rcases List.mem_append.mp h with h | h
  · obtain ⟨⟨n, s, next⟩, hmem, hwire⟩ := List.mem_flatMap.mp h
    obtain ⟨hbody, hnext⟩ := mem_of_mem_followed hmem
    rcases mem_wireStmt.mp hwire with ⟨h, _⟩ | ⟨k, h, hk, _⟩
    · cases h
    · cases h
      exact Or.inl ⟨List.mem_map.mpr ⟨_, hbody, rfl⟩, hnext b hk⟩
  · obtain ⟨e, he, heq⟩ := List.mem_map.mp h
    cases heq
    exact Or.inr he

theorem addCall_not_mem_wiring {c r : Node} {ts : List Proc} :
    .addCall c r ts ∉ f.wiring := by
  simp [wiring, mem_wireStmt]

/-- The wiring does not register anything, so it can be made in any
order once the nodes are there. -/
private theorem isWire_of_mem_wiring {m : FlowGraph.Mutation}
    (h : m ∈ f.wiring) : m.IsWire := by
  rcases List.mem_append.mp h with h | h
  · obtain ⟨⟨n, s, next⟩, _, hwire⟩ := List.mem_flatMap.mp h
    rcases mem_wireStmt.mp hwire with ⟨rfl, _⟩ | ⟨k, rfl, _⟩
    · exact trivial
    · exact trivial
  · obtain ⟨e, _, rfl⟩ := List.mem_map.mp h
    exact trivial

/-- Only a call statement with a next one becomes a call of the graph,
and it returns to that next one. -/
theorem eq_addCall_of_callStmt {m : FlowGraph.Mutation} {n : Node} {s : Stmt}
    {next : Option Node} (h : callStmt (n, s, next) = some m) :
    s.isCall = true ∧ ∃ r ts, next = some r ∧ m = .addCall n r ts := by
  cases s with
  | call callee args result =>
    cases next with
    | none => cases callee <;> cases h
    | some r => cases callee <;> cases h <;> exact ⟨rfl, r, _, rfl, rfl⟩
  | _ => cases next <;> cases h

/-- And every such statement does become one. -/
theorem exists_callStmt {n r : Node} {s : Stmt} (h : s.isCall = true) :
    ∃ ts, callStmt (n, s, some r) = some (.addCall n r ts) := by
  cases s with
  | call callee args result => cases callee <;> exact ⟨_, rfl⟩
  | _ => cases h

/-- A call returns to the next statement of its procedure. So the call
and its return site have the same owner. -/
theorem mem_of_mem_calls {m : FlowGraph.Mutation} (h : m ∈ f.calls) :
    ∃ c r ts, m = .addCall c r ts ∧ c ∈ f.nodes ∧ r ∈ f.nodes ∧
      ∃ s, (c, s) ∈ f.body ∧ s.isCall = true := by
  obtain ⟨⟨n, s, next⟩, hmem, hcall⟩ := List.mem_filterMap.mp h
  obtain ⟨hs, r, ts, hr, rfl⟩ := eq_addCall_of_callStmt hcall
  obtain ⟨hbody, hnext⟩ := mem_of_mem_followed hmem
  exact ⟨n, r, ts, rfl, List.mem_map.mpr ⟨_, hbody, rfl⟩, hnext r hr,
      s, hbody, hs⟩

/-- In a body that ends in a return, every call is followed by
something, since a return is no call. -/
private theorem exists_addCall_mem_calls (hended : f.needsReturn = false)
    {c : Node} {s : Stmt} (h : (c, s) ∈ f.body) (hs : s.isCall = true) :
    ∃ r ts, .addCall c r ts ∈ f.calls := by
  obtain ⟨next, hmem, hlast⟩ := exists_followed h
  cases next with
  | some r =>
    obtain ⟨ts, hts⟩ := exists_callStmt (n := c) (r := r) hs
    exact ⟨r, ts, List.mem_filterMap.mpr ⟨_, hmem, hts⟩⟩
  | none =>
    -- the last statement is a return, and a call is none
    unfold needsReturn at hended
    rw [hlast rfl] at hended
    cases s with
    | call callee args result => cases hended
    | _ => cases hs

end ProcDraft

-- ================================================================ programs

/-- A program whose graph fits its statements. This is what the
analyses of the next modules assume of a program, whether or not it was
built from a draft. -/
structure Program.IsLaidOut (P : Program) : Prop where
  wellFormed : P.graph.icfg.WellFormed
  listsOwnCalls : P.graph.icfg.ListsOwnCalls
  owned : ∀ {n s}, P.stmts.get? n = some s → ∃ p, P.graph.procOf? n = some p
  isCall : ∀ {n s}, P.stmts.get? n = some s → P.graph.isCall n = s.isCall
  isExit : ∀ {n s}, P.stmts.get? n = some s → P.graph.isExit n = s.isReturn

namespace Draft

variable {d : Draft}

/-- The procedures of a sealed draft are those that sealing gives, with
their numbers put next to them. -/
theorem mem_sealed {f : ProcDraft} {p : Proc} (h : (f, p) ∈ d.sealed) :
    f ∈ sealFrom d.next d.procs := by
  obtain ⟨⟨f', i⟩, hmem, heq⟩ := List.mem_map.mp h
  cases heq
  exact (List.mem_zipIdx hmem).2.2 ▸ List.getElem_mem _

theorem map_fst_sealed : d.sealed.map Prod.fst = sealFrom d.next d.procs := by
  unfold sealed
  rw [List.map_map]
  exact List.zipIdx_map_fst 0 _

/-- A table filled from a list without repeated keys holds the list,
and what it held before under other keys. -/
private theorem get?_foldl_insert {κ υ : Type} [DecidableEq κ]
    {es : List (κ × υ)} (hnodup : (es.map Prod.fst).Nodup) (t : Table κ υ)
    (k : κ) (v : υ) :
    (es.foldl (fun t e => t.insert e.1 e.2) t).get? k = some v ↔
      (k, v) ∈ es ∨ (k ∉ es.map Prod.fst ∧ t.get? k = some v) := by
  induction es generalizing t with
  | nil => simp
  | cons e es ih =>
    obtain ⟨a, b⟩ := e
    rw [List.map_cons, List.nodup_cons] at hnodup
    rw [List.foldl_cons, ih hnodup.2, Table.get?_insert]
    grind

/-- A node is registered for a procedure exactly if it is one of its
statements. -/
theorem addNode_mem_registration {p : Proc} {n : Node} :
    .addNode p n ∈ d.sealed.flatMap registration ↔ ∃ f, (f, p) ∈ d.sealed ∧
    n ∈ f.nodes := by
  simp only [List.mem_flatMap, Prod.exists, registration, List.mem_cons,
    reduceCtorEq, List.mem_map, FlowGraph.Mutation.addNode.injEq, false_or,
    ProcDraft.nodes]
  constructor
  · intro h
    obtain ⟨f, q, hmem, m, s, hbody, rfl, rfl⟩ := h
    exact ⟨f, hmem, m, s, hbody, rfl⟩
  · intro h
    obtain ⟨f, hmem, m, s, hbody, rfl⟩ := h
    exact ⟨f, p, hmem, m, s, hbody, rfl, rfl⟩

/-- The nodes registered are those of the sealed procedures, in their
order. With `nodup_sealFrom` each of them is registered once. -/
private theorem registered_registration :
    (d.sealed.flatMap registration).filterMap FlowGraph.Mutation.registered? =
      allNodes (sealFrom d.next d.procs) := by
  rw [← map_fst_sealed, allNodes, List.flatMap_map, List.filterMap_flatMap]
  congr 1
  funext fp
  rw [registration, List.filterMap_cons_none rfl, List.filterMap_map]
  show List.filterMap (some ∘ Prod.fst) fp.1.body = fp.1.body.map Prod.fst
  rw [List.filterMap_eq_map]

/-- The graph after the first round of changes: procedures and nodes
are registered before anything else. -/
def registry (d : Draft) : FlowGraph :=
  FlowGraph.mutateAll {} (d.sealed.flatMap registration)

/-- All other changes: edges and exits of every procedure, and then the
calls. -/
def wires (d : Draft) : List FlowGraph.Mutation :=
  d.sealed.flatMap (fun fp => fp.1.wiring) ++
    d.sealed.flatMap (fun fp => fp.1.calls)

/-- A graph is built in two rounds, so what holds of the registry can
be proved before edges are spoken of. -/
theorem graph_build : d.build.graph = d.registry.mutateAll d.wires := by
  show FlowGraph.mutateAll {} d.layout = _
  unfold layout
  rw [List.append_assoc, FlowGraph.mutateAll_append]
  rfl

/-- The first round only registers procedures and nodes. -/
theorem exists_of_mem_registration {m : FlowGraph.Mutation}
    (hm : m ∈ d.sealed.flatMap registration) :
    (∃ p, m = .addProc p) ∨ ∃ p n, m = .addNode p n := by
  obtain ⟨fp, _, hm⟩ := List.mem_flatMap.mp hm
  rcases List.mem_cons.mp hm with hm | hm
  · exact Or.inl ⟨_, hm⟩
  · obtain ⟨e, _, heq⟩ := List.mem_map.mp hm
    exact Or.inr ⟨_, _, heq.symm⟩

/-- None of these changes is refused, because no node is registered
twice. -/
theorem registered_registry (hnum : d.IsNumbered) :
    FlowGraph.Registered {} (d.sealed.flatMap registration) d.registry := by
  refine FlowGraph.registered_mutateAll (fun m hm => ?_) ?_ (fun _ _ => rfl)
  · rcases exists_of_mem_registration hm with ⟨_, rfl⟩ | ⟨_, _, rfl⟩
    · exact id
    · exact id
  · rw [registered_registration]
    exact nodup_sealFrom hnum.nodup hnum.below

/-- The second round registers nothing. -/
theorem isWire_of_mem_wires {m : FlowGraph.Mutation} (hm : m ∈ d.wires) :
    m.IsWire := by
  rcases List.mem_append.mp hm with hm | hm
  · obtain ⟨fp, _, hm⟩ := List.mem_flatMap.mp hm
    exact ProcDraft.isWire_of_mem_wiring hm
  · obtain ⟨fp, _, hm⟩ := List.mem_flatMap.mp hm
    obtain ⟨c, r, ts, rfl, _⟩ := ProcDraft.mem_of_mem_calls hm
    exact trivial

theorem wired_build : FlowGraph.Wired d.registry d.wires d.build.graph := by
  rw [graph_build]
  exact FlowGraph.wired_mutateAll fun m hm => isWire_of_mem_wires hm

/-- The owner of a node is the procedure whose statement it is. -/
theorem procOf?_registry (hnum : d.IsNumbered) {f : ProcDraft} {p : Proc}
    {n : Node} (hf : (f, p) ∈ d.sealed) (hn : n ∈ f.nodes) :
    d.registry.procOf? n = some p :=
  (registered_registry hnum).procOf?.mpr
    (Or.inr (addNode_mem_registration.mpr ⟨f, hf, hn⟩))

/-- Exits of the whole program are the nodes of returns. -/
private theorem addExit_mem_wires {n : Node} : .addExit n ∈ d.wires ↔
    ∃ f p s, (f, p) ∈ d.sealed ∧ (n, s) ∈ f.body ∧ s.isReturn = true := by
  unfold wires
  rw [List.mem_append, List.mem_flatMap, List.mem_flatMap]
  constructor
  · intro h
    rcases h with ⟨fp, hfp, h⟩ | ⟨fp, hfp, h⟩
    · obtain ⟨s, hs⟩ := ProcDraft.addExit_mem_wiring.mp h
      exact ⟨fp.1, fp.2, s, hfp, hs⟩
    · obtain ⟨_, _, _, h, _⟩ := ProcDraft.mem_of_mem_calls h
      cases h
  · intro h
    obtain ⟨f, p, s, hfp, hs⟩ := h
    exact Or.inl ⟨(f, p), hfp, ProcDraft.addExit_mem_wiring.mpr ⟨s, hs⟩⟩

/-- A call of the program comes from a call statement, and stays in its
procedure. -/
theorem mem_of_addCall_mem_wires {c r : Node} {ts : List Proc}
    (h : .addCall c r ts ∈ d.wires) :
    ∃ f p s, (f, p) ∈ d.sealed ∧ (c, s) ∈ f.body ∧ s.isCall = true ∧
      c ∈ f.nodes ∧ r ∈ f.nodes := by
  rcases List.mem_append.mp h with h | h
  · obtain ⟨fp, _, h⟩ := List.mem_flatMap.mp h
    exact absurd h ProcDraft.addCall_not_mem_wiring
  · obtain ⟨fp, hfp, h⟩ := List.mem_flatMap.mp h
    obtain ⟨_, _, _, heq, hc, hr, s, hs, hcall⟩ := ProcDraft.mem_of_mem_calls h
    cases heq
    exact ⟨fp.1, fp.2, s, hfp, hs, hcall, hc, hr⟩

/-- An edge connects nodes of one procedure. For branches and jumps
this is what `IsScoped` demands. -/
private theorem mem_of_addEdge_mem_wires (hscoped : d.IsScoped) {a b : Node}
    (h : .addEdge a b ∈ d.wires) :
    ∃ f p, (f, p) ∈ d.sealed ∧ a ∈ f.nodes ∧ b ∈ f.nodes := by
  rcases List.mem_append.mp h with h | h
  · obtain ⟨⟨f, p⟩, hfp, h⟩ := List.mem_flatMap.mp h
    rcases ProcDraft.addEdge_mem_wiring h with ⟨ha, hb⟩ | hextra
    · exact ⟨f, p, hfp, ha, hb⟩
    · obtain ⟨ha, hb⟩ := hscoped (f, p) hfp _ hextra
      exact ⟨f, p, hfp, ha, hb⟩
  · obtain ⟨fp, _, h⟩ := List.mem_flatMap.mp h
    obtain ⟨_, _, _, heq, _⟩ := ProcDraft.mem_of_mem_calls h
    cases heq

/-- The statements of a program are those that were written, and the
returns added. -/
theorem get?_stmts_build (hnum : d.IsNumbered) {n : Node} {s : Stmt} :
    d.build.stmts.get? n = some s ↔ ∃ f p, (f, p) ∈ d.sealed ∧
    (n, s) ∈ f.body := by
  have hkeys : ((d.sealed.flatMap fun fp => fp.1.body).map Prod.fst).Nodup := by
    have hnodup := nodup_sealFrom hnum.nodup hnum.below
    rw [← map_fst_sealed, allNodes, List.flatMap_map] at hnodup
    rw [List.map_flatMap]
    exact hnodup
  have hstmts : d.build.stmts =
      (d.sealed.flatMap fun fp => fp.1.body).foldl
        (fun t e => t.insert e.1 e.2) .empty := by
    rw [List.foldl_flatMap]
    rfl
  rw [hstmts, get?_foldl_insert hkeys]
  simp

/-- Every node that a procedure owns has a statement: nothing but
statements is registered. -/
theorem exists_stmt_of_procOf? (hnum : d.IsNumbered) {n : Node} {p : Proc}
    (h : d.build.graph.procOf? n = some p) :
    ∃ s, d.build.stmts.get? n = some s := by
  rw [wired_build.procOf?] at h
  rcases (registered_registry hnum).procOf?.mp h with h | h
  · cases h
  · obtain ⟨f, hf, hn⟩ := addNode_mem_registration.mp h
    obtain ⟨⟨m, s⟩, hbody, rfl⟩ := List.mem_map.mp hn
    exact ⟨s, (get?_stmts_build hnum).mpr ⟨f, p, hf, hbody⟩⟩

/-- Calls of the graph are the nodes with a call. A call without a next
statement would be lost, but there is none in a sealed body. -/
theorem isCall_build (hnum : d.IsNumbered) {n : Node} {s : Stmt}
    (h : d.build.stmts.get? n = some s) :
    d.build.graph.isCall n = s.isCall := by
  obtain ⟨f, p, hfp, hs⟩ := (get?_stmts_build hnum).mp h
  have howned := procOf?_registry hnum hfp (List.mem_map.mpr ⟨_, hs, rfl⟩)
  rw [Bool.eq_iff_iff, wired_build.isCall]
  constructor
  · intro hcall
    -- a call of the graph was one before the wiring, which has none, or was
    -- added for a statement, and a node has one statement
    rcases hcall with hcall | ⟨r, ts, hcall, _⟩
    · rw [FlowGraph.isCall_eq, (registered_registry hnum).returnSite?] at hcall
      cases hcall
    · obtain ⟨f', p', s', hfp', hs', hcall', _⟩ :=
        mem_of_addCall_mem_wires hcall
      have h' := (get?_stmts_build hnum).mpr ⟨f', p', hfp', hs'⟩
      rw [Option.some.inj (h.symm.trans h')]
      exact hcall'
  · intro hcall
    have hended := needsReturn_of_mem_sealFrom (mem_sealed hfp)
    obtain ⟨r, ts, hmem⟩ := ProcDraft.exists_addCall_mem_calls hended hs hcall
    refine Or.inr
      ⟨r, ts, List.mem_append_right _ (List.mem_flatMap.mpr ⟨_, hfp, hmem⟩), ?_⟩
    rw [howned]
    rfl

/-- Exits of the graph are the nodes with a return. -/
theorem isExit_build (hnum : d.IsNumbered) {n : Node} {s : Stmt}
    (h : d.build.stmts.get? n = some s) :
    d.build.graph.isExit n = s.isReturn := by
  obtain ⟨f, p, hfp, hs⟩ := (get?_stmts_build hnum).mp h
  have howned := procOf?_registry hnum hfp (List.mem_map.mpr ⟨_, hs, rfl⟩)
  have hview : d.build.graph.isExit n = true ↔ n ∈ d.build.graph.exits p := by
    unfold FlowGraph.isExit
    rw [wired_build.procOf?, howned]
    exact decide_eq_true_iff
  rw [Bool.eq_iff_iff, hview, wired_build.exits, addExit_mem_wires]
  constructor
  · intro hexit
    rcases hexit with hexit | ⟨⟨f', p', s', hfp', hs', hret⟩, _⟩
    · rw [(registered_registry hnum).exits] at hexit
      exact absurd hexit List.not_mem_nil
    · have h' := (get?_stmts_build hnum).mpr ⟨f', p', hfp', hs'⟩
      rw [Option.some.inj (h.symm.trans h')]
      exact hret
  · exact fun hret => Or.inr ⟨⟨f, p, s, hfp, hs, hret⟩, howned⟩

/-- The graph of a draft without stray branches fits its statements.
Only well-formedness needs the assumption on branches. -/
theorem isLaidOut_build (hnum : d.IsNumbered) (hscoped : d.IsScoped) :
    d.build.IsLaidOut where
  wellFormed := by
    refine FlowGraph.wellFormed_of_registered (registered_registry hnum)
      wired_build ?_ ?_
    · intro a b h
      obtain ⟨f, p, hfp, ha, hb⟩ := mem_of_addEdge_mem_wires hscoped h
      exact ⟨p, procOf?_registry hnum hfp ha, procOf?_registry hnum hfp hb⟩
    · intro c r ts h
      obtain ⟨f, p, _, hfp, _, _, hc, hr⟩ := mem_of_addCall_mem_wires h
      exact ⟨p, procOf?_registry hnum hfp hc, procOf?_registry hnum hfp hr⟩
  listsOwnCalls := FlowGraph.listsOwnCalls_of_registered
    (registered_registry hnum) wired_build
  owned := by
    intro n s h
    obtain ⟨f, p, hfp, hs⟩ := (get?_stmts_build hnum).mp h
    rw [wired_build.procOf?]
    exact ⟨p, procOf?_registry hnum hfp (List.mem_map.mpr ⟨_, hs, rfl⟩)⟩
  isCall := isCall_build hnum
  isExit := isExit_build hnum

/-- Answers that are no faults are replies. Drafts that were written
without a fault are described by such a list. -/
theorem answered_of_isOk {answers : List (Except Fault Reply)}
    (hok : ∀ answer ∈ answers, answer.isOk = true) :
    ∀ answer ∈ answers, ∃ reply, answer = .ok reply := by
  intro answer h
  cases answer with
  | ok reply => exact ⟨reply, rfl⟩
  | error fault => exact absurd (hok _ h) nofun

end Draft

end Tabulation
