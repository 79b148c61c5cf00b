/-
The edges of a program that was built.

Control goes from a statement to the one written after it, and along
branches and jumps. A return does not go on, and a jump takes the place
of the way to the next statement. A call is different: it goes on to
the next statement in any case, since that is where it returns to.

# Lines

All this is read off the lines of a draft: its statements, each with
the node after it and the procedure it is written in. Nodes are
numbered apart, so a node has one line (`eq_of_mem_lines`).

# Branches and jumps

The extra edges of a draft are those that its steps asked for
(`mem_extraEdges_ofSteps`).
-/
import Mathlib.Data.List.Nodup
import Tabulation.Proofs.Program.Layout

namespace Tabulation

/-- A call does not return. -/
theorem Stmt.isReturn_of_isCall {s : Stmt} (h : s.isCall = true) :
    s.isReturn = false := by
  cases s with
  | call callee args result => rfl
  | _ => cases h

namespace ProcDraft

theorem map_fst_followed (body : List (Node × Stmt)) :
    (followed body).map Prod.fst = body.map Prod.fst := by
  induction body with
  | nil => rfl
  | cons e body ih => exact congrArg (e.1 :: ·) ih

end ProcDraft

namespace Draft

variable {d : Draft} {a b c n m r : Node} {s : Stmt}

-- =================================================================== lines

/-- The statements, each with the node after it and the procedure it is
written in. -/
def lines (d : Draft) : List ((Node × Stmt × Option Node) × ProcDraft) :=
  d.sealed.flatMap fun fp => (ProcDraft.followed fp.1.body).map fun line =>
    (line, fp.1)

theorem mem_lines {line : Node × Stmt × Option Node} {f : ProcDraft} :
    (line, f) ∈ d.lines ↔ ∃ p, (f, p) ∈ d.sealed ∧
    line ∈ ProcDraft.followed f.body := by
  unfold lines
  rw [List.mem_flatMap]
  constructor
  · intro h
    obtain ⟨fp, hfp, h⟩ := h
    obtain ⟨line', hline, heq⟩ := List.mem_map.mp h
    cases heq
    exact ⟨fp.2, hfp, hline⟩
  · intro h
    obtain ⟨p, hfp, hline⟩ := h
    exact ⟨(f, p), hfp, List.mem_map.mpr ⟨line, hline, rfl⟩⟩

/-- The lines have the nodes of the sealed procedures, in their order.
This is how what is known about nodes is carried over to lines. -/
private theorem map_node_lines :
    d.lines.map (fun line => line.1.1) =
      allNodes (sealFrom d.next d.procs) := by
  rw [← map_fst_sealed, allNodes, List.flatMap_map, lines, List.map_flatMap]
  congr 1
  funext fp
  rw [List.map_map]
  exact ProcDraft.map_fst_followed fp.1.body

/-- A node has one line, because statements are numbered apart. So to
have a line of a node is to have its statement and its procedure. -/
private theorem eq_of_mem_lines (hnum : d.IsNumbered) {x y : Stmt × Option Node}
    {f g : ProcDraft} (h : ((n, x), f) ∈ d.lines) (h' : ((n, y), g) ∈ d.lines) :
    x = y ∧ f = g := by
  have hnodup : (d.lines.map fun line => line.1.1).Nodup := by
    rw [map_node_lines]
    exact nodup_sealFrom hnum.nodup hnum.below
  have heq := List.inj_on_of_nodup_map hnodup h h' rfl
  cases heq
  exact ⟨rfl, rfl⟩

/-- A node with a statement has a line, in the procedure that was
sealed with it. -/
private theorem exists_mem_lines (hnum : d.IsNumbered)
    (hs : d.build.stmts.get? n = some s) :
    ∃ next f, ((n, s, next), f) ∈ d.lines := by
  obtain ⟨f, p, hfp, hbody⟩ := (get?_stmts_build hnum).mp hs
  obtain ⟨next, hfollowed, _⟩ := ProcDraft.exists_followed hbody
  exact ⟨next, f, mem_lines.mpr ⟨p, hfp, hfollowed⟩⟩

private theorem isSome_procOf?_of_mem_lines (hnum : d.IsNumbered)
    {x : Stmt × Option Node} {f : ProcDraft} (h : ((n, x), f) ∈ d.lines) :
    (d.registry.procOf? n).isSome := by
  obtain ⟨p, hfp, hline⟩ := mem_lines.mp h
  have hbody := (ProcDraft.mem_of_mem_followed hline).1
  rw [procOf?_registry hnum hfp (List.mem_map.mpr ⟨_, hbody, rfl⟩)]
  rfl

-- ============================================================= extra edges

/-- The branches and jumps of all procedures, as they were asked for.
Whether they leave a call or any other statement is not looked at. -/
def extraEdges (d : Draft) : List (Node × Node) :=
  d.procs.flatMap ProcDraft.extraEdges

/-- Sealing adds statements and no edges. The return that it may add
leads nowhere. -/
private theorem map_extraEdges_sealFrom (fs : List ProcDraft) (next : Nat) :
    (sealFrom next fs).map ProcDraft.extraEdges =
      fs.map ProcDraft.extraEdges := by
  induction fs generalizing next with
  | nil => rfl
  | cons f fs ih =>
    unfold sealFrom
    split
    · exact congrArg (f.extraEdges :: ·) (ih (next + 1))
    · exact congrArg (f.extraEdges :: ·) (ih next)

private theorem mem_extraEdges :
    (a, b) ∈ d.extraEdges ↔ ∃ f p, (f, p) ∈ d.sealed ∧
    (a, b) ∈ f.extraEdges := by
  have hsealed : d.extraEdges = d.sealed.flatMap fun fp => fp.1.extraEdges := by
    unfold extraEdges
    rw [List.flatMap_def, ← map_extraEdges_sealFrom d.procs d.next,
      ← map_fst_sealed, List.map_map, List.flatMap_def]
    rfl
  rw [hsealed, List.mem_flatMap]
  exact Prod.exists

-- =================================================================== edges

/-- The edges that are wired: from a statement to the next one where
control simply goes on, and those that were asked for. -/
private theorem addEdge_mem_wires :
    .addEdge a b ∈ d.wires ↔
    (∃ s f, ((a, s, some b), f) ∈ d.lines ∧ s.isReturn = false ∧
      s.isCall = false ∧ a ∉ f.redirected) ∨ (a, b) ∈ d.extraEdges := by
  unfold wires
  rw [List.mem_append, List.mem_flatMap, List.mem_flatMap, mem_extraEdges]
  constructor
  · intro h
    rcases h with ⟨⟨f, p⟩, hfp, h⟩ | ⟨fp, hfp, h⟩
    · rcases List.mem_append.mp h with h | h
      · obtain ⟨⟨k, s, next⟩, hline, hwire⟩ := List.mem_flatMap.mp h
        rcases ProcDraft.mem_wireStmt.mp hwire
          with ⟨heq, _⟩ | ⟨_, heq, rfl, hplain⟩
        · cases heq
        · cases heq
          exact Or.inl ⟨s, f, mem_lines.mpr ⟨p, hfp, hline⟩, hplain⟩
      · obtain ⟨e, he, heq⟩ := List.mem_map.mp h
        cases heq
        exact Or.inr ⟨f, p, hfp, he⟩
    · obtain ⟨_, _, _, heq, _⟩ := ProcDraft.mem_of_mem_calls h
      cases heq
  · intro h
    rcases h with ⟨s, f, hline, hplain⟩ | ⟨f, p, hfp, h⟩
    · obtain ⟨p, hfp, hline⟩ := mem_lines.mp hline
      refine Or.inl ⟨(f, p), hfp,
          List.mem_append_left _ (List.mem_flatMap.mpr ⟨_, hline, ?_⟩)⟩
      exact ProcDraft.mem_wireStmt.mpr (Or.inr ⟨b, rfl, rfl, hplain⟩)
    · exact Or.inl ⟨(f, p), hfp,
          List.mem_append_right _ (List.mem_map.mpr ⟨(a, b), h, rfl⟩)⟩

/-- The calls that are wired: those of call statements with a next one.
After sealing every call has a next one. -/
private theorem addCall_mem_wires : (∃ ts, .addCall c r ts ∈ d.wires) ↔
    ∃ s f, ((c, s, some r), f) ∈ d.lines ∧ s.isCall = true := by
  constructor
  · intro h
    obtain ⟨ts, h⟩ := h
    rcases List.mem_append.mp h with h | h
    · obtain ⟨fp, _, h⟩ := List.mem_flatMap.mp h
      exact absurd h ProcDraft.addCall_not_mem_wiring
    · obtain ⟨⟨f, p⟩, hfp, h⟩ := List.mem_flatMap.mp h
      obtain ⟨⟨k, s, next⟩, hline, hstmt⟩ := List.mem_filterMap.mp h
      obtain ⟨hs, _, _, rfl, heq⟩ := ProcDraft.eq_addCall_of_callStmt hstmt
      cases heq
      exact ⟨s, f, mem_lines.mpr ⟨p, hfp, hline⟩, hs⟩
  · intro h
    obtain ⟨s, f, hline, hs⟩ := h
    obtain ⟨p, hfp, hline⟩ := mem_lines.mp hline
    obtain ⟨ts, hstmt⟩ := ProcDraft.exists_callStmt (n := c) (r := r) hs
    refine ⟨ts, List.mem_append_right _
        (List.mem_flatMap.mpr ⟨(f, p), hfp, ?_⟩)⟩
    exact List.mem_filterMap.mpr ⟨_, hline, hstmt⟩

/-- A call returns to the next statement. The wiring sets return sites
once for each node, since a node has one line. -/
theorem returnSite?_build (hnum : d.IsNumbered) :
    d.build.graph.returnSite? c = some r ↔
    ∃ s f, ((c, s, some r), f) ∈ d.lines ∧ s.isCall = true := by
  have hforth : ∀ {r}, d.build.graph.returnSite? c = some r →
      ∃ s f, ((c, s, some r), f) ∈ d.lines ∧ s.isCall = true := by
    intro r hr
    rcases wired_build.returnSite? hr with h | h
    · rw [(registered_registry hnum).returnSite?] at h
      cases h
    · exact addCall_mem_wires.mp h
  refine ⟨hforth, fun h => ?_⟩
  obtain ⟨s, f, hline, hs⟩ := h
  obtain ⟨ts, hwire⟩ := addCall_mem_wires.mpr ⟨s, f, hline, hs⟩
  have hcall : d.build.graph.isCall c = true :=
    wired_build.isCall.mpr
      (Or.inr ⟨r, ts, hwire, isSome_procOf?_of_mem_lines hnum hline⟩)
  -- some node is returned to, and it can only be the one of this line
  rw [FlowGraph.isCall_eq] at hcall
  obtain ⟨r', hr'⟩ := Option.isSome_iff_exists.mp hcall
  obtain ⟨s', f', hline', _⟩ := hforth hr'
  have heq := (eq_of_mem_lines hnum hline hline').1
  cases heq
  exact hr'

/-- Control goes on to the next statement, unless the statement returns
or a jump redirects it; a call cannot be redirected. Besides there are
the branches and jumps. -/
private theorem mem_successors_build (hnum : d.IsNumbered) :
    m ∈ d.build.graph.successors n ↔
    (∃ s f, ((n, s, some m), f) ∈ d.lines ∧ s.isReturn = false ∧
      (s.isCall = true ∨ n ∉ f.redirected)) ∨ (n, m) ∈ d.extraEdges := by
  rw [wired_build.successors, (registered_registry hnum).successors,
      addEdge_mem_wires]
  constructor
  · intro h
    rcases h with h | (⟨s, f, hline, hret, _, hstay⟩ | h) | ⟨ts, h, _⟩
    · exact absurd h List.not_mem_nil
    · exact Or.inl ⟨s, f, hline, hret, Or.inr hstay⟩
    · exact Or.inr h
    · obtain ⟨s, f, hline, hcall⟩ := addCall_mem_wires.mp ⟨ts, h⟩
      exact Or.inl ⟨s, f, hline, Stmt.isReturn_of_isCall hcall, Or.inl hcall⟩
  · intro h
    rcases h with ⟨s, f, hline, hret, hgoes⟩ | h
    · cases hcall : s.isCall with
      | true =>
        obtain ⟨ts, hwire⟩ := addCall_mem_wires.mpr ⟨s, f, hline, hcall⟩
        exact Or.inr
          (Or.inr ⟨ts, hwire, isSome_procOf?_of_mem_lines hnum hline⟩)
      | false =>
        rw [hcall] at hgoes
        exact Or.inr
          (Or.inl (Or.inl ⟨s, f, hline, hret, hcall, hgoes.resolve_left nofun⟩))
    · exact Or.inr (Or.inl (Or.inr h))

/-- A call goes on to the node it returns to, and along branches and
jumps. -/
theorem mem_successors_of_isCall (hnum : d.IsNumbered)
    (hs : d.build.stmts.get? c = some s) (hcall : s.isCall = true) :
    m ∈ d.build.graph.successors c ↔
      d.build.graph.returnSite? c = some m ∨ (c, m) ∈ d.extraEdges := by
  rw [mem_successors_build hnum, returnSite?_build hnum]
  obtain ⟨next, f, hline⟩ := exists_mem_lines hnum hs
  have hstmt : ∀ {s' f'}, ((c, s', some m), f') ∈ d.lines → s' = s := by
    intro s' f' hline'
    exact congrArg Prod.fst (eq_of_mem_lines hnum hline' hline).1
  constructor
  · intro h
    rcases h with ⟨s', f', hline', _⟩ | h
    · obtain rfl := hstmt hline'
      exact Or.inl ⟨s', f', hline', hcall⟩
    · exact Or.inr h
  · intro h
    rcases h with ⟨s', f', hline', hcall'⟩ | h
    · exact Or.inl ⟨s', f', hline', Stmt.isReturn_of_isCall hcall',
          Or.inl hcall'⟩
    · exact Or.inr h

-- =================================================================== steps

/-- What a step does that succeeds. Steps that fail leave no trace but
a number. -/
inductive Performed (d : Draft) : Step → Reply → Draft → Prop
  | declare (name : String) (params : List Var) :
      Performed d (.declare name params) (.proc ⟨d.procs.length⟩)
        (d.declare name params).2
  | write {p : Proc} {s : Stmt} {d' : Draft}
      (hedit : Draft.edit { d with next := d.next + 1 } p
        (fun f => { f with body := f.body ++ [(⟨d.next⟩, s)] }) = .ok d') :
      Performed d (.write p s) (.node ⟨d.next⟩) d'
  | branch {p : Proc} {a b : Node} {d' : Draft}
      (hedit : d.branch p a b = .ok d') : Performed d (.branch p a b) .done d'
  | jump {p : Proc} {a b : Node} {d' : Draft} (hedit : d.jump p a b = .ok d') :
      Performed d (.jump p a b) .done d'

/-- A step that is answered without a fault has done what it asks
for. -/
theorem performed_of_ok {step : Step} {reply : Reply}
    (hok : (d.perform step).1 = .ok reply) :
    Performed d step reply (d.perform step).2 := by
  cases step with
  | declare name params =>
    cases hok
    exact .declare name params
  -- a fault in the edit would have been the answer
  | write p s =>
    simp only [perform, Draft.write] at hok ⊢
    cases hedit : Draft.edit { d with next := d.next + 1 } p
        fun f => { f with body := f.body ++ [(⟨d.next⟩, s)] } with
    | error fault =>
      rw [hedit] at hok
      cases hok
    | ok d' =>
      rw [hedit] at hok
      cases hok
      exact .write hedit
  | branch p a b =>
    simp only [perform] at hok ⊢
    cases hedit : d.branch p a b with
    | error fault =>
      rw [hedit] at hok
      cases hok
    | ok d' =>
      rw [hedit] at hok
      cases hok
      exact .branch hedit
  | jump p a b =>
    simp only [perform] at hok ⊢
    cases hedit : d.jump p a b with
    | error fault =>
      rw [hedit] at hok
      cases hok
    | ok d' =>
      rw [hedit] at hok
      cases hok
      exact .jump hedit

/-- A branch or a jump from one node to another. The procedure is the
one that the step was made for. -/
def Step.Diverts (step : Step) (a b : Node) : Prop :=
  ∃ p, step = .branch p a b ∨ step = .jump p a b

/-- An edit that appends extra edges to a procedure. All other
procedures keep theirs. -/
private theorem mem_extraEdges_edit {d' : Draft} {p : Proc}
    {F : ProcDraft → ProcDraft} {new : List (Node × Node)}
    (h : d.edit p F = .ok d')
    (hF : ∀ f, (F f).extraEdges = f.extraEdges ++ new) :
    (a, b) ∈ d'.extraEdges ↔ (a, b) ∈ d.extraEdges ∨ (a, b) ∈ new := by
  obtain ⟨hp, rfl⟩ := edit_eq_ok h
  unfold extraEdges
  rw [(flatMap_modify_append hF hp).mem_iff, List.mem_append]
  exact Or.comm

/-- A step that succeeds adds the edge that it asks for, if it does.
Declarations and statements ask for none. -/
theorem Performed.mem_extraEdges {step : Step} {reply : Reply} {d' : Draft}
    (h : Performed d step reply d') :
    (a, b) ∈ d'.extraEdges ↔ (a, b) ∈ d.extraEdges ∨ step.Diverts a b := by
  cases h with
  | declare name params => simp [Draft.declare, extraEdges, Step.Diverts]
  | write hedit =>
    rw [mem_extraEdges_edit hedit fun _ => (List.append_nil _).symm]
    simp [extraEdges, Step.Diverts]
  | branch hedit =>
    rw [mem_extraEdges_edit hedit fun _ => rfl]
    simp [Step.Diverts, eq_comm]
  | jump hedit =>
    rw [mem_extraEdges_edit hedit fun _ => rfl]
    simp [Step.Diverts, eq_comm]

/-- So the edges of a draft are those that it had and those that steps
asked for. -/
private theorem mem_extraEdges_performAll {steps : List Step}
    (h : ∀ answer ∈ (d.performAll steps).1, ∃ reply, answer = .ok reply) :
    (a, b) ∈ (d.performAll steps).2.extraEdges ↔
      (a, b) ∈ d.extraEdges ∨ ∃ step ∈ steps, step.Diverts a b := by
  induction steps generalizing d with
  | nil => simp [performAll]
  | cons step steps ih =>
    obtain ⟨reply, hreply⟩ := h _ List.mem_cons_self
    have hrest := ih (d := (d.perform step).2) fun answer ha =>
      h answer (List.mem_cons_of_mem _ ha)
    show (a, b) ∈ ((d.perform step).2.performAll steps).2.extraEdges ↔ _
    rw [hrest, (performed_of_ok hreply).mem_extraEdges, or_assoc]
    simp only [List.mem_cons, exists_eq_or_imp]

/-- The extra edges of a program are those that its steps asked for,
provided that all of them succeeded. -/
theorem mem_extraEdges_ofSteps {steps : List Step}
    (hok : ∀ answer ∈ (performAll {} steps).1, ∃ reply, answer = .ok reply) :
    (a, b) ∈ (ofSteps steps).extraEdges ↔ ∃ step ∈ steps, step.Diverts a b := by
  unfold ofSteps
  rw [mem_extraEdges_performAll hok]
  exact or_iff_right List.not_mem_nil

end Draft

end Tabulation
