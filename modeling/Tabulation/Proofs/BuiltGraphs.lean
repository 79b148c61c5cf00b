/-
The graph of a program is the one its steps describe.

A draft is built in three passes: all nodes, then exits and edges
procedure by procedure, and calls last. Nothing of that order is left
in the program. A procedure lists its text; a node belongs to the one
procedure in whose text it is; calls and exits are the statements that
look like it; and control goes on from a statement as it is written
(`Program.Realizes`).

# One line at a time

What a graph has for a node is collected from all changes of the
layout. But a node stands in one line of one text, and the changes that
other lines ask for are about other nodes (`flatMap_sealed`,
`flatMap_followed`).
-/
import Tabulation.Proofs.Flow.Listings
import Tabulation.Proofs.Program.Text

namespace Tabulation

open FlowGraph

/-- A list that is collected from one member only, all others giving
nothing. -/
private theorem Listing.flatMap_of_unique {α β : Type} {l : List α}
    {h : α → List β} {a : α} (hnodup : l.Nodup) (ha : a ∈ l)
    (hother : ∀ b ∈ l, b ≠ a → h b = []) : l.flatMap h = h a := by
  induction l with
  | nil => exact absurd ha List.not_mem_nil
  | cons b l ih =>
    rw [List.nodup_cons] at hnodup
    have hrest : ∀ c ∈ l, c ≠ a → h c = [] :=
      fun c hc => hother c (List.mem_cons_of_mem _ hc)
    rw [List.flatMap_cons]
    rcases List.mem_cons.mp ha with rfl | ha
    · have hnil : l.flatMap h = [] := List.flatMap_eq_nil_iff.mpr fun c hc =>
        hrest c hc fun heq => hnodup.1 (heq ▸ hc)
      rw [hnil, List.append_nil]
    · have hne : b ≠ a := fun heq => hnodup.1 (heq ▸ ha)
      rw [hother b List.mem_cons_self hne, ih hnodup.2 ha hrest]
      rfl

/-- The targets that a call names. An indirect call names none; its
targets can be resolved later. -/
def Callee.targets : Callee → List Proc
  | .direct p => [p]
  | .indirect => []

namespace ProcDraft

/-- What is followed by nothing is last, as every other statement is
listed with the one after it. -/
private theorem getLast?_of_followed {body : List (Node × Stmt)} {n : Node}
    {s : Stmt} (h : (n, s, none) ∈ followed body) :
    body.getLast? = some (n, s) := by
  induction body with
  | nil => exact absurd h List.not_mem_nil
  | cons e body ih =>
    obtain ⟨a, t⟩ := e
    unfold followed at h
    rcases List.mem_cons.mp h with h | h
    · have hlast : body.head?.map Prod.fst = none :=
        (congrArg (fun line => line.2.2) h).symm
      rw [Option.map_eq_none_iff, List.head?_eq_none_iff] at hlast
      subst hlast
      cases h
      rfl
    · rw [List.getLast?_cons, ih h]
      rfl

/-- What is read off the lines of calls alone: the calls of the body,
in its order. -/
private theorem filterMap_followed {body : List (Node × Stmt)}
    {g : Node × Stmt × Option Node → Option Node}
    (hg : ∀ line ∈ followed body,
      g line = if line.2.1.isCall then some line.1 else none) :
    (followed body).filterMap g = (body.filter (·.2.isCall)).map Prod.fst := by
  induction body with
  | nil => rfl
  | cons e body ih =>
    obtain ⟨n, s⟩ := e
    unfold followed at hg ⊢
    have hfirst := hg _ List.mem_cons_self
    have hrest := ih fun line hline => hg line (List.mem_cons_of_mem _ hline)
    rw [List.filterMap_cons, hfirst, hrest]
    cases hs : s.isCall with
    | true => simp [hs]
    | false => simp [hs]

/-- A call with a statement after it becomes a call of the graph, with
the target that it names. -/
private theorem callStmt_call (n r : Node) (callee : Callee) (args : List Var)
    (result : Option Var) :
    callStmt (n, .call callee args result, some r) =
      some (.addCall n r callee.targets) := by
  cases callee <;> rfl

private theorem callStmt_of_not_isCall {s : Stmt} (hs : s.isCall = false)
    (n : Node) (next : Option Node) : callStmt (n, s, next) = none := by
  cases s with
  | call callee args result => cases hs
  | _ => rfl

/-- Exits and edges are wired, and nothing else. Calls are added in the
last pass. -/
private theorem exists_of_mem_wiring {f : ProcDraft} {m : Mutation}
    (hm : m ∈ f.wiring) : (∃ n, m = .addExit n) ∨ ∃ a b, m = .addEdge a b := by
  rcases List.mem_append.mp hm with hm | hm
  · obtain ⟨line, _, hwire⟩ := List.mem_flatMap.mp hm
    rcases mem_wireStmt.mp hwire with ⟨heq, _⟩ | ⟨k, heq, _⟩
    · exact Or.inl ⟨_, heq⟩
    · exact Or.inr ⟨_, _, heq⟩
  · obtain ⟨e, _, heq⟩ := List.mem_map.mp hm
    exact Or.inr ⟨_, _, heq.symm⟩

end ProcDraft

namespace Draft

variable {d : Draft} {steps : List Step} {p q : Proc} {f : ProcDraft} {n : Node}
variable {s : Stmt}
variable {next : Option Node} {α : Type}

-- =============================================================== one line

/-- No procedure is sealed twice: each has its own number. -/
private theorem nodup_sealed (d : Draft) : d.sealed.Nodup := by
  have hprocs : d.sealed.map Prod.snd =
      (List.range' 0 (sealFrom d.next d.procs).length).map Proc.mk := by
    unfold sealed
    rw [List.map_map, ← List.zipIdx_map_snd, List.map_map]
    rfl
  refine List.Nodup.of_map Prod.snd ?_
  rw [hprocs]
  exact List.Nodup.map (fun i j h => congrArg Proc.id h) List.nodup_range'

/-- What is collected for a procedure comes from that procedure, if
others give nothing for it. -/
private theorem flatMap_sealed (hf : (f, p) ∈ d.sealed)
    {h : ProcDraft × Proc → List α}
    (hother : ∀ f' q, (f', q) ∈ d.sealed → q ≠ p → h (f', q) = []) :
    d.sealed.flatMap h = h (f, p) := by
  refine Listing.flatMap_of_unique (nodup_sealed d) hf fun x hx hne => ?_
  refine hother x.1 x.2 hx fun heq => hne ?_
  subst heq
  have hsame := (mem_sealed_iff.mp hx).symm.trans (mem_sealed_iff.mp hf)
  exact Prod.ext (Option.some.inj hsame) rfl

private theorem procOf?_eq (hnum : d.IsNumbered) (hf : (f, p) ∈ d.sealed)
    (hn : n ∈ f.nodes) : d.build.graph.procOf? n = some p := by
  rw [wired_build.procOf?]
  exact procOf?_registry hnum hf hn

/-- No node stands twice in a procedure, because statements have
numbers of their own. -/
private theorem nodup_nodes (hnum : d.IsNumbered) (hf : (f, p) ∈ d.sealed) :
    f.nodes.Nodup :=
  (List.nodup_flatMap.mp (nodup_sealFrom hnum.nodup hnum.below)).1 f
    (mem_sealed hf)

/-- What is collected for a node comes from its own line, if the other
lines give nothing for it. -/
private theorem flatMap_followed (hnum : d.IsNumbered) (hf : (f, p) ∈ d.sealed)
    {line : Node × Stmt × Option Node}
    (hline : line ∈ ProcDraft.followed f.body)
    {h : Node × Stmt × Option Node → List α}
    (hother : ∀ line' ∈ ProcDraft.followed f.body, line'.1 ≠ line.1 →
      h line' = []) : (ProcDraft.followed f.body).flatMap h = h line := by
  have hnodup : ((ProcDraft.followed f.body).map Prod.fst).Nodup := by
    rw [ProcDraft.map_fst_followed]
    exact nodup_nodes hnum hf
  refine Listing.flatMap_of_unique (.of_map _ hnodup) hline
    fun line' hline' hne => ?_
  exact hother line' hline' fun heq =>
    hne (List.inj_on_of_nodup_map hnodup hline' hline heq)

-- ================================================================== nodes

/-- The nodes that one procedure registers under another are none, and
under itself its own. -/
private theorem filterMap_registration (f : ProcDraft) (p q : Proc) :
    (registration (f, q)).filterMap (Mutation.nodeUnder? p) = if q =
      p then f.nodes else [] := by
  rw [registration, List.filterMap_cons_none rfl, List.filterMap_map]
  show f.body.filterMap (fun e => if q = p then some e.1 else none) = _
  by_cases hq : q = p
  · rw [if_pos hq, ProcDraft.nodes]
    simp [hq]
  · simp [hq]

private theorem nodeUnder?_of_isWire {m : Mutation} (hm : m.IsWire) (p : Proc) :
    m.nodeUnder? p = none := by
  cases m with
  | addNode q n => exact absurd hm id
  | _ => rfl

/-- What is collected from the text of a procedure. A procedure that is
not declared has no text, and nothing is collected for it. -/
theorem Reflects.collect (h : d.Reflects steps) {g : ProcDraft × Proc → List α}
    {k : List (Node × Stmt) → List α} (hnil : k [] = [])
    (hown : ∀ f, (f, p) ∈ d.sealed → g (f, p) = k f.body)
    (hother : ∀ f q, (f, q) ∈ d.sealed → q ≠ p → g (f, q) = []) :
    d.sealed.flatMap g = k (textOf steps p) := by
  by_cases hdeclared : ∃ f, (f, p) ∈ d.sealed
  · obtain ⟨f, hf⟩ := hdeclared
    rw [flatMap_sealed hf hother, hown f hf, (h.isTextOf hf).body]
  · have hempty : textOf steps p = [] :=
        List.eq_nil_iff_forall_not_mem.mpr fun e he =>
      hdeclared (h.exists_mem_sealed he)
    rw [hempty, hnil, List.flatMap_eq_nil_iff]
    exact fun x hx => hother x.1 x.2 hx fun heq => hdeclared ⟨x.1, heq ▸ hx⟩

/-- A procedure lists its text, in the order in which it was written,
and at the end the return that was added, if any. -/
theorem Reflects.nodes_build (h : d.Reflects steps) (p : Proc) :
    d.build.graph.nodes p = (textOf steps p).map Prod.fst := by
  have hwires : d.wires.filterMap (Mutation.nodeUnder? p) = [] :=
    List.filterMap_eq_nil_iff.mpr fun m hm =>
      nodeUnder?_of_isWire (isWire_of_mem_wires hm) p
  rw [graph_build, nodes_mutateAll, hwires, List.append_nil, registry,
    nodes_mutateAll, List.filterMap_flatMap]
  refine h.collect (k := List.map Prod.fst) rfl (fun f _ => ?_)
    fun f q _ hq => ?_
  · rw [filterMap_registration, if_pos rfl]
    rfl
  · rw [filterMap_registration, if_neg hq]

/-- The texts of the procedures are what was sealed. Here what the
steps describe and what the program holds come together. -/
theorem Reflects.mem_textOf_iff (h : d.Reflects steps) {e : Node × Stmt} :
    e ∈ textOf steps p ↔ ∃ f, (f, p) ∈ d.sealed ∧ e ∈ f.body := by
  constructor
  · intro he
    obtain ⟨f, hf⟩ := h.exists_mem_sealed he
    refine ⟨f, hf, ?_⟩
    rw [(h.isTextOf hf).body]
    exact he
  · intro he
    obtain ⟨f, hf, he⟩ := he
    rw [← (h.isTextOf hf).body]
    exact he

/-- A procedure owns the nodes of its text and no others. Each node is
registered once, under the procedure it was written in. -/
theorem Reflects.procOf?_build (h : d.Reflects steps) (hnum : d.IsNumbered) :
    d.build.graph.procOf? n = some p ↔ n ∈ (textOf steps p).map Prod.fst := by
  rw [wired_build.procOf?, (registered_registry hnum).procOf?,
    addNode_mem_registration, List.mem_map]
  constructor
  · intro hn
    rcases hn with hn | ⟨f, hf, hn⟩
    · cases hn
    · obtain ⟨e, he, rfl⟩ := List.mem_map.mp hn
      exact ⟨e, h.mem_textOf_iff.mpr ⟨f, hf, he⟩, rfl⟩
  · intro hn
    obtain ⟨e, he, rfl⟩ := hn
    obtain ⟨f, hf, he⟩ := h.mem_textOf_iff.mp he
    exact Or.inr ⟨f, hf, List.mem_map.mpr ⟨e, he, rfl⟩⟩

/-- A node stands in one text, since it has one owner. -/
theorem Reflects.proc_unique (h : d.Reflects steps) (hnum : d.IsNumbered)
    (hp : n ∈ (textOf steps p).map Prod.fst)
    (hq : n ∈ (textOf steps q).map Prod.fst) : p = q := by
  have hown := (h.procOf?_build hnum).mpr hp
  exact Option.some.inj (hown.symm.trans ((h.procOf?_build hnum).mpr hq))

/-- The statement of a node is the one in its text. -/
theorem Reflects.get?_stmts (h : d.Reflects steps) (hnum : d.IsNumbered) :
    d.build.stmts.get? n = some s ↔ ∃ p, (n, s) ∈ textOf steps p := by
  rw [get?_stmts_build hnum]
  constructor
  · intro hs
    obtain ⟨f, p, hf, hs⟩ := hs
    exact ⟨p, h.mem_textOf_iff.mpr ⟨f, hf, hs⟩⟩
  · intro hs
    obtain ⟨p, hs⟩ := hs
    obtain ⟨f, hf, hs⟩ := h.mem_textOf_iff.mp hs
    exact ⟨f, p, hf, hs⟩

-- ======================================================== exits and calls

/-- Exits are the returns, whichever text they are in. The return that
sealing adds is one of them. -/
theorem Reflects.isExit_iff (h : d.Reflects steps) (hnum : d.IsNumbered) :
    d.build.graph.isExit n = true ↔ ∃ p s, (n, s) ∈ textOf steps p ∧
    s.isReturn = true := by
  constructor
  · intro hexit
    cases hp : d.build.graph.procOf? n with
    | none =>
      unfold FlowGraph.isExit at hexit
      rw [hp] at hexit
      cases hexit
    | some p =>
      obtain ⟨s, hs⟩ := exists_stmt_of_procOf? hnum hp
      rw [isExit_build hnum hs] at hexit
      obtain ⟨p, hs⟩ := (h.get?_stmts hnum).mp hs
      exact ⟨p, s, hs, hexit⟩
  · intro hs
    obtain ⟨p, s, hs, hret⟩ := hs
    rw [isExit_build hnum ((h.get?_stmts hnum).mpr ⟨p, hs⟩)]
    exact hret

/-- Calls are the call statements. None of them is lost, because
texts end in returns. -/
theorem Reflects.isCall_iff (h : d.Reflects steps) (hnum : d.IsNumbered) :
    d.build.graph.isCall n = true ↔ ∃ p s, (n, s) ∈ textOf steps p ∧
    s.isCall = true := by
  constructor
  · intro hcall
    rw [isCall_eq] at hcall
    obtain ⟨r, hr⟩ := Option.isSome_iff_exists.mp hcall
    obtain ⟨s, f, hline, hs⟩ := (returnSite?_build hnum).mp hr
    obtain ⟨p, hf, hline⟩ := mem_lines.mp hline
    have hbody := (ProcDraft.mem_of_mem_followed hline).1
    exact ⟨p, s, h.mem_textOf_iff.mpr ⟨f, hf, hbody⟩, hs⟩
  · intro hs
    obtain ⟨p, s, hs, hcall⟩ := hs
    rw [isCall_build hnum ((h.get?_stmts hnum).mpr ⟨p, hs⟩)]
    exact hcall

/-- Only a return is last in a text. Sealing has seen to it. -/
private theorem isReturn_of_last
    (hline : (n, s, none) ∈ ProcDraft.followed (textOf steps p)) :
    s.isReturn = true := by
  have hended := lacksReturn_textOf steps p
  unfold ProcDraft.lacksReturn at hended
  rw [ProcDraft.getLast?_of_followed hline] at hended
  simpa using hended

/-- A line of a text is a line of the draft. So what is known about
lines applies to it. -/
theorem Reflects.exists_line (h : d.Reflects steps)
    {line : Node × Stmt × Option Node}
    (hline : line ∈ ProcDraft.followed (textOf steps p)) :
    ∃ f, (f, p) ∈ d.sealed ∧ IsTextOf f steps p ∧
    line ∈ ProcDraft.followed f.body := by
  obtain ⟨n, s, next⟩ := line
  obtain ⟨f, hf⟩ := h.exists_mem_sealed (ProcDraft.mem_of_mem_followed hline).1
  have htext := h.isTextOf hf
  rw [← htext.body] at hline
  exact ⟨f, hf, htext, hline⟩

/-- A call returns to what is written after it, and something is,
because no text ends in a call. -/
theorem Reflects.returnSite? (h : d.Reflects steps) (hnum : d.IsNumbered)
    (hline : (n, s, next) ∈ ProcDraft.followed (textOf steps p))
    (hcall : s.isCall = true) :
    ∃ r, next = some r ∧ d.build.graph.returnSite? n = some r := by
  cases next with
  | none =>
    have hret := isReturn_of_last hline
    rw [Stmt.isReturn_of_isCall hcall] at hret
    cases hret
  | some r =>
    obtain ⟨f, hf, _, hline⟩ := h.exists_line hline
    have hlines := mem_lines.mpr ⟨p, hf, hline⟩
    exact ⟨r, rfl, (returnSite?_build hnum).mpr ⟨s, f, hlines, hcall⟩⟩

/-- All calls are made at nodes that are registered, so none is
refused. -/
private theorem callsOwned_wires (hnum : d.IsNumbered) :
    CallsOwned d.registry d.wires := by
  intro c r ts hmem
  obtain ⟨f, p, _, hf, _, _, hc, _⟩ := mem_of_addCall_mem_wires hmem
  rw [procOf?_registry hnum hf hc]
  rfl

/-- What the calls give to a node comes from its own line. Two
collections are nested here, over procedures and over lines. -/
private theorem flatMap_calls (hnum : d.IsNumbered) (hf : (f, p) ∈ d.sealed)
    (hline : (n, s, next) ∈ ProcDraft.followed f.body) {g : Mutation → List α}
    (hg : ∀ c r ts, c ≠ n → g (.addCall c r ts) = []) :
    (d.sealed.flatMap fun fp => fp.1.calls).flatMap g =
      (ProcDraft.callStmt (n, s, next)).toList.flatMap g := by
  have hn : n ∈ f.nodes :=
    List.mem_map.mpr ⟨_, (ProcDraft.mem_of_mem_followed hline).1, rfl⟩
  rw [List.flatMap_assoc, flatMap_sealed hf]
  · unfold ProcDraft.calls
    rw [List.filterMap_eq_flatMap_toList, List.flatMap_assoc]
    refine flatMap_followed hnum hf hline fun line hmem hne => ?_
    refine List.flatMap_eq_nil_iff.mpr fun m hm => ?_
    obtain ⟨_, r, ts, _, rfl⟩ :=
      ProcDraft.eq_addCall_of_callStmt (Option.mem_toList.mp hm)
    exact hg _ r ts hne
  · -- other procedures have calls of their own nodes only
    intro f' q hf' hq
    refine List.flatMap_eq_nil_iff.mpr fun m hm => ?_
    obtain ⟨c, r, ts, rfl, hc, _⟩ := ProcDraft.mem_of_mem_calls hm
    refine hg c r ts fun heq => hq ?_
    subst heq
    exact Option.some.inj
      ((procOf?_eq hnum hf' hc).symm.trans (procOf?_eq hnum hf hn))

/-- The first pass gives no node a callee. It registers procedures and
their nodes. -/
private theorem callees_registry (d : Draft) (n : Node) :
    d.registry.callees n = [] := by
  have howned : CallsOwned {} (d.sealed.flatMap registration) := by
    intro c r ts hmem
    rcases exists_of_mem_registration hmem with ⟨_, heq⟩ | ⟨_, _, heq⟩
    · cases heq
    · cases heq
  have hnone : (d.sealed.flatMap registration).flatMap
      (Mutation.calleesOf n) = [] := by
    refine List.flatMap_eq_nil_iff.mpr fun m hm => ?_
    rcases exists_of_mem_registration hm with ⟨_, rfl⟩ | ⟨_, _, rfl⟩
    · rfl
    · rfl
  rw [registry, callees_mutateAll howned, hnone]
  rfl

/-- A call has the target that it names, or none if it is indirect. -/
theorem Reflects.callees (h : d.Reflects steps) (hnum : d.IsNumbered)
    {callee : Callee} {args : List Var} {result : Option Var}
    (hmem : (n, .call callee args result) ∈ textOf steps p) :
    d.build.graph.callees n = callee.targets := by
  obtain ⟨next, hline, _⟩ := ProcDraft.exists_followed hmem
  obtain ⟨r, rfl, _⟩ := h.returnSite? hnum hline rfl
  obtain ⟨f, hf, _, hline⟩ := h.exists_line hline
  have hwiring : (d.sealed.flatMap fun fp => fp.1.wiring).flatMap
      (Mutation.calleesOf n) = [] := by
    refine List.flatMap_eq_nil_iff.mpr fun m hm => ?_
    obtain ⟨fp, _, hm⟩ := List.mem_flatMap.mp hm
    rcases ProcDraft.exists_of_mem_wiring hm with ⟨_, rfl⟩ | ⟨_, _, rfl⟩
    · rfl
    · rfl
  have hcalls : (d.sealed.flatMap fun fp => fp.1.calls).flatMap
      (Mutation.calleesOf n) = callee.targets := by
    rw [flatMap_calls hnum hf hline, ProcDraft.callStmt_call]
    · simp [Mutation.calleesOf]
    · exact fun c r ts hne => if_neg hne
  rw [graph_build, callees_mutateAll (callsOwned_wires hnum), callees_registry,
    wires, List.flatMap_append, hwiring, hcalls]
  cases callee <;> rfl

/-- A procedure lists its calls as they are written. Other procedures
have no calls at its nodes, and the wiring has no calls at all. -/
theorem Reflects.callsWithin (h : d.Reflects steps) (hnum : d.IsNumbered)
    (p : Proc) :
    d.build.graph.callsWithin p =
      ((textOf steps p).filter (·.2.isCall)).map Prod.fst := by
  have hwiring : (d.sealed.flatMap fun fp => fp.1.wiring).filterMap
      (Mutation.callUnder? d.registry.procOf? p) = [] := by
    refine List.filterMap_eq_nil_iff.mpr fun m hm => ?_
    obtain ⟨fp, _, hm⟩ := List.mem_flatMap.mp hm
    rcases ProcDraft.exists_of_mem_wiring hm with ⟨_, rfl⟩ | ⟨_, _, rfl⟩
    · rfl
    · rfl
  rw [graph_build, callsWithin_mutateAll fun m hm => isWire_of_mem_wires hm,
    (registered_registry hnum).callsWithin, wires, List.filterMap_append,
    hwiring, List.filterMap_flatMap]
  refine h.collect (k := fun body => (body.filter (·.2.isCall)).map Prod.fst)
    rfl (fun f hf => ?_) fun f q hf hq => ?_
  · show f.calls.filterMap _ = _
    unfold ProcDraft.calls
    rw [List.filterMap_filterMap]
    refine ProcDraft.filterMap_followed fun line hline => ?_
    obtain ⟨n, s, next⟩ := line
    cases s with
    | call callee args result =>
      -- no call is left out, since none is last
      have hbody := (ProcDraft.mem_of_mem_followed hline).1
      have howner := procOf?_registry hnum hf (List.mem_map.mpr ⟨_, hbody, rfl⟩)
      rw [(h.isTextOf hf).body] at hline
      obtain ⟨r, rfl, _⟩ := h.returnSite? hnum hline rfl
      rw [ProcDraft.callStmt_call]
      exact if_pos howner
    | _ => rw [ProcDraft.callStmt_of_not_isCall rfl]; rfl
  · refine List.filterMap_eq_nil_iff.mpr fun m hm => ?_
    obtain ⟨c, r, ts, rfl, hc, _⟩ := ProcDraft.mem_of_mem_calls hm
    refine if_neg fun heq => hq ?_
    exact Option.some.inj ((procOf?_registry hnum hf hc).symm.trans heq)

-- ================================================================== edges

/-- Branches and jumps from a node are made for its procedure, since a
proper program has no others. -/
theorem IsProper.proc_eq (h : IsProper steps)
    (hn : n ∈ (textOf steps p).map Prod.fst) {x : Proc × Node × Node}
    (hx : x ∈ diversions steps) (heq : x.2.1 = n) : x.1 = p := by
  subst heq
  exact h.reflects.proc_unique (isNumbered_ofSteps steps) (h.inside x hx).1 hn

/-- The edges that branches and jumps in a procedure ask for, and those
that are asked for from one of its nodes. -/
private theorem flatMap_edgesIn (h : IsProper steps)
    (hn : n ∈ (textOf steps p).map Prod.fst) :
    ((edgesIn steps p).map fun e => Mutation.addEdge e.1 e.2).flatMap
      (Mutation.successorsOf n) = targetsOf steps n := by
  have hproc : ∀ x ∈ diversions steps, x.2.1 = n → x.1 = p :=
    fun x hx => h.proc_eq hn hx
  unfold edgesIn targetsOf
  rw [List.map_map, List.flatMap_map]
  generalize diversions steps = xs at hproc ⊢
  -- what is left out for being in another procedure does not start at the node
  induction xs with
  | nil => rfl
  | cons x xs ih =>
    have hrest := ih fun y hy => hproc y (List.mem_cons_of_mem _ hy)
    have hfirst := hproc x List.mem_cons_self
    by_cases hx : x.2.1 = n
    · simpa [hx, hfirst hx, Mutation.successorsOf] using hrest
    · by_cases hp : x.1 = p
      · simpa [hx, hp, Mutation.successorsOf] using hrest
      · simpa [hx, hp] using hrest

/-- Other procedures have no edges from a node: neither do their lines
lead from it, nor were branches from it made for them. -/
theorem IsProper.flatMap_wiring_other (h : IsProper steps)
    (hn : n ∈ (textOf steps p).map Prod.fst)
    (hf : (f, q) ∈ (ofSteps steps).sealed) (hq : q ≠ p) :
    f.wiring.flatMap (Mutation.successorsOf n) = [] := by
  have htext := h.reflects.isTextOf hf
  have hnode : n ∉ f.nodes := by
    intro hmem
    unfold ProcDraft.nodes at hmem
    rw [htext.body] at hmem
    exact hq (h.reflects.proc_unique (isNumbered_ofSteps steps) hmem hn)
  refine List.flatMap_eq_nil_iff.mpr fun m hm => ?_
  rcases ProcDraft.exists_of_mem_wiring hm with ⟨_, rfl⟩ | ⟨a, b, rfl⟩
  · rfl
  · refine if_neg fun heq => ?_
    rcases ProcDraft.addEdge_mem_wiring hm with ⟨ha, _⟩ | hextra
    · exact hnode (heq ▸ ha)
    · rw [htext.extraEdges, mem_edgesIn] at hextra
      exact hq (h.proc_eq hn hextra heq)

/-- A jump from a node is one of the steps. -/
private theorem jumpsFrom_iff :
    jumpsFrom steps n = true ↔ ∃ q b, .jump q n b ∈ steps := by
  unfold jumpsFrom
  rw [List.any_eq_true]
  constructor
  · intro hjump
    obtain ⟨step, hstep, hfrom⟩ := hjump
    cases step with
    | jump q a b =>
      obtain rfl : a = n := of_decide_eq_true hfrom
      exact ⟨q, b, hstep⟩
    | _ => cases hfrom
  · intro hjump
    obtain ⟨q, b, hstep⟩ := hjump
    exact ⟨_, hstep, decide_eq_true rfl⟩

/-- A node does not fall through if there is a jump from it. Such a
jump can have been made for its own procedure only. -/
theorem IsProper.redirected_iff (h : IsProper steps)
    (hn : n ∈ (textOf steps p).map Prod.fst) (htext : IsTextOf f steps p) :
    n ∈ f.redirected ↔ jumpsFrom steps n = true := by
  rw [htext.redirected, jumpsFrom_iff]
  constructor
  · exact fun hjump => ⟨p, hjump⟩
  · intro hjump
    obtain ⟨q, b, hstep⟩ := hjump
    have hdiv : (q, n, b) ∈ diversions steps :=
      List.mem_filterMap.mpr ⟨_, hstep, rfl⟩
    obtain rfl : q = p := h.proc_eq hn hdiv rfl
    exact ⟨b, hstep⟩

/-- What a node leads to comes from its own line, and from branches and
jumps. Edges of lines come first, then branches and jumps, and calls
last. -/
theorem IsProper.successors_eq (h : IsProper steps)
    (hf : (f, p) ∈ (ofSteps steps).sealed)
    (hline : (n, s, next) ∈ ProcDraft.followed f.body) :
    (ofSteps steps).build.graph.successors n = Listing.distinct
      ((f.wireStmt (n, s, next)).flatMap (Mutation.successorsOf n) ++
        targetsOf steps n ++
        (ProcDraft.callStmt (n, s, next)).toList.flatMap
          (Mutation.successorsOf n)) := by
  have hnum := isNumbered_ofSteps steps
  have htext := h.reflects.isTextOf hf
  have hn : n ∈ (textOf steps p).map Prod.fst := by
    rw [← htext.body]
    exact List.mem_map.mpr ⟨_, (ProcDraft.mem_of_mem_followed hline).1, rfl⟩
  -- other lines have edges from other nodes
  have hlines : ((ProcDraft.followed f.body).flatMap f.wireStmt).flatMap
      (Mutation.successorsOf n) =
        (f.wireStmt (n, s, next)).flatMap (Mutation.successorsOf n) := by
    rw [List.flatMap_assoc]
    refine flatMap_followed hnum hf hline fun line _ hne => ?_
    refine List.flatMap_eq_nil_iff.mpr fun m hm => ?_
    rcases ProcDraft.mem_wireStmt.mp hm with ⟨rfl, _⟩ | ⟨k, rfl, _⟩
    · rfl
    · exact if_neg hne
  have hwiring : ((ofSteps steps).sealed.flatMap fun fp => fp.1.wiring).flatMap
      (Mutation.successorsOf n) =
        (f.wireStmt (n, s, next)).flatMap (Mutation.successorsOf n) ++
          targetsOf steps n := by
    rw [List.flatMap_assoc, flatMap_sealed hf]
    · show f.wiring.flatMap _ = _
      unfold ProcDraft.wiring
      rw [List.flatMap_append, hlines, htext.extraEdges]
      exact congrArg _ (flatMap_edgesIn h hn)
    · exact fun f' q hf' hq => h.flatMap_wiring_other hn hf' hq
  have hcalls := flatMap_calls hnum hf hline (g := Mutation.successorsOf n)
    fun c r ts hne => if_neg hne
  rw [graph_build, successors_mutateAll (callsOwned_wires hnum),
    (registered_registry hnum).successors, wires, List.flatMap_append,
    hwiring, hcalls]
  rfl

/-- A line of a statement that neither returns nor calls gives an edge
to the next one, unless there is a jump. -/
private theorem flatMap_wireStmt (f : ProcDraft) (hret : s.isReturn = false)
    (hcall : s.isCall = false) :
    (f.wireStmt (n, s, next)).flatMap (Mutation.successorsOf n) =
      if n ∈ f.redirected then [] else next.toList := by
  cases s with
  | ret x => cases hret
  | call callee args result => cases hcall
  | _ => cases next <;> by_cases hn : n ∈ f.redirected <;>
      simp [ProcDraft.wireStmt, Mutation.successorsOf, hn]

/-- Control goes on from a statement to the one after it, unless there
is a jump from it, and along branches and jumps in the order in which
they were made. -/
theorem IsProper.successors_of_plain (h : IsProper steps)
    (hline : (n, s, next) ∈ ProcDraft.followed (textOf steps p))
    (hret : s.isReturn = false) (hcall : s.isCall = false) :
    (ofSteps steps).build.graph.successors n =
      Listing.distinct ((if jumpsFrom steps n then [] else next.toList) ++
        targetsOf steps n) := by
  have hn : n ∈ (textOf steps p).map Prod.fst :=
    List.mem_map.mpr ⟨_, (ProcDraft.mem_of_mem_followed hline).1, rfl⟩
  obtain ⟨f, hf, htext, hline⟩ := h.reflects.exists_line hline
  rw [h.successors_eq hf hline, flatMap_wireStmt f hret hcall,
    ProcDraft.callStmt_of_not_isCall hcall]
  simp only [h.redirected_iff hn htext, Option.toList_none, List.flatMap_nil,
      List.append_nil]

/-- Control goes on from a call along branches and jumps, and to the
statement after it in any case. -/
theorem IsProper.successors_of_call (h : IsProper steps) {r : Node}
    (hline : (n, s, some r) ∈ ProcDraft.followed (textOf steps p))
    (hcall : s.isCall = true) :
    (ofSteps steps).build.graph.successors n =
      Listing.distinct (targetsOf steps n ++ [r]) := by
  obtain ⟨f, hf, _, hline⟩ := h.reflects.exists_line hline
  rw [h.successors_eq hf hline]
  cases s with
  | call callee args result =>
    rw [ProcDraft.callStmt_call]
    simp [ProcDraft.wireStmt, Mutation.successorsOf]
  | _ => cases hcall

/-- A statement that does not return is followed by another one. -/
private theorem exists_next
    (hline : (n, s, next) ∈ ProcDraft.followed (textOf steps p))
    (hret : s.isReturn = false) : ∃ m, next = some m := by
  cases next with
  | some m => exact ⟨m, rfl⟩
  | none =>
    rw [isReturn_of_last hline] at hret
    cases hret

/-- A return that is added does not come first, so the start is the
first statement that was written. -/
private theorem head?_textOf (steps : List Step) (p : Proc) :
    (textOf steps p).head? = (bodyOf steps p).head? := by
  unfold textOf
  split
  next h =>
    cases hbody : bodyOf steps p with
    | nil =>
      rw [hbody] at h
      cases h
    | cons e body => rfl
  next => rfl

end Draft

-- ============================================================= the program

open Draft ProcDraft

/-- The program is the one that the steps describe: every question that
can be asked about it has the answer that is read off the steps. -/
structure Program.Realizes (P : Program) (steps : List Step) : Prop where
  stmts : ∀ {n s}, P.stmts.get? n = some s ↔ ∃ p, (n, s) ∈ textOf steps p
  nodes : ∀ p, P.graph.nodes p = (textOf steps p).map Prod.fst
  /-- A node belongs to the procedure in whose text it is. -/
  procOf? : ∀ {n p}, P.graph.procOf? n = some p ↔
    n ∈ (textOf steps p).map Prod.fst
  start? : ∀ p, P.graph.start? p = (bodyOf steps p).head?.map Prod.fst
  isExit : ∀ {n}, P.graph.isExit n = true ↔ ∃ p s, (n, s) ∈ textOf steps p ∧
    s.isReturn = true
  isCall : ∀ {n}, P.graph.isCall n = true ↔
    ∃ p s, (n, s) ∈ textOf steps p ∧ s.isCall = true
  /-- A call returns to the statement after it. -/
  returnSite? : ∀ {p n s next}, (n, s, next) ∈ followed (textOf steps p) →
    s.isCall = true → ∃ r, next = some r ∧ P.graph.returnSite? n = some r
  callees : ∀ {p n callee args result},
    (n, .call callee args result) ∈ textOf steps p →
    P.graph.callees n = callee.targets
  callsWithin : ∀ p, P.graph.callsWithin p =
    ((textOf steps p).filter (·.2.isCall)).map Prod.fst
  /-- Other statements go on to the one after them, unless there is a
  jump from them, and along branches and jumps in the order in which
  they were made. -/
  successors : ∀ {p n s next}, (n, s, next) ∈ followed (textOf steps p) →
    s.isReturn = false → s.isCall = false → ∃ m, next = some m ∧
    P.graph.successors n =
      Listing.distinct ((if jumpsFrom steps n then [] else [m]) ++
        targetsOf steps n)

/-- Whatever steps are made, as long as branches and jumps stay inside
procedures, the program that is built is the one they describe, and its
statements have the numbers that the steps answered. -/
theorem build_realizes_steps {steps : List Step} (h : IsProper steps) :
    (ofSteps steps).build.Realizes steps ∧
      nodesIn (performAll {} steps).1 =
        (List.range (written steps).length).map Node.mk := by
  have hnum := isNumbered_ofSteps steps
  have hreflects := h.reflects
  refine ⟨⟨hreflects.get?_stmts hnum, hreflects.nodes_build,
    hreflects.procOf?_build hnum, fun p => ?_, hreflects.isExit_iff hnum,
    hreflects.isCall_iff hnum, hreflects.returnSite? hnum,
    hreflects.callees hnum, hreflects.callsWithin hnum,
    fun hline hret hcall => ?_⟩, ?_⟩
  · have hstart : (ofSteps steps).build.graph.start? p = _ :=
      (startsFirst_empty.mutateAll (ofSteps steps).layout) p
    rw [hstart]
    show ((ofSteps steps).build.graph.nodes p).head? = _
    rw [hreflects.nodes_build, List.head?_map, head?_textOf]
  · obtain ⟨m, rfl⟩ := exists_next hline hret
    exact ⟨m, rfl, h.successors_of_plain hline hret hcall⟩
  · rw [nodesIn_performAll h.answered, List.range_eq_range']

/-- Two procedures written in turns and one without a body. Neither of
the two ends in a return. -/
def interleaved : List Step :=
  [ .declare "main" [], .declare "double" ["p"], .declare "external" [],
    .write ⟨0⟩ (.decl "x"), .write ⟨1⟩ (.add "q" "p" "p"),
    .write ⟨0⟩ (.call (.direct ⟨1⟩) ["x"] none),
    .write ⟨1⟩ (.call .indirect ["q"] none), .write ⟨0⟩ (.use "x"),
    .jump ⟨0⟩ ⟨4⟩ ⟨0⟩, .branch ⟨0⟩ ⟨0⟩ ⟨5⟩, .branch ⟨0⟩ ⟨0⟩ ⟨2⟩]

theorem build_realizes_interleaved :
    (ofSteps interleaved).build.Realizes interleaved ∧
      (ofSteps interleaved).build.graph.nodes ⟨0⟩ = [⟨0⟩, ⟨2⟩, ⟨4⟩, ⟨5⟩] ∧
      (ofSteps interleaved).build.graph.nodes ⟨1⟩ = [⟨1⟩, ⟨3⟩, ⟨6⟩] ∧
      (ofSteps interleaved).build.graph.start? ⟨2⟩ = none ∧
      (ofSteps interleaved).build.graph.successors ⟨0⟩ = [⟨2⟩, ⟨5⟩] ∧
      (ofSteps interleaved).build.graph.successors ⟨4⟩ = [⟨0⟩] ∧
      nodesIn (performAll {} interleaved).1 = [⟨0⟩, ⟨1⟩, ⟨2⟩, ⟨3⟩, ⟨4⟩] := by
  have hproper : IsProper interleaved :=
    ⟨answered_of_isOk (by decide), by decide⟩
  obtain ⟨hrealizes, hanswers⟩ := build_realizes_steps hproper
  refine ⟨hrealizes, hrealizes.nodes ⟨0⟩, hrealizes.nodes ⟨1⟩,
    hrealizes.start? ⟨2⟩, ?_, ?_, hanswers⟩
  · have hline : (⟨0⟩, Stmt.decl "x", some ⟨2⟩) ∈ followed
      (textOf interleaved ⟨0⟩) := by decide
    obtain ⟨m, hm, hsucc⟩ := hrealizes.successors hline rfl rfl
    cases hm
    exact hsucc
  · have hline : (⟨4⟩, Stmt.use "x", some ⟨5⟩) ∈ followed
      (textOf interleaved ⟨0⟩) := by decide
    obtain ⟨m, hm, hsucc⟩ := hrealizes.successors hline rfl rfl
    cases hm
    exact hsucc

-- ================================================================== jumps

/-- With a jump from a statement, control goes on along branches and
jumps. If the statement is a call it goes on to the next one as well,
so there the jump replaces nothing. -/
theorem jump_replaces_next_iff {steps : List Step} (h : IsProper steps)
    {p : Proc} {i j : Node} {s : Stmt}
    (hline : (i, s, some j) ∈ followed (textOf steps p))
    (hret : s.isReturn = false) (hjump : jumpsFrom steps i = true)
    (hdirect : j ∉ targetsOf steps i) :
    (ofSteps steps).build.graph.successors i =
        Listing.distinct (targetsOf steps i ++ if s.isCall then [j] else []) ∧
      (j ∉ (ofSteps steps).build.graph.successors i ↔ s.isCall = false) := by
  cases hcall : s.isCall with
  | false =>
    have hsucc := h.successors_of_plain hline hret hcall
    rw [hjump, if_pos rfl, List.nil_append] at hsucc
    rw [hsucc, Listing.mem_distinct]
    exact ⟨by simp, iff_of_true hdirect rfl⟩
  | true =>
    have hsucc := h.successors_of_call hline hcall
    rw [hsucc, Listing.mem_distinct]
    exact ⟨rfl, iff_of_false (by simp) nofun⟩

/-- Jumps out of a call and out of the statement after it. -/
def jumpsOut : List Step :=
  [ .declare "main" [], .write ⟨0⟩ (.call .indirect [] none), .write ⟨0⟩ .nop,
    .write ⟨0⟩ .nop, .write ⟨0⟩ (.ret none), .jump ⟨0⟩ ⟨0⟩ ⟨3⟩,
    .jump ⟨0⟩ ⟨1⟩ ⟨3⟩]

theorem jump_replaces_next_iff_jumpsOut :
    (ofSteps jumpsOut).build.graph.successors ⟨0⟩ = [⟨3⟩, ⟨1⟩] ∧
      ⟨1⟩ ∈ (ofSteps jumpsOut).build.graph.successors ⟨0⟩ ∧
      (ofSteps jumpsOut).build.graph.successors ⟨1⟩ = [⟨3⟩] ∧
      ⟨2⟩ ∉ (ofSteps jumpsOut).build.graph.successors ⟨1⟩ := by
  have hproper : IsProper jumpsOut := ⟨answered_of_isOk (by decide), by decide⟩
  have hfirst : (⟨0⟩, Stmt.call .indirect [] none, some ⟨1⟩) ∈ followed
      (textOf jumpsOut ⟨0⟩) := by
    decide
  have hsecond : (⟨1⟩, Stmt.nop, some ⟨2⟩) ∈ followed
    (textOf jumpsOut ⟨0⟩) := by decide
  obtain ⟨hcall, hkept⟩ :=
    jump_replaces_next_iff hproper hfirst rfl rfl (by decide)
  obtain ⟨hplain, hreplaced⟩ :=
    jump_replaces_next_iff hproper hsecond rfl rfl (by decide)
  exact ⟨hcall, Decidable.not_not.mp (mt hkept.mp nofun), hplain,
      hreplaced.mpr rfl⟩

end Tabulation
