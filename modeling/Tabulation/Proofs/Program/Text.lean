/-
The text that a sequence of steps writes.

Statements are numbered as they are written, whatever procedure they
are for. So what becomes of a procedure can be read off the steps
alone: its statements (`bodyOf`), and with the return that is added
where one is missing its whole text (`textOf`). The returns are
numbered after all statements, in the order of the procedures.

# From steps to drafts

A draft reflects the steps that were made (`Reflects`): each step that
succeeds adds to one procedure what it asks for, and a procedure that
is not declared has nothing yet. Sealing closes the bodies one after
the other (`getElem?_sealFrom`), and so the sealed procedures have the
texts (`Reflects.isTextOf`).
-/
import Tabulation.Proofs.Program.Edges

namespace Tabulation

namespace ProcDraft

/-- Whether a body has statements, and not a return at its end. Nothing
is added to an empty body. -/
def lacksReturn (body : List (Node × Stmt)) : Bool :=
  body.getLast?.any fun e => !e.2.isReturn

/-- This is what sealing asks of a procedure: whether its last
statement is something other than a return. -/
private theorem needsReturn_eq (f : ProcDraft) :
    f.needsReturn = lacksReturn f.body := by
  unfold needsReturn lacksReturn
  cases f.body.getLast? <;> rfl

/-- A procedure with the return at its end, which is numbered `k` if it
has to be added. -/
def closed (f : ProcDraft) (k : Nat) : ProcDraft :=
  if f.needsReturn then { f with body := f.body ++ [(⟨k⟩, .ret none)] } else f

end ProcDraft

namespace Draft

variable {d : Draft} {steps done : List Step} {p q : Proc} {n a b : Node}
variable {s : Stmt}

-- =============================================================== the text

/-- The statement that a step writes, and its procedure. -/
def Step.written? : Step → Option (Proc × Stmt)
  | .write p s => some (p, s)
  | _ => none

/-- The edge that a branch or a jump asks for, and its procedure. -/
def Step.diversion? : Step → Option (Proc × Node × Node)
  | .branch p a b => some (p, a, b)
  | .jump p a b => some (p, a, b)
  | _ => none

/-- Whether a step is a jump from a node. -/
def Step.isJumpFrom (n : Node) : Step → Bool
  | .jump _ a _ => a = n
  | _ => false

/-- All statements, as they are written. The place of a statement in
this list is its number. -/
def written (steps : List Step) : List (Proc × Stmt) :=
  steps.filterMap Step.written?

/-- The statements of a procedure, numbered by their places among all
statements. -/
def bodyOf (steps : List Step) (p : Proc) : List (Node × Stmt) :=
  (written steps).zipIdx.filterMap fun x =>
    if x.1.1 = p then some (⟨x.2⟩, x.1.2) else none

/-- How many of the first procedures get a return added. It tells the
number that the next such return gets. -/
def returnsAdded (steps : List Step) (count : Nat) : Nat :=
  (List.range count).countP fun i => ProcDraft.lacksReturn (bodyOf steps ⟨i⟩)

/-- The statements of a procedure and the return that is added to them
if they do not end in one. These returns are numbered after all
statements. -/
def textOf (steps : List Step) (p : Proc) : List (Node × Stmt) :=
  if ProcDraft.lacksReturn (bodyOf steps p) then
    bodyOf steps p ++
      [(⟨(written steps).length + returnsAdded steps p.id⟩, .ret none)]
  else bodyOf steps p

/-- All branches and jumps, as they are made, with their procedures.
The order is that of the edges in the graph. -/
def diversions (steps : List Step) : List (Proc × Node × Node) :=
  steps.filterMap Step.diversion?

/-- The branches and jumps in a procedure, by the procedure that they
were made for. -/
def edgesIn (steps : List Step) (p : Proc) : List (Node × Node) :=
  ((diversions steps).filter (·.1 = p)).map Prod.snd

/-- Where branches and jumps lead from a node, in any procedure. -/
def targetsOf (steps : List Step) (n : Node) : List Node :=
  ((diversions steps).filter (·.2.1 = n)).map (·.2.2)

/-- Whether there is a jump from a node. If so, control does not go on
to the next statement. -/
def jumpsFrom (steps : List Step) (n : Node) : Bool :=
  steps.any (Step.isJumpFrom n)

-- ===================================================== from steps to drafts

/-- What a part of procedures has in one of them. There is nothing in
one that is not declared. -/
def part {α : Type} (d : Draft) (field : ProcDraft → List α) (p : Proc) :
    List α :=
  (d.procs[p.id]?.map field).getD []

/-- The draft has what the steps ask for. It is the invariant of
performing steps that all succeed. -/
structure Reflects (d : Draft) (steps : List Step) : Prop where
  next : d.next = (written steps).length
  body : ∀ p, d.part ProcDraft.body p = bodyOf steps p
  extraEdges : ∀ p, d.part ProcDraft.extraEdges p = edgesIn steps p
  redirected : ∀ {p n}, n ∈ d.part ProcDraft.redirected p ↔
    ∃ b, .jump p n b ∈ steps

private theorem next_edit {d' : Draft} {F : ProcDraft → ProcDraft}
    (h : d.edit p F = .ok d') : d'.next = d.next := by
  rw [(edit_eq_ok h).2]

section Part

variable {α : Type} {d' : Draft} {F : ProcDraft → ProcDraft}
variable {g : List α → List α}
variable {field : ProcDraft → List α}

/-- An edit of one procedure shows in the parts that it changes, and
only there. -/
private theorem part_edit (h : d.edit p F = .ok d')
    (hF : ∀ f, field (F f) = g (field f)) (q : Proc) :
    d'.part field q = if p = q then g (d.part field q) else d.part field q := by
  obtain ⟨hp, rfl⟩ := edit_eq_ok h
  unfold part
  by_cases hq : p = q
  · subst hq
    simp [List.getElem?_eq_getElem hp, hF]
  · have hid : p.id ≠ q.id := by
      intro heq
      cases p
      cases q
      exact hq (congrArg Proc.mk heq)
    simp [hid, hq]

/-- A part that an edit leaves alone is as it was, in all procedures. -/
private theorem part_edit_same (h : d.edit p F = .ok d')
    (hF : ∀ f, field (F f) = field f) (q : Proc) :
    d'.part field q = d.part field q := by
  rw [part_edit (g := id) h hF, id, ite_self]

/-- A procedure that is declared is empty, like one that is not
declared yet. -/
private theorem part_declare (name : String) (params : List Var)
    (hfield : field { name, params } = []) (q : Proc) :
    (d.declare name params).2.part field q = d.part field q := by
  unfold part Draft.declare
  dsimp only
  -- the new procedure has an empty part, and it had none before
  rcases Nat.lt_trichotomy q.id d.procs.length with hlt | heq | hgt
  · rw [List.getElem?_append_left hlt]
  · simp [heq, hfield]
  · have hbeyond : d.procs.length + 1 ≤ q.id := hgt
    rw [List.getElem?_eq_none (Nat.le_of_lt hgt),
        List.getElem?_eq_none (by simpa using hbeyond)]

end Part

/-- One more statement, numbered by how many there are. -/
private theorem bodyOf_append_write (done : List Step) (p q : Proc) (s : Stmt) :
    bodyOf (done ++ [.write p s]) q =
      if p = q then bodyOf done q ++ [(⟨(written done).length⟩, s)]
      else bodyOf done q := by
  unfold bodyOf written
  rw [List.filterMap_append, List.zipIdx_append, List.filterMap_append]
  by_cases hq : p = q <;> simp [Step.written?, hq]

private theorem written_append {step : Step} (h : step.written? = none)
    (done : List Step) : written (done ++ [step]) = written done := by
  unfold written
  rw [List.filterMap_append, List.filterMap_cons_none h, List.filterMap_nil,
      List.append_nil]

/-- Steps that write no statement leave the texts as they are. They
take no number either. -/
private theorem bodyOf_append {step : Step} (h : step.written? = none)
    (done : List Step) (q : Proc) :
    bodyOf (done ++ [step]) q = bodyOf done q := by
  unfold bodyOf
  rw [written_append h]

private theorem edgesIn_append {step : Step} (h : step.diversion? = none)
    (done : List Step) (q : Proc) :
    edgesIn (done ++ [step]) q = edgesIn done q := by
  unfold edgesIn diversions
  rw [List.filterMap_append, List.filterMap_cons_none h, List.filterMap_nil,
      List.append_nil]

/-- One more branch or jump, listed at the end of those of its
procedure. -/
private theorem edgesIn_append_diversion {step : Step}
    (h : step.diversion? = some (p, a, b)) (done : List Step) (q : Proc) :
    edgesIn (done ++ [step]) q =
      if p = q then edgesIn done q ++ [(a, b)] else edgesIn done q := by
  unfold edgesIn diversions
  rw [List.filterMap_append, List.filterMap_cons_some h, List.filter_append]
  by_cases hq : p = q <;> simp [hq]

theorem Reflects.declare (h : d.Reflects done) (name : String)
    (params : List Var) :
    (d.declare name params).2.Reflects (done ++ [.declare name params]) where
  next := by
    rw [written_append rfl]
    exact h.next
  body := by
    intro q
    rw [part_declare name params rfl, h.body, bodyOf_append rfl]
  extraEdges := by
    intro q
    rw [part_declare name params rfl, h.extraEdges, edgesIn_append rfl]
  redirected := by
    intro q n
    rw [part_declare name params rfl, h.redirected]
    simp

/-- Writing a statement. The draft takes its number from `next`, which
is how many statements there are. -/
theorem Reflects.write (h : d.Reflects done) {d' : Draft}
    (hedit : Draft.edit { d with next := d.next + 1 } p
      (fun f => { f with body := f.body ++ [(⟨d.next⟩, s)] }) = .ok d') :
    d'.Reflects (done ++ [.write p s]) := by
  refine ⟨?_, fun q => ?_, fun q => ?_, fun {q k} => ?_⟩
  · have hnext : d'.next = d.next + 1 := next_edit hedit
    rw [hnext, h.next]
    simp [written, Step.written?]
  · have hbody : d'.part ProcDraft.body q = _ :=
      part_edit (g := (· ++ [(⟨d.next⟩, s)])) hedit (fun _ => rfl) q
    have hbefore : part { d with next := d.next + 1 } ProcDraft.body q =
      bodyOf done q := h.body q
    rw [hbody, bodyOf_append_write, hbefore, h.next]
  · rw [part_edit_same hedit fun _ => rfl, edgesIn_append rfl]
    exact h.extraEdges q
  · have hbefore : k ∈ part { d with next := d.next + 1 } ProcDraft.redirected
        q ↔ ∃ b, .jump q k b ∈ done := h.redirected
    rw [part_edit_same hedit fun _ => rfl, hbefore]
    simp

/-- A step that adds an edge to a procedure. Branches and jumps differ
in what they do to the nodes that do not fall through. -/
theorem Reflects.divert (h : d.Reflects done) {d' : Draft}
    {F : ProcDraft → ProcDraft} {step : Step} (hedit : d.edit p F = .ok d')
    (hstep : step.diversion? = some (p, a, b))
    (hbody : ∀ f, (F f).body = f.body)
    (hextra : ∀ f, (F f).extraEdges = f.extraEdges ++ [(a, b)])
    (hjumps : ∀ q n, n ∈ d'.part ProcDraft.redirected q ↔
      ∃ b, .jump q n b ∈ done ++ [step]) : d'.Reflects (done ++ [step]) := by
  have hwritten : step.written? = none := by
    cases step with
    | write q s => cases hstep
    | _ => rfl
  refine ⟨?_, fun q => ?_, fun q => ?_, fun {q n} => hjumps q n⟩
  · rw [next_edit hedit, written_append hwritten]
    exact h.next
  · rw [part_edit_same hedit hbody, bodyOf_append hwritten]
    exact h.body q
  · rw [part_edit (g := (· ++ [(a, b)])) hedit hextra,
        edgesIn_append_diversion hstep, h.extraEdges]

theorem Reflects.branch (h : d.Reflects done) {d' : Draft}
    (hedit : d.branch p a b = .ok d') :
    d'.Reflects (done ++ [.branch p a b]) := by
  unfold Draft.branch at hedit
  refine h.divert hedit rfl (fun _ => rfl) (fun _ => rfl) fun q n => ?_
  rw [part_edit_same hedit fun _ => rfl, h.redirected]
  simp

theorem Reflects.jump (h : d.Reflects done) {d' : Draft}
    (hedit : d.jump p a b = .ok d') : d'.Reflects (done ++ [.jump p a b]) := by
  unfold Draft.jump at hedit
  refine h.divert hedit rfl (fun _ => rfl) (fun _ => rfl) fun q n => ?_
  rw [part_edit (g := (Listing.add · a)) hedit fun _ => rfl]
  by_cases hq : p = q
  · subst hq
    rw [if_pos rfl, Listing.mem_add, h.redirected]
    simp [exists_or, eq_comm]
  · rw [if_neg hq, h.redirected]
    simp [Ne.symm hq]

/-- Any step that succeeds. This is the step lemma of
`Reflects.performAll`. -/
theorem Reflects.perform (h : d.Reflects done) {step : Step} {reply : Reply}
    {d' : Draft} (hstep : Performed d step reply d') :
    d'.Reflects (done ++ [step]) := by
  cases hstep with
  | declare name params => exact h.declare name params
  | write hedit => exact h.write hedit
  | branch hedit => exact h.branch hedit
  | jump hedit => exact h.jump hedit

/-- Steps that all succeed, one after the other. After them the draft
reflects what was done before and what they did. -/
theorem Reflects.performAll (h : d.Reflects done)
    (hok : ∀ answer ∈ (d.performAll steps).1, ∃ reply, answer = .ok reply) :
    (d.performAll steps).2.Reflects (done ++ steps) := by
  induction steps generalizing d done with
  | nil =>
    rw [List.append_nil]
    exact h
  | cons step steps ih =>
    obtain ⟨reply, hreply⟩ := hok _ List.mem_cons_self
    have hrest := ih (h.perform (performed_of_ok hreply)) fun answer ha =>
      hok answer (List.mem_cons_of_mem _ ha)
    rw [List.append_assoc] at hrest
    exact hrest

/-- A draft has what its steps ask for, if they all succeed. At first
there is nothing, and nothing is asked for. -/
private theorem reflects_ofSteps
    (hok : ∀ answer ∈ (performAll {} steps).1, ∃ reply, answer = .ok reply) :
    (ofSteps steps).Reflects steps := by
  have hempty : ({} : Draft).Reflects [] :=
    ⟨rfl, fun _ => rfl, fun _ => rfl, by simp [part]⟩
  exact hempty.performAll hok

-- =============================================================== sealing

/-- Sealing closes the first procedure, and goes on with the next
number if it was used. -/
private theorem sealFrom_cons (next : Nat) (f : ProcDraft)
    (fs : List ProcDraft) :
    sealFrom next (f :: fs) =
      f.closed next :: sealFrom (next + if f.needsReturn then 1 else 0) fs := by
  unfold ProcDraft.closed
  rw [sealFrom]
  split <;> rfl

/-- The returns are numbered one after the other: what comes before a
procedure decides which number its return gets. -/
private theorem getElem?_sealFrom (next : Nat) (fs : List ProcDraft) (i : Nat) :
    (sealFrom next fs)[i]? =
      fs[i]?.map fun f => f.closed
        (next + (fs.take i).countP ProcDraft.needsReturn) := by
  induction fs generalizing next i with
  | nil => rfl
  | cons f fs ih =>
    rw [sealFrom_cons]
    cases i with
    | zero => rfl
    | succ i =>
      rw [List.getElem?_cons_succ, List.getElem?_cons_succ, ih,
        List.take_succ_cons, List.countP_cons, Nat.add_assoc,
        Nat.add_comm (if f.needsReturn then 1 else 0)]

/-- The sealed procedures, by their places. Sealing keeps the order of
procedures, so the place is the number. -/
theorem mem_sealed_iff {f : ProcDraft} :
    (f, p) ∈ d.sealed ↔ (sealFrom d.next d.procs)[p.id]? = some f := by
  unfold sealed
  rw [List.mem_map]
  constructor
  · intro h
    obtain ⟨x, hx, heq⟩ := h
    cases heq
    exact List.mem_zipIdx_iff_getElem?.mp hx
  · intro h
    exact ⟨(f, p.id), List.mem_zipIdx_iff_getElem?.mpr h, rfl⟩

/-- A sealed procedure with everything that the steps ask for in it:
its text, its branches and jumps, and where it jumps from. -/
structure IsTextOf (f : ProcDraft) (steps : List Step) (p : Proc) : Prop where
  body : f.body = textOf steps p
  extraEdges : f.extraEdges = edgesIn steps p
  redirected : ∀ {n}, n ∈ f.redirected ↔ ∃ b, .jump p n b ∈ steps

private theorem part_of_getElem? {α : Type} {f : ProcDraft}
    (hf : d.procs[p.id]? = some f) (field : ProcDraft → List α) :
    d.part field p = field f := by
  unfold part
  rw [hf]
  rfl

/-- As many procedures need a return in the draft as have a text
without one. -/
theorem Reflects.countP_take (h : d.Reflects steps) (i : Nat)
    (hi : i ≤ d.procs.length) :
    (d.procs.take i).countP ProcDraft.needsReturn = returnsAdded steps i := by
  induction i with
  | zero => rfl
  | succ i ih =>
    have hget : d.procs[i]? = some d.procs[i] := List.getElem?_eq_getElem hi
    have hbody : d.procs[i].body = bodyOf steps ⟨i⟩ :=
      (part_of_getElem? (p := ⟨i⟩) hget ProcDraft.body).symm.trans (h.body ⟨i⟩)
    unfold returnsAdded at ih ⊢
    rw [List.take_add_one, List.countP_append, ih (Nat.le_of_succ_le hi),
      List.range_succ, List.countP_append, hget]
    simp [ProcDraft.needsReturn_eq, hbody]

/-- A sealed procedure has its text. The return that is added gets the
number that `textOf` gives it. -/
theorem Reflects.isTextOf (h : d.Reflects steps) {f : ProcDraft}
    (hf : (f, p) ∈ d.sealed) : IsTextOf f steps p := by
  rw [mem_sealed_iff, getElem?_sealFrom] at hf
  obtain ⟨f₀, hf₀, rfl⟩ := Option.map_eq_some_iff.mp hf
  have hbelow : p.id ≤ d.procs.length :=
    Nat.le_of_lt (List.getElem?_eq_some_iff.mp hf₀).1
  have hbody : f₀.body = bodyOf steps p :=
    (part_of_getElem? hf₀ _).symm.trans (h.body p)
  have hextra : f₀.extraEdges = edgesIn steps p :=
    (part_of_getElem? hf₀ _).symm.trans (h.extraEdges p)
  have hjumps : ∀ {n}, n ∈ f₀.redirected ↔ ∃ b, .jump p n b ∈ steps := by
    intro n
    rw [← h.redirected, part_of_getElem? hf₀]
  unfold ProcDraft.closed
  rw [h.countP_take _ hbelow, h.next, ProcDraft.needsReturn_eq, hbody]
  constructor
  · unfold textOf
    split
    · rfl
    · exact hbody
  · split
    · exact hextra
    · exact hextra
  · split
    · exact hjumps
    · exact hjumps

/-- A procedure that has a text is declared, because a statement can be
written to a declared one only. -/
theorem Reflects.exists_mem_sealed (h : d.Reflects steps) {e : Node × Stmt}
    (he : e ∈ textOf steps p) : ∃ f, (f, p) ∈ d.sealed := by
  have hwritten : bodyOf steps p ≠ [] := by
    intro hnil
    unfold textOf at he
    rw [hnil] at he
    exact absurd he List.not_mem_nil
  rw [← h.body p] at hwritten
  cases hf : d.procs[p.id]? with
  | none =>
    unfold part at hwritten
    rw [hf] at hwritten
    exact absurd rfl hwritten
  | some f =>
    -- sealing leaves every procedure in its place
    have hsealed := getElem?_sealFrom d.next d.procs p.id
    rw [hf] at hsealed
    exact ⟨_, mem_sealed_iff.mpr hsealed⟩

/-- Texts end in returns, if there is anything in them. A procedure
without statements stays without a return. -/
theorem lacksReturn_textOf (steps : List Step) (p : Proc) :
    ProcDraft.lacksReturn (textOf steps p) = false := by
  unfold textOf
  split
  · simp [ProcDraft.lacksReturn, Stmt.isReturn]
  next h => simpa using h

-- ======================================================== proper programs

/-- Steps that all succeed, with branches and jumps inside the
procedures they are made for. A branch may lead to a statement that is
written later, or to the return that is added at the end. -/
structure IsProper (steps : List Step) : Prop where
  answered : ∀ answer ∈ (performAll {} steps).1, ∃ reply, answer = .ok reply
  inside : ∀ x ∈ diversions steps,
    x.2.1 ∈ (textOf steps x.1).map Prod.fst ∧
      x.2.2 ∈ (textOf steps x.1).map Prod.fst

theorem mem_edgesIn :
    (a, b) ∈ edgesIn steps p ↔ (p, a, b) ∈ diversions steps := by
  unfold edgesIn
  simp [List.mem_map, List.mem_filter]

theorem IsProper.reflects (h : IsProper steps) :
    (ofSteps steps).Reflects steps :=
  reflects_ofSteps h.answered

/-- Branches and jumps of a proper program stay inside the sealed
procedures. -/
theorem IsProper.isScoped (h : IsProper steps) : (ofSteps steps).IsScoped := by
  rintro ⟨f, p⟩ hf ⟨a, b⟩ hedge
  have htext := h.reflects.isTextOf hf
  rw [htext.extraEdges, mem_edgesIn] at hedge
  unfold ProcDraft.nodes
  rw [htext.body]
  exact h.inside _ hedge

/-- The graph of a proper program fits its statements. All that is
proved about laid-out programs holds of it. -/
theorem IsProper.isLaidOut (h : IsProper steps) :
    (ofSteps steps).build.IsLaidOut :=
  isLaidOut_build (isNumbered_ofSteps steps) h.isScoped

-- =============================================================== answers

/-- The node that a step answers. -/
def Reply.node? : Reply → Option Node
  | .node n => some n
  | _ => none

/-- The nodes among the answers to steps. A caller gets to know the
numbers of statements in no other way. -/
def nodesIn (answers : List (Except Fault Reply)) : List Node :=
  answers.filterMap fun answer => answer.toOption.bind Reply.node?

/-- A statement takes the next number, and other steps take none. -/
theorem Performed.node? {step : Step} {reply : Reply} {d' : Draft}
    (h : Performed d step reply d') :
    reply.node? = step.written?.map (fun _ => ⟨d.next⟩) ∧
      d'.next = d.next + step.written?.toList.length := by
  cases h with
  | declare name params => exact ⟨rfl, rfl⟩
  | write hedit => exact ⟨rfl, next_edit hedit⟩
  | branch hedit => exact ⟨rfl, next_edit hedit⟩
  | jump hedit => exact ⟨rfl, next_edit hedit⟩

/-- Statements are answered by consecutive numbers. This ties the
numbers in a text to those that the caller was told. -/
theorem nodesIn_performAll
    (hok : ∀ answer ∈ (d.performAll steps).1, ∃ reply, answer = .ok reply) :
    nodesIn (d.performAll steps).1 =
      (List.range' d.next (written steps).length).map Node.mk := by
  induction steps generalizing d with
  | nil => rfl
  | cons step steps ih =>
    obtain ⟨reply, hreply⟩ := hok (d.perform step).1 List.mem_cons_self
    obtain ⟨hnode, hnext⟩ := (performed_of_ok hreply).node?
    have hrest := ih (d := (d.perform step).2) fun answer ha =>
      hok answer (List.mem_cons_of_mem _ ha)
    have hfirst : (d.perform step).1.toOption.bind Reply.node? =
        step.written?.map (fun _ => ⟨d.next⟩) := by
      rw [hreply]
      exact hnode
    show nodesIn ((d.perform step).1 ::
        ((d.perform step).2.performAll steps).1) = _
    unfold nodesIn written at hrest ⊢
    cases hstep : step.written? with
    | none =>
      rw [hstep] at hfirst hnext
      rw [List.filterMap_cons, List.filterMap_cons, hfirst, hstep, hrest, hnext]
      rfl
    | some x =>
      rw [hstep] at hfirst hnext
      rw [List.filterMap_cons, List.filterMap_cons, hfirst, hstep, hrest, hnext]
      rfl

end Draft

end Tabulation
