/-
The analyses of the example language, as far as their runs need to know
them.

`Analyzes` collects what makes a run of an analysis uneventful: every
question about a node that has a statement has an answer, answers
mention variables of the program only, the values form a lattice, joins
of edge functions pass the check, and neither values nor edge functions
can rise forever. Linear constant propagation and the analysis of
uninitialized variables are of this kind, whatever they start from and
whatever they ask for (`LinearConstants.analyzes`,
`Uninitialized.analyzes`).
-/
import Tabulation.Analysis.LinearConstants
import Tabulation.Analysis.Uninitialized
import Tabulation.Proofs.EdgeFunction.Exact
import Tabulation.Proofs.JoinOverPaths
import Tabulation.Proofs.Solver.Settling

namespace Tabulation

-- ============================================================ the variables

namespace Program

variable {P : Program} {x : Var}

/-- Parameters are variables of the program. -/
private theorem mem_vars_of_mem_params {p : Proc} (h : x ∈ P.params p) :
    x ∈ P.vars := by
  unfold params Table.getD at h
  cases hget : P.formals.get? p with
  | none =>
    rw [hget] at h
    exact absurd h List.not_mem_nil
  | some formals =>
    rw [hget] at h
    refine Listing.mem_distinct.mpr
      (List.mem_append_left _ (List.mem_flatMap.mpr ?_))
    exact ⟨(p, formals), Table.mem_entries.mpr hget, h⟩

/-- So is whatever a statement writes. -/
private theorem mem_vars_of_writes {n : Node} {s : Stmt}
    (hs : P.stmts.get? n = some s) (h : s.writes = some x) : x ∈ P.vars := by
  refine Listing.mem_distinct.mpr
    (List.mem_append_right _ (List.mem_flatMap.mpr ?_))
  refine ⟨(n, s), Table.mem_entries.mpr hs, ?_⟩
  cases s with
  | decl y => cases h
  | _ => exact List.mem_append_left _ (Option.mem_toList.mpr h)

private theorem mem_vars_of_decl {n : Node}
    (hs : P.stmts.get? n = some (.decl x)) : x ∈ P.vars := by
  refine Listing.mem_distinct.mpr
    (List.mem_append_right _ (List.mem_flatMap.mpr ?_))
  exact ⟨(n, .decl x), Table.mem_entries.mpr hs, List.mem_singleton.mpr rfl⟩

/-- A fact that an answer about `d` may mention: the fact itself, zero,
or a variable of the program. -/
def Mentions (P : Program) (d e : LocalFact) : Prop :=
  e = d ∨ e = .zero ∨ ∃ x ∈ P.vars, e = .var x

end Program

-- ============================================================== the analyses

variable {W L : Type} [DecidableEq L]

/-- A lattice obeys its laws on all samples, so the check that precedes
a run finds nothing. -/
theorem ValueLattice.IsSemilattice.violation?_eq_none {V : ValueLattice L}
    (h : V.IsSemilattice) (hne : V.top ≠ V.bottom) (samples : List L) :
    V.violation? samples = none := by
  unfold violation?
  rw [if_neg hne, List.findSome?_eq_none_iff]
  intro v _
  unfold violationAt?
  rw [if_neg (not_not.mpr (h.join_idem v)),
    if_neg (not_not.mpr ((h.join_comm v V.bottom).trans (h.bottom_join v))),
    if_neg (not_not.mpr ((h.join_comm v V.top).trans (h.top_join v))),
      List.findSome?_eq_none_iff]
  intro o _
  unfold violationBetween?
  dsimp only
  rw [if_neg (not_not.mpr (h.join_comm v o)), h.leq_join_left, h.leq_join_right]
  rfl

/-- An analysis of a program whose runs are uneventful. The first
fields say that questions have answers, the next ones what answers
mention, and the last ones what keeps joins from being rejected and
from going on forever. -/
structure Analyzes (P : Program) (S : Setup LocalFact W L) : Prop where
  view_eq : S.view = FlowGraph.icfg
  zero_eq : S.problem.zero = .zero
  exists_isIdentityAt : ∀ {n s}, P.stmts.get? n = some s →
    ∃ b, S.problem.isIdentityAt n = .ok b
  exists_flow : ∀ {edge s} d, P.stmts.get? edge.source = some s →
    edge.kind ≠ .ret → ∃ answer, S.problem.flow edge d = .ok answer
  exists_returnFlow : ∀ {c x s sx} g r d callFact, P.stmts.get? c = some s →
    P.stmts.get? x = some sx →
    ∃ answer, S.problem.returnFlow (.ret c g x r) d callFact = .ok answer
  flow_mentions : ∀ {edge d answer t}, S.problem.flow edge d = .ok answer →
    t ∈ answer → P.Mentions d t.1
  returnFlow_mentions : ∀ {edge d callFact answer t},
    S.problem.returnFlow edge d callFact = .ok answer → t ∈ answer →
    P.Mentions d t.1
  isSemilattice : S.problem.lattice.IsSemilattice
  extremes : S.problem.lattice.top ≠ S.problem.lattice.bottom
  isUpperBound : ∀ f g, S.isUpperBound (S.problem.functions.join f g) f g = true
  exists_rank : ∃ rank bound, S.IsRank rank bound
  exists_valueRank : ∃ rank bound, S.problem.lattice.IsRank rank bound

namespace Analyzes

variable {P : Program} {S : Setup LocalFact W L}

/-- What a flow is taken to yield is mentioned by the answer, or is
zero. -/
theorem mentions_of_mem_targets (hS : Analyzes P S) {d : LocalFact}
    {answer : Except Fault (List (LocalFact × W))} {t : LocalFact × W}
    (hanswer : ∀ {a t}, answer = .ok a → t ∈ a → P.Mentions d t.1)
    (h : t ∈ S.targets d answer) : P.Mentions d t.1 := by
  cases answer with
  | error fault => exact absurd h List.not_mem_nil
  | ok a =>
    rcases S.mem_fst_effective.mp (List.mem_map.mpr ⟨t, h, rfl⟩)
      with hmem | ⟨_, _, hzero⟩
    · obtain ⟨u, hu, heq⟩ := List.mem_map.mp hmem
      rw [← heq]
      exact hanswer rfl hu
    · exact Or.inr (Or.inl (hzero.trans hS.zero_eq))

/-- Facts that hold zero and the variables of the program are closed
under all flows. So a run that starts inside a finite list of facts
stays there. -/
theorem confines (hS : Analyzes P S) {facts : List LocalFact}
    (hzero : .zero ∈ facts) (hvars : ∀ x ∈ P.vars, .var x ∈ facts) :
    S.Confines facts := by
  have hmem : ∀ {d e}, d ∈ facts → P.Mentions d e → e ∈ facts := by
    intro d e hd h
    rcases h with rfl | rfl | ⟨x, hx, rfl⟩
    · exact hd
    · exact hzero
    · exact hvars x hx
  refine ⟨fun {n m d t} hd ht => ?_, fun hd ht => ?_, fun hd _ ht => ?_,
      fun hd ht => ?_⟩
  · unfold Setup.normalTargets at ht
    cases hident : S.problem.isIdentityAt n with
    | error fault =>
      rw [hident] at ht
      exact absurd ht List.not_mem_nil
    | ok b =>
      rw [hident] at ht
      cases b with
      | true =>
        have ht : t ∈ S.targets d (.ok [(d, S.identity)]) := ht
        refine hmem hd (hS.mentions_of_mem_targets (fun {a t} ha hta => ?_) ht)
        cases ha
        rw [List.mem_singleton.mp hta]
        exact Or.inl rfl
      | false => exact hmem hd (hS.mentions_of_mem_targets hS.flow_mentions ht)
  · exact hmem hd (hS.mentions_of_mem_targets hS.flow_mentions ht)
  · exact hmem hd (hS.mentions_of_mem_targets hS.returnFlow_mentions ht)
  · exact hmem hd (hS.mentions_of_mem_targets hS.flow_mentions ht)

end Analyzes

/-- What is bound by a call is a parameter of the callee. A fact about
anything else does not get in. -/
theorem Program.mentions_of_mem_transfer {P : Program} {args : List Var}
    {g : Proc} {d e : LocalFact}
    (h : e ∈ FlowFunction.transfer d (LocalFact.bindings args (P.params g))) :
    P.Mentions d e := by
  obtain ⟨⟨a, b⟩, hmem, rfl⟩ := List.mem_map.mp h
  obtain ⟨⟨x, y⟩, hzip, heq⟩ := List.mem_map.mp (List.mem_filter.mp hmem).1
  cases heq
  exact Or.inr
    (Or.inr ⟨y, mem_vars_of_mem_params (List.of_mem_zip hzip).2, rfl⟩)

-- ====================================================== linear constants

namespace LinearEdge

/-- Joins are above what they join, at every value. So the check on
joins never rejects one. -/
theorem isAbove_join (f g : LinearEdge) (v : ConstValue) :
    functions.isAbove ConstValue.lattice (join f g) f g v = true := by
  have hlat := ConstValue.isSemilattice
  refine Bool.and_eq_true_iff.mpr ?_
  show ConstValue.lattice.leq (eval f v) (eval (join f g) v) = true ∧
    ConstValue.lattice.leq (eval g v) (eval (join f g) v) = true
  rcases join_cases f g with ⟨h, rfl | rfl⟩ | ⟨h, rfl⟩ | h
  · rw [h]
    exact ⟨hlat.leq_refl _, hlat.leq_refl _⟩
  · rw [h]
    exact ⟨hlat.leq_refl _, hlat.bottom_leq _⟩
  · rw [h]
    exact ⟨hlat.bottom_leq _, hlat.leq_refl _⟩
  · rw [h]
    exact ⟨hlat.leq_top _, hlat.leq_top _⟩

/-- How often a function can be replaced by a larger one: all functions
but the extremes lie on one level. -/
def rank : LinearEdge → Nat
  | allBottom => 2
  | allTop => 0
  | _ => 1

theorem rank_le (f : LinearEdge) : f.rank ≤ 2 := by
  cases f <;> simp [rank]

/-- A join that changes a function is on a higher level. Levels are
counted from above. -/
theorem rank_join_lt {f g : LinearEdge} (h : join f g ≠ f) :
    (join f g).rank < f.rank := by
  rcases join_cases f g with ⟨heq, _⟩ | ⟨heq, rfl⟩ | heq
  · exact absurd heq h
  · rw [heq] at h ⊢
    cases g with
    | allBottom => exact absurd rfl h
    | _ => simp [rank]
  · rw [heq] at h ⊢
    cases f with
    | allTop => exact absurd rfl h
    | _ => simp [rank]

end LinearEdge

namespace ConstValue

/-- How often a value can be replaced by a larger one. -/
def rank : ConstValue → Nat
  | bottom => 2
  | const _ => 1
  | top => 0

/-- Values rise twice at most: from the bottom to a constant, and from
there to the top. -/
theorem isRank : lattice.IsRank rank 2 where
  bounded := fun v => by cases v <;> simp [rank]
  descends := by
    intro v u h
    show rank (join v u) < rank v
    have h : join v u ≠ v := h
    cases v with
    | bottom =>
      cases u with
      | bottom => exact absurd rfl h
      | const c => exact Nat.lt_succ_self 1
      | top => exact Nat.zero_lt_two
    | const a =>
      cases u with
      | bottom => exact absurd rfl h
      | top => exact Nat.zero_lt_one
      | const b =>
        have hjoin : join (const a) (const b) = if a =
          b then const a else top := rfl
        by_cases hab : a = b
        · rw [hjoin, if_pos hab] at h
          exact absurd rfl h
        · rw [hjoin, if_neg hab]
          exact Nat.zero_lt_one
    | top => cases u <;> exact absurd rfl h

end ConstValue

namespace LinearConstants

open LocalFact

variable {P : Program} {n : Node} {s : Stmt} {d : LocalFact}
variable {t : LocalFact × LinearEdge}

/-- Linear constant propagation from entries and seeds, with requests.
The seeds and requests are arbitrary, so that runs can be spoken of
whatever they start from. -/
def seeded (P : Program) (entries : List Proc)
    (seeds : List (Seed LocalFact ConstValue))
    (requests : Nat → FlowEdge → LocalFact → List Request) (config : Config)
    (world : World) : Setup LocalFact LinearEdge ConstValue :=
  { problem := { problem P entries with seeds, requests }, config, world }

private theorem fst_of_mem_pass (h : t ∈ pass d) : t.1 = d := by
  rw [List.mem_singleton.mp h]

/-- An assignment yields the variable that is read, or the one that is
written. -/
private theorem fst_of_mem_assign {dst src x : Var} {f : LinearEdge}
    (h : t ∈ assign dst src f x) : t.1 = var x ∨ t.1 = var dst := by
  unfold assign at h
  rcases List.mem_append.mp h with h | h
  · split at h
    · exact Or.inl (fst_of_mem_pass h)
    · exact absurd h List.not_mem_nil
  · split at h
    · rw [List.mem_singleton.mp h]
      exact Or.inr rfl
    · exact absurd h List.not_mem_nil

/-- Statements mention what they write and what they declare. -/
private theorem mentions_normalFlow (hs : P.stmts.get? n = some s)
    (h : t ∈ normalFlow s d) : P.Mentions d t.1 := by
  have hwrites : ∀ {x}, s.writes = some x → t.1 = var x → P.Mentions d t.1 :=
    fun hx ht => Or.inr (Or.inr ⟨_, Program.mem_vars_of_writes hs hx, ht⟩)
  unfold normalFlow at h
  split at h
  · rcases List.mem_append.mp h with h | h
    · exact Or.inl (fst_of_mem_pass h)
    · exact hwrites rfl (by rw [List.mem_singleton.mp h])
  · rcases List.mem_append.mp h with h | h
    · exact Or.inl (fst_of_mem_pass h)
    · exact hwrites rfl (by rw [List.mem_singleton.mp h])
  · exact Or.inl (fst_of_mem_pass h)
  · rcases fst_of_mem_assign h with h | h
    · exact Or.inl h
    · exact hwrites rfl h
  · rcases fst_of_mem_assign h with h | h
    · exact Or.inl h
    · exact hwrites rfl h
  · split at h
    · exact absurd h List.not_mem_nil
    · exact Or.inl (fst_of_mem_pass h)
  · split at h
    · exact absurd h List.not_mem_nil
    · exact Or.inl (fst_of_mem_pass h)
  · exact Or.inl (fst_of_mem_pass h)

/-- A call mentions the parameters of the callee. -/
private theorem mentions_callFlow {g : Proc}
    (h : t ∈ callFlow s (P.params g) d) : P.Mentions d t.1 := by
  unfold callFlow at h
  split at h
  · exact Or.inl (fst_of_mem_pass h)
  · split at h
    · obtain ⟨e, he, rfl⟩ := List.mem_map.mp h
      exact Program.mentions_of_mem_transfer he
    · exact absurd h List.not_mem_nil

/-- A return mentions what the call writes its result to. -/
private theorem mentions_returnFlow {sx : Stmt} (hs : P.stmts.get? n = some s)
    (h : t ∈ returnFlow s sx d) : P.Mentions d t.1 := by
  unfold returnFlow at h
  split at h
  · exact Or.inl (fst_of_mem_pass h)
  · split at h
    · split at h
      · exact Or.inr
          (Or.inr ⟨_, Program.mem_vars_of_writes hs rfl, fst_of_mem_pass h⟩)
      · exact absurd h List.not_mem_nil
    · exact absurd h List.not_mem_nil

/-- Past a call no other fact is yielded. -/
private theorem fst_of_mem_callToReturnFlow (h : t ∈ callToReturnFlow s d) :
    t.1 = d := by
  unfold callToReturnFlow at h
  split at h
  · split at h
    · exact absurd h List.not_mem_nil
    · exact fst_of_mem_pass h
  · exact fst_of_mem_pass h

private theorem snd_of_mem_pass (h : t ∈ pass d) : t.2 = .identity := by
  rw [List.mem_singleton.mp h]

/-- Calls carry the identity: a parameter has the value of its
argument. -/
theorem snd_of_mem_callFlow {params : List Var} (h : t ∈ callFlow s params d) :
    t.2 = .identity := by
  unfold callFlow at h
  split at h
  · exact snd_of_mem_pass h
  · split at h
    · obtain ⟨_, _, rfl⟩ := List.mem_map.mp h
      rfl
    · exact absurd h List.not_mem_nil

/-- And so do returns: the result is what was returned. -/
theorem snd_of_mem_returnFlow {sx : Stmt} (h : t ∈ returnFlow s sx d) :
    t.2 = .identity := by
  unfold returnFlow at h
  split at h
  · exact snd_of_mem_pass h
  · split at h
    · split at h
      · exact snd_of_mem_pass h
      · exact absurd h List.not_mem_nil
    · exact absurd h List.not_mem_nil

/-- Whatever kind of edge is crossed, the answer mentions facts of the
program only. -/
private theorem flow_mentions {edge : FlowEdge}
    {answer : List (LocalFact × LinearEdge)} (h : flow P edge d = .ok answer)
    (ht : t ∈ answer) : P.Mentions d t.1 := by
  cases edge with
  | normal n m =>
    obtain ⟨s, hs, h⟩ := Program.exists_stmt_of_bind h
    cases h
    exact mentions_normalFlow hs ht
  | call c g st =>
    obtain ⟨s, hs, h⟩ := Program.exists_stmt_of_bind h
    cases h
    exact mentions_callFlow ht
  | ret c g x r =>
    obtain ⟨s, hs, h⟩ := Program.exists_stmt_of_bind h
    obtain ⟨sx, _, h⟩ := Program.exists_stmt_of_bind h
    cases h
    exact mentions_returnFlow hs ht
  | callToReturn c r =>
    obtain ⟨s, hs, h⟩ := Program.exists_stmt_of_bind h
    cases h
    exact Or.inl (fst_of_mem_callToReturnFlow ht)

/-- A flow has an answer wherever there is a statement. Returns are
left out here, since they need a second one. -/
private theorem exists_flow {edge : FlowEdge}
    (hs : P.stmts.get? edge.source = some s) (hkind : edge.kind ≠ .ret)
    (d : LocalFact) : ∃ answer, flow P edge d = .ok answer := by
  have hstmt := Program.stmt_eq_ok hs
  cases edge with
  | normal n m => exact ⟨_, congrArg (· >>= _) hstmt⟩
  | call c g st => exact ⟨_, congrArg (· >>= _) hstmt⟩
  | ret c g x r => exact absurd rfl hkind
  | callToReturn c r => exact ⟨_, congrArg (· >>= _) hstmt⟩

/-- Runs of linear constant propagation are uneventful. It answers at
every statement, its facts are variables of the program, and its joins
pass. -/
theorem analyzes (P : Program) (entries : List Proc)
    (seeds : List (Seed LocalFact ConstValue))
    (requests : Nat → FlowEdge → LocalFact → List Request) (config : Config)
    (world : World) :
    Analyzes P (seeded P entries seeds requests config world) where
  view_eq := rfl
  zero_eq := rfl
  exists_isIdentityAt := fun hs =>
    ⟨_, congrArg (Except.map _) (Program.stmt_eq_ok hs)⟩
  exists_flow := fun d hs hkind => exists_flow hs hkind d
  exists_returnFlow := by
    intro c x s sx g r d callFact hs hsx
    refine ⟨returnFlow s sx d, ?_⟩
    show flow P (.ret c g x r) d = _
    rw [flow, Program.stmt_eq_ok hs, Program.stmt_eq_ok hsx]
    rfl
  flow_mentions := flow_mentions
  returnFlow_mentions := flow_mentions
  isSemilattice := ConstValue.isSemilattice
  extremes := fun h => nomatch h
  isUpperBound := fun f g => List.all_eq_true.mpr fun v _ =>
    LinearEdge.isAbove_join f g v
  exists_rank :=
    ⟨LinearEdge.rank, 2, LinearEdge.rank_le, fun _ => LinearEdge.rank_join_lt⟩
  exists_valueRank := ⟨ConstValue.rank, 2, ConstValue.isRank⟩

end LinearConstants

-- ================================================= uninitialized variables

/-- How often a function can be replaced by a larger one. There are
three functions, one above the other. -/
def BinaryEdge.rank : BinaryEdge → Nat
  | allBottom => 2
  | identity => 1
  | allTop => 0

/-- Joins are above what they join, at every value. So the check on
samples accepts them, whatever the samples. -/
theorem BinaryEdge.isAbove_join (f g : BinaryEdge) (v : Binary) :
    (functions Binary.lattice).isAbove Binary.lattice (join f g) f g
      v = true := by
  have hlat := Binary.isSemilattice
  have hjoin : eval Binary.lattice (join f g) v = _ :=
    (isDistributive hlat).eval_join f g v
  refine Bool.and_eq_true_iff.mpr ?_
  show Binary.lattice.leq _ (eval Binary.lattice (join f g) v) = true ∧
    Binary.lattice.leq _ (eval Binary.lattice (join f g) v) = true
  rw [hjoin]
  exact ⟨hlat.leq_join_left _ _, hlat.leq_join_right _ _⟩

/-- How often a value can be replaced by a larger one. -/
def Binary.rank : Binary → Nat
  | bottom => 1
  | top => 0

/-- Weights are attached to the facts of an answer, all of them the
same one. -/
theorem ReachabilityProblem.exists_facts {D : Type}
    {answer : Except Fault (List D)} {l : List (D × BinaryEdge)}
    (h : answer.map (fun facts =>
      FlowFunction.withWeight facts .identity) = .ok l) :
    ∃ facts, answer = .ok facts ∧
    l = FlowFunction.withWeight facts .identity := by
  cases answer with
  | error fault => cases h
  | ok facts =>
    cases h
    exact ⟨facts, rfl, rfl⟩

namespace Uninitialized

open LocalFact

variable {P : Program} {n : Node} {s : Stmt} {d e : LocalFact}

/-- Uninitialized variables from entries and seeds, with requests, as
for the constants above. -/
def seeded (P : Program) (entries : List Proc) (seeds : List (Node × LocalFact))
    (requests : Nat → FlowEdge → LocalFact → List Request) (config : Config)
    (world : World) : Setup LocalFact BinaryEdge Binary :=
  { problem :=
      ReachabilityProblem.toProblem
        { problem P entries with seeds, requests }
    config, world }

/-- Generating facts from zero keeps the fact that is there. -/
private theorem mem_generate {generated : List LocalFact}
    (h : e ∈ FlowFunction.generate d zero generated) :
    e = d ∨ e ∈ generated := by
  unfold FlowFunction.generate at h
  split at h
  · rcases List.mem_cons.mp h with h | h
    · exact Or.inl h
    · exact Or.inr (List.mem_filter.mp h).1
  · exact Or.inl (List.mem_singleton.mp h)

/-- Statements mention what they write and what they declare. -/
private theorem mentions_normalFlow (hs : P.stmts.get? n = some s)
    (h : e ∈ normalFlow s d) : P.Mentions d e := by
  cases d with
  | zero =>
    unfold normalFlow at h
    dsimp only at h
    split at h
    · rcases mem_generate h with h | h
      · exact Or.inl h
      · exact Or.inr
          (Or.inr ⟨_, Program.mem_vars_of_decl hs, List.mem_singleton.mp h⟩)
    · exact Or.inl (List.mem_singleton.mp h)
  | var x =>
    unfold normalFlow at h
    dsimp only at h
    split at h
    · exact Or.inl (List.mem_singleton.mp h)
    · rcases List.mem_append.mp h with h | h
      · split at h
        · exact Or.inl (List.mem_singleton.mp h)
        · exact absurd h List.not_mem_nil
      · split at h
        next y hy =>
          split at h
          · exact Or.inr
              (Or.inr ⟨y, Program.mem_vars_of_writes hs hy,
                List.mem_singleton.mp h⟩)
          · exact absurd h List.not_mem_nil
        next => exact absurd h List.not_mem_nil

private theorem mentions_callFlow {g : Proc}
    (h : e ∈ callFlow s (P.params g) d) : P.Mentions d e := by
  unfold callFlow at h
  split at h
  · rcases mem_generate h with h | h
    · exact Or.inl h
    · obtain ⟨x, hx, rfl⟩ := List.mem_map.mp h
      exact Or.inr
        (Or.inr ⟨x, Program.mem_vars_of_mem_params
          (List.mem_of_mem_drop hx), rfl⟩)
  · exact Program.mentions_of_mem_transfer h
  · exact absurd h List.not_mem_nil

private theorem mentions_returnFlow {sx : Stmt} (hs : P.stmts.get? n = some s)
    (h : e ∈ returnFlow s sx d) : P.Mentions d e := by
  unfold returnFlow at h
  split at h
  · exact Or.inl (List.mem_singleton.mp h)
  · split at h
    · split at h
      · exact Or.inr
          (Or.inr ⟨_, Program.mem_vars_of_writes hs rfl,
            List.mem_singleton.mp h⟩)
      · exact absurd h List.not_mem_nil
    · exact absurd h List.not_mem_nil

private theorem eq_of_mem_callToReturnFlow (h : e ∈ callToReturnFlow s d) :
    e = d := by
  unfold callToReturnFlow at h
  split at h
  · split at h
    · exact absurd h List.not_mem_nil
    · exact List.mem_singleton.mp h
  · exact List.mem_singleton.mp h

/-- Whatever kind of edge is crossed, the answer mentions facts of the
program only. -/
private theorem flow_mentions {edge : FlowEdge} {facts : List LocalFact}
    (h : flow P edge d = .ok facts) (he : e ∈ facts) : P.Mentions d e := by
  cases edge with
  | normal n m =>
    obtain ⟨s, hs, h⟩ := Program.exists_stmt_of_bind h
    cases h
    exact mentions_normalFlow hs he
  | call c g st =>
    obtain ⟨s, hs, h⟩ := Program.exists_stmt_of_bind h
    cases h
    exact mentions_callFlow he
  | ret c g x r =>
    obtain ⟨s, hs, h⟩ := Program.exists_stmt_of_bind h
    obtain ⟨sx, _, h⟩ := Program.exists_stmt_of_bind h
    cases h
    exact mentions_returnFlow hs he
  | callToReturn c r =>
    obtain ⟨s, hs, h⟩ := Program.exists_stmt_of_bind h
    cases h
    exact Or.inl (eq_of_mem_callToReturnFlow he)

/-- Weights do not add facts, so the same is true of the problem with
edge functions. -/
private theorem fst_mentions {edge : FlowEdge}
    {answer : List (LocalFact × BinaryEdge)} {t : LocalFact × BinaryEdge}
    (h : (flow P edge d).map
      (fun facts => FlowFunction.withWeight facts .identity) = .ok answer)
    (ht : t ∈ answer) : P.Mentions d t.1 := by
  obtain ⟨facts, hfacts, rfl⟩ := ReachabilityProblem.exists_facts h
  obtain ⟨e, he, rfl⟩ := List.mem_map.mp ht
  exact flow_mentions hfacts he

private theorem exists_flow {edge : FlowEdge}
    (hs : P.stmts.get? edge.source = some s) (hkind : edge.kind ≠ .ret)
    (d : LocalFact) : ∃ facts, flow P edge d = .ok facts := by
  have hstmt := Program.stmt_eq_ok hs
  cases edge with
  | normal n m => exact ⟨_, congrArg (· >>= _) hstmt⟩
  | call c g st => exact ⟨_, congrArg (· >>= _) hstmt⟩
  | ret c g x r => exact absurd rfl hkind
  | callToReturn c r => exact ⟨_, congrArg (· >>= _) hstmt⟩

/-- Runs of the analysis of uninitialized variables are uneventful,
too. -/
theorem analyzes (P : Program) (entries : List Proc)
    (seeds : List (Node × LocalFact))
    (requests : Nat → FlowEdge → LocalFact → List Request) (config : Config)
    (world : World) :
    Analyzes P (seeded P entries seeds requests config world) where
  view_eq := rfl
  zero_eq := rfl
  exists_isIdentityAt := fun hs =>
    ⟨_, congrArg (Except.map _) (Program.stmt_eq_ok hs)⟩
  exists_flow := by
    intro edge s d hs hkind
    obtain ⟨facts, hfacts⟩ := exists_flow hs hkind d
    exact ⟨_, congrArg (Except.map _) hfacts⟩
  exists_returnFlow := by
    intro c x s sx g r d callFact hs hsx
    have hflow : flow P (.ret c g x r) d = .ok (returnFlow s sx d) := by
      rw [flow, Program.stmt_eq_ok hs, Program.stmt_eq_ok hsx]
      rfl
    exact ⟨_, congrArg (Except.map _) hflow⟩
  flow_mentions := fst_mentions
  returnFlow_mentions := fst_mentions
  isSemilattice := Binary.isSemilattice
  extremes := fun h => nomatch h
  isUpperBound := fun f g => List.all_eq_true.mpr fun v _ =>
    BinaryEdge.isAbove_join f g v
  exists_rank := by
    refine ⟨BinaryEdge.rank, 2, fun f => ?_, fun {f g} _ h => ?_⟩
    · cases f <;> simp [BinaryEdge.rank]
    · have h : BinaryEdge.join f g ≠ f := h
      show (BinaryEdge.join f g).rank < f.rank
      cases f <;> cases g <;> simp_all [BinaryEdge.join, BinaryEdge.rank]
  exists_valueRank := by
    refine ⟨Binary.rank, 1, fun v => ?_, fun {v u} h => ?_⟩
    · cases v <;> simp [Binary.rank]
    · have h : Binary.join v u ≠ v := h
      show (Binary.join v u).rank < v.rank
      cases v <;> cases u <;> simp_all [Binary.join, Binary.rank]

end Uninitialized

end Tabulation
