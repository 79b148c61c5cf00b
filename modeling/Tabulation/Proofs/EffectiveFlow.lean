/-
The facts that the solver takes a flow function to yield.

An answer may repeat a fact. The solver joins the edge functions of
repetitions in the order in which they were answered (`mem_merged`),
replaces the edge function from zero to zero by the identity, and may
add zero. What comes out names every fact once; and a fact that was
answered with one edge function only keeps that one, provided joining
it to itself changes nothing.
-/
import Tabulation.Supergraph

namespace Tabulation

variable {D W L : Type} [DecidableEq D]

/-- The edge functions that an answer gives a fact, in order. -/
def answeredFor (e : D) (answer : List (D × W)) : List W :=
  (answer.filter fun t => decide (t.1 = e)).map Prod.snd

theorem mem_answeredFor {e : D} {u : W} {answer : List (D × W)} :
    u ∈ answeredFor e answer ↔ (e, u) ∈ answer := by
  unfold answeredFor
  simp

namespace Setup

variable (S : Setup D W L)

-- ======================================================== merging answers

/-- Merging walks down the list and joins at the first target with the
same fact. -/
theorem mergeTarget_cons (d e : D) (v w : W) (rest : List (D × W)) :
    S.mergeTarget ((e, v) :: rest) (d, w) =
      if e = d then (e, S.problem.functions.join v w) :: rest
      else (e, v) :: S.mergeTarget rest (d, w) := by
  rw [mergeTarget]

/-- Merging a target keeps the facts, or appends the new one. So
merging answers one by one lists their facts as adding them to a
listing does. -/
private theorem map_fst_mergeTarget (ts : List (D × W)) (t : D × W) :
    (S.mergeTarget ts t).map Prod.fst = Listing.add (ts.map Prod.fst) t.1 := by
  obtain ⟨d, w⟩ := t
  unfold Listing.add
  induction ts with
  | nil => rfl
  | cons t' rest ih =>
    obtain ⟨e, v⟩ := t'
    rw [mergeTarget_cons]
    by_cases he : e = d
    · simp [he]
    · rw [if_neg he, List.map_cons, ih]
      by_cases hd : d ∈ rest.map Prod.fst
      · have hd' : d ∈ (((e, v) :: rest : List (D × W)).map Prod.fst) :=
          List.mem_cons_of_mem _ hd
        rw [if_pos hd, if_pos hd', List.map_cons]
      · have hd' : d ∉ (((e, v) :: rest : List (D × W)).map Prod.fst) := by
          intro hmem
          rcases List.mem_cons.mp hmem with h | h
          · exact he h.symm
          · exact hd h
        rw [if_neg hd, if_neg hd', List.map_cons, List.cons_append]

private theorem nodup_mergeTarget {ts : List (D × W)}
    (h : (ts.map Prod.fst).Nodup) (t : D × W) :
    ((S.mergeTarget ts t).map Prod.fst).Nodup := by
  rw [map_fst_mergeTarget]
  exact Listing.nodup_add h t.1

/-- Merging answers into targets without repetitions leaves none. -/
private theorem nodup_foldl_mergeTarget (answers : List (D × W))
    {ts : List (D × W)} (h : (ts.map Prod.fst).Nodup) :
    ((answers.foldl S.mergeTarget ts).map Prod.fst).Nodup := by
  induction answers generalizing ts with
  | nil => exact h
  | cons t answers ih => exact ih (S.nodup_mergeTarget h t)

/-- Join an edge function to what has been merged so far. The first one
is taken as it is. -/
def mergeOnto (merged : Option W) (w : W) : Option W :=
  some (merged.elim w fun v => S.problem.functions.join v w)

/-- What merging one target does to the edge function found for a fact. -/
private theorem find_mergeTarget (ts : List (D × W)) (a e : D) (b : W) :
    Table.find e (S.mergeTarget ts (a, b)) =
      if a = e then S.mergeOnto (Table.find e ts) b else Table.find e ts := by
  induction ts with
  | nil => rfl
  | cons t rest ih =>
    obtain ⟨k, v⟩ := t
    rw [mergeTarget_cons]
    by_cases hk : k = a
    · subst hk
      by_cases he : k = e
      · simp [Table.find, mergeOnto, he]
      · simp [Table.find, he]
    · by_cases he : k = e
      · subst he
        simp [Table.find, hk, Ne.symm hk]
      · simp only [Table.find, if_neg hk, if_neg he, ih]

/-- What merging all answers does to it: only those for the fact
matter, and they are joined in order. -/
private theorem find_foldl_mergeTarget (answers ts : List (D × W)) (e : D) :
    Table.find e (answers.foldl S.mergeTarget ts) =
      (answeredFor e answers).foldl S.mergeOnto (Table.find e ts) := by
  induction answers generalizing ts with
  | nil => rfl
  | cons t answers ih =>
    obtain ⟨a, b⟩ := t
    rw [List.foldl_cons, ih, find_mergeTarget]
    by_cases ha : a = e
    · simp [answeredFor, ha]
    · simp [answeredFor, ha]

omit [DecidableEq D] in
private theorem foldl_mergeOnto (v : W) (vs : List W) :
    vs.foldl S.mergeOnto (some v) =
      some (vs.foldl S.problem.functions.join v) := by
  induction vs generalizing v with
  | nil => rfl
  | cons w vs ih => exact ih (S.problem.functions.join v w)

/-- A fact is merged to the join of the edge functions that were
answered for it, from the left. -/
theorem mem_merged {answers : List (D × W)} {e : D} {w : W} :
    (e, w) ∈ answers.foldl S.mergeTarget [] ↔
      ∃ v vs, answeredFor e answers = v :: vs ∧
      vs.foldl S.problem.functions.join v = w := by
  have hnodup := S.nodup_foldl_mergeTarget answers
    (show (([] : List (D × W)).map Prod.fst).Nodup from List.nodup_nil)
  rw [Table.mem_iff_find hnodup, find_foldl_mergeTarget]
  show (answeredFor e answers).foldl S.mergeOnto none = some w ↔ _
  cases answeredFor e answers with
  | nil => simp
  | cons v vs =>
    show vs.foldl S.mergeOnto (some v) = some w ↔ _
    rw [foldl_mergeOnto, Option.some.injEq]
    constructor
    · exact fun h => ⟨v, vs, rfl, h⟩
    · rintro ⟨_, _, heq, h⟩
      cases heq
      exact h

-- ===================================================== what a flow yields

/-- A flow yields every fact once, zero included if it is added. -/
private theorem nodup_effective (source : D) (answer : List (D × W)) :
    ((S.effective source answer).map Prod.fst).Nodup := by
  have hmerged := S.nodup_foldl_mergeTarget (answer.map (S.targetWeight source))
    (show (([] : List (D × W)).map Prod.fst).Nodup from List.nodup_nil)
  unfold effective
  dsimp only
  split
  next h =>
    have hadded := Listing.nodup_add hmerged S.problem.zero
    rw [Listing.add, if_neg h.2.2] at hadded
    rw [List.map_append]
    exact hadded
  next => exact hmerged

private theorem nodup_targets (source : D)
    (answer : Except Fault (List (D × W))) :
    ((S.targets source answer).map Prod.fst).Nodup := by
  cases answer with
  | ok answer => exact S.nodup_effective source answer
  | error fault => exact List.nodup_nil

/-- A fact is yielded with one edge function. -/
theorem targets_unique {source d : D} {answer : Except Fault (List (D × W))}
    {v w : W} (hv : (d, v) ∈ S.targets source answer)
    (hw : (d, w) ∈ S.targets source answer) : v = w := by
  have hv' := (Table.mem_iff_find (S.nodup_targets source answer)).mp hv
  have hw' := (Table.mem_iff_find (S.nodup_targets source answer)).mp hw
  exact Option.some.inj (hv'.symm.trans hw')

private theorem mem_fst_foldl_mergeTarget (answers : List (D × W))
    {ts : List (D × W)} {d : D} :
    d ∈ (answers.foldl S.mergeTarget ts).map Prod.fst ↔
      d ∈ ts.map Prod.fst ∨ d ∈ answers.map Prod.fst := by
  induction answers generalizing ts with
  | nil => simp
  | cons t answers ih =>
    rw [List.foldl_cons, ih, map_fst_mergeTarget, Listing.mem_add,
      List.map_cons, List.mem_cons, or_assoc]

private theorem map_fst_targetWeight (source : D) (answer : List (D × W)) :
    (answer.map (S.targetWeight source)).map Prod.fst =
      answer.map Prod.fst := by
  rw [List.map_map]
  rfl

/-- A flow yields the facts that were answered, and zero besides at
most. Zero is added for zero only, and only if the settings say so. -/
theorem mem_fst_effective {source d : D} {answer : List (D × W)} :
    d ∈ (S.effective source answer).map Prod.fst ↔ d ∈ answer.map Prod.fst ∨
      (S.config.autoAddZero = true ∧ source = S.problem.zero ∧
      d = S.problem.zero) := by
  have hmerged :
      d ∈ ((answer.map (S.targetWeight source)).foldl S.mergeTarget []).map
      Prod.fst ↔ d ∈ answer.map Prod.fst := by
    rw [mem_fst_foldl_mergeTarget, map_fst_targetWeight]
    simp
  unfold effective
  dsimp only
  split
  next h =>
    rw [List.map_append, List.mem_append, hmerged]
    simp [h.1, h.2.1]
  next h =>
    rw [hmerged]
    refine ⟨Or.inl, fun hd => ?_⟩
    rcases hd with hd | ⟨hadd, hsource, rfl⟩
    · exact hd
    · -- zero was not added because it was answered
      by_cases hzero : S.problem.zero ∈
          ((answer.map (S.targetWeight source)).foldl S.mergeTarget []).map
            Prod.fst
      · exact hmerged.mp hzero
      · exact absurd ⟨hadd, hsource, hzero⟩ h

-- ================================================ answers that agree

section Agreement

variable {S} {e : D} {w : W}

omit [DecidableEq D] in
/-- Joining a function to itself any number of times changes nothing. -/
private theorem foldl_join_of_agree (hidem : S.problem.functions.join w w = w)
    {vs : List W} (h : ∀ v ∈ vs, v = w) :
    vs.foldl S.problem.functions.join w = w := by
  induction vs with
  | nil => rfl
  | cons v vs ih =>
    rw [List.foldl_cons, h v List.mem_cons_self, hidem]
    exact ih fun u hu => h u (List.mem_cons_of_mem _ hu)

/-- Edge functions that agree are merged to the one that they are. -/
private theorem mem_merged_of_agree (hidem : S.problem.functions.join w w = w)
    {answers : List (D × W)} (hanswers : ∀ v, (e, v) ∈ answers → v = w)
    {v : W} :
    (e, v) ∈ answers.foldl S.mergeTarget [] ↔ v = w ∧ (e, w) ∈ answers := by
  have hagree : ∀ {u us}, answeredFor e answers = u :: us →
      u = w ∧ us.foldl S.problem.functions.join w = w := by
    intro u us h
    have hall : ∀ v ∈ u :: us, v = w := by
      rw [← h]
      exact fun v hv => hanswers v (mem_answeredFor.mp hv)
    obtain ⟨hu, hus⟩ := List.forall_mem_cons.mp hall
    exact ⟨hu, foldl_join_of_agree hidem hus⟩
  rw [mem_merged, ← mem_answeredFor]
  constructor
  · rintro ⟨u, us, h, rfl⟩
    obtain ⟨rfl, hjoined⟩ := hagree h
    rw [h]
    exact ⟨hjoined, List.mem_cons_self⟩
  · rintro ⟨rfl, hmem⟩
    obtain ⟨u, us, h⟩ := List.exists_cons_of_ne_nil (List.ne_nil_of_mem hmem)
    obtain ⟨rfl, hjoined⟩ := hagree h
    exact ⟨u, us, h, hjoined⟩

/-- A fact that was answered with one edge function only is yielded
with it. From zero to zero that has to be the identity, since nothing
else is let through. -/
theorem mem_effective (hidem : S.problem.functions.join w w = w) {source : D}
    {answer : List (D × W)} (hanswer : ∀ v, (e, v) ∈ answer → v = w)
    (h : (e, w) ∈ answer)
    (hzero : source = S.problem.zero → e = S.problem.zero → w = S.identity) :
    (e, w) ∈ S.effective source answer := by
  have hsame : S.targetWeight source (e, w) = (e, w) := by
    unfold targetWeight
    dsimp only
    split
    next hz => rw [hzero hz.1 hz.2]
    next => rfl
  have hmerged : (e, w) ∈ (answer.map (S.targetWeight source)).foldl
      S.mergeTarget [] := by
    refine (mem_merged_of_agree hidem fun v hv => ?_).mpr
      ⟨rfl, List.mem_map.mpr ⟨(e, w), h, hsame⟩⟩
    obtain ⟨⟨a, b⟩, hmem, heq⟩ := List.mem_map.mp hv
    obtain rfl : a = e := congrArg Prod.fst heq
    obtain rfl := hanswer b hmem
    exact (congrArg Prod.snd (hsame.symm.trans heq)).symm
  unfold effective
  dsimp only
  split
  · exact List.mem_append_left _ hmerged
  · exact hmerged

/-- From zero to zero there is nothing but the identity, whatever was
answered. -/
theorem identity_of_zero_mem_effective
    (hidem : S.problem.functions.join S.identity S.identity = S.identity)
    {answer : List (D × W)} {v : W}
    (h : (S.problem.zero, v) ∈ S.effective S.problem.zero answer) :
    v = S.identity := by
  have hmerged : ∀ v, (S.problem.zero, v) ∈
      (answer.map (S.targetWeight S.problem.zero)).foldl S.mergeTarget [] →
      v = S.identity := by
    intro v hv
    refine ((mem_merged_of_agree hidem fun u hu => ?_).mp hv).1
    obtain ⟨⟨a, b⟩, _, heq⟩ := List.mem_map.mp hu
    obtain ⟨rfl, hb⟩ := Prod.mk.injEq .. ▸ heq
    rw [← hb, if_pos ⟨rfl, rfl⟩]
  unfold effective at h
  dsimp only at h
  split at h
  · rcases List.mem_append.mp h with h | h
    · exact hmerged v h
    · exact congrArg Prod.snd (List.mem_singleton.mp h)
  · exact hmerged v h

end Agreement

-- ========================================= where edge functions come from

section Origin

variable {S} {Q : W → Prop}

/-- The general form of the last lemmas: a property that passes through
joins passes through merging. -/
private theorem weight_of_mem_mergeTarget
    (hjoin : ∀ {v w}, Q v → Q w → Q (S.problem.functions.join v w))
    {ts : List (D × W)} {t : D × W} (hts : ∀ u ∈ ts, Q u.2) (ht : Q t.2) :
    ∀ u ∈ S.mergeTarget ts t, Q u.2 := by
  obtain ⟨a, b⟩ := t
  induction ts with
  | nil =>
    intro u hu
    rw [List.mem_singleton.mp hu]
    exact ht
  | cons t' rest ih =>
    obtain ⟨a', b'⟩ := t'
    obtain ⟨hhead, hrest⟩ := List.forall_mem_cons.mp hts
    rw [mergeTarget_cons]
    split
    · exact List.forall_mem_cons.mpr ⟨hjoin hhead ht, hrest⟩
    · exact List.forall_mem_cons.mpr ⟨hhead, ih hrest⟩

private theorem weight_of_mem_foldl_mergeTarget
    (hjoin : ∀ {v w}, Q v → Q w → Q (S.problem.functions.join v w))
    {answers ts : List (D × W)} (hanswers : ∀ t ∈ answers, Q t.2)
    (hts : ∀ t ∈ ts, Q t.2) : ∀ t ∈ answers.foldl S.mergeTarget ts, Q t.2 := by
  induction answers generalizing ts with
  | nil => exact hts
  | cons t answers ih =>
    obtain ⟨ht, hrest⟩ := List.forall_mem_cons.mp hanswers
    exact ih hrest (weight_of_mem_mergeTarget hjoin hts ht)

/-- What holds of the edge functions answered, of the identity and of
joins holds of the edge functions yielded. -/
theorem weight_of_mem_effective (hidentity : Q S.identity)
    (hjoin : ∀ {v w}, Q v → Q w → Q (S.problem.functions.join v w)) {source : D}
    {answer : List (D × W)} (h : ∀ t ∈ answer, Q t.2) :
    ∀ t ∈ S.effective source answer, Q t.2 := by
  have hanswer : ∀ t ∈ answer.map (S.targetWeight source), Q t.2 := by
    intro t ht
    obtain ⟨⟨a, b⟩, hmem, rfl⟩ := List.mem_map.mp ht
    unfold targetWeight
    dsimp only
    split
    · exact hidentity
    · exact h _ hmem
  have hmerged := weight_of_mem_foldl_mergeTarget hjoin hanswer
    fun t (ht : t ∈ []) => absurd ht List.not_mem_nil
  unfold effective
  dsimp only
  split
  · intro t ht
    rcases List.mem_append.mp ht with ht | ht
    · exact hmerged t ht
    · rw [List.mem_singleton.mp ht]
      exact hidentity
  · exact hmerged

theorem weight_of_mem_targets (hidentity : Q S.identity)
    (hjoin : ∀ {v w}, Q v → Q w → Q (S.problem.functions.join v w)) {source : D}
    {answer : Except Fault (List (D × W))}
    (h : ∀ l, answer = .ok l → ∀ t ∈ l, Q t.2) :
    ∀ t ∈ S.targets source answer, Q t.2 := by
  cases answer with
  | ok l => exact weight_of_mem_effective hidentity hjoin (h l rfl)
  | error fault => exact fun t ht => absurd ht List.not_mem_nil

end Origin

-- ============================================== where steps come from

/-- An answer that a fact may be given: it passes a node that leaves
facts alone, or a flow function was asked. -/
def Answers (d : D) (answer : List (D × W)) : Prop :=
  answer = [(d, S.identity)] ∨ (∃ edge, S.problem.flow edge d = .ok answer) ∨
    ∃ edge callFact, S.problem.returnFlow edge d callFact = .ok answer

section Questions

variable {S} {d : D} {t : D × W}

theorem exists_answer_of_flow {edge : FlowEdge}
    (h : t ∈ S.targets d (S.problem.flow edge d)) :
    ∃ answer, S.Answers d answer ∧ t ∈ S.effective d answer := by
  cases hasked : S.problem.flow edge d with
  | error fault =>
    rw [hasked] at h
    exact absurd h List.not_mem_nil
  | ok answer =>
    rw [hasked] at h
    exact ⟨answer, Or.inr (Or.inl ⟨edge, hasked⟩), h⟩

theorem exists_answer_of_returnTargets {c x r : Node} {g : Proc} {callFact : D}
    (h : t ∈ S.returnTargets c g x r d callFact) :
    ∃ answer, S.Answers d answer ∧ t ∈ S.effective d answer := by
  unfold returnTargets at h
  cases hasked : S.problem.returnFlow (.ret c g x r) d callFact with
  | error fault =>
    rw [hasked] at h
    exact absurd h List.not_mem_nil
  | ok answer =>
    rw [hasked] at h
    exact ⟨answer, Or.inr (Or.inr ⟨_, callFact, hasked⟩), h⟩

/-- At an identity node the answer is the fact itself, without asking. -/
theorem exists_answer_of_normalTargets {n m : Node}
    (h : t ∈ S.normalTargets n m d) :
    ∃ answer, S.Answers d answer ∧ t ∈ S.effective d answer := by
  unfold normalTargets at h
  split at h
  · exact ⟨_, Or.inl rfl, h⟩
  · exact exists_answer_of_flow h
  · exact absurd h List.not_mem_nil

/-- Every step is one of those that some answer is taken to yield. So a
property of all answers is one of all steps, whatever the graph is
like. -/
theorem exists_answer_of_step {I : Icfg} {a b : Place D} {w : W}
    (h : Supergraph.Step S I a w b) :
    ∃ answer, S.Answers a.fact answer ∧
    (b.fact, w) ∈ S.effective a.fact answer := by
  cases h with
  | normal _ _ _ hw => exact exists_answer_of_normalTargets hw
  | call _ _ _ hw => exact exists_answer_of_flow hw
  | ret _ _ _ _ hw => exact exists_answer_of_returnTargets hw
  | pass _ _ hw => exact exists_answer_of_flow hw

end Questions

end Setup

end Tabulation
