/-
What the value phase leaves behind.

Values only rise, and a value that rises is pending until it has been
carried on. So when nothing is pending, every value has been carried to
the call sites of its procedure, if it stands at a start, and into the
callees that were met, if it stands at a call (`Carried`). The last
sweep gives every path edge's target what its source at the start has.
All the while what is pending has a value, so the phase never looks for
one in vain.

# From above and from below

`Computed` puts both halves together. From below: the values are high
enough, each rule of the phase is met. From above: whatever holds of
the seeds' values and passes along the rules and through joins holds of
every value (`IsBacking`). Where that is not the same before the last
sweep and after it, there is one predicate for each (`IsSettling`,
`IsSpreading`). Neither half asks for edge functions to be monotone,
because a value is carried on again when it has changed.

How high is told by any order in which joins rise (`IsJoinOrder`). The
order of a semilattice is one. Another is the order in which all values
are alike: it asks nothing of the lattice and says which facts have a
value at all.
-/
import Tabulation.Lattice.Laws
import Tabulation.Proofs.Solver.Outcome

namespace Tabulation

-- ============================================================== the order

namespace ValueLattice.IsSemilattice

variable {L : Type} [DecidableEq L] {V : ValueLattice L} {a b c : L}

theorem leq_refl (h : V.IsSemilattice) (a : L) : V.leq a a = true :=
  V.leq_iff.mpr (h.join_idem a)

/-- The order of a semilattice is read off its joins, so its laws
follow from those of the join. The checks of a lattice test them on
samples. -/
theorem leq_trans (h : V.IsSemilattice) (hab : V.leq a b = true)
    (hbc : V.leq b c = true) : V.leq a c = true := by
  rw [leq_iff] at hab hbc ⊢
  rw [← hbc, ← h.join_assoc, hab]

theorem leq_antisymm (h : V.IsSemilattice) (hab : V.leq a b = true)
    (hba : V.leq b a = true) : a = b := by
  rw [leq_iff] at hab hba
  rw [← hba, h.join_comm, hab]

theorem leq_join_left (h : V.IsSemilattice) (a b : L) :
    V.leq a (V.join a b) = true := by
  rw [leq_iff, ← h.join_assoc, h.join_idem]

theorem leq_join_right (h : V.IsSemilattice) (a b : L) :
    V.leq b (V.join a b) = true := by
  rw [h.join_comm a b]
  exact h.leq_join_left b a

/-- The join is the least value above both sides. -/
theorem join_leq (h : V.IsSemilattice) (hac : V.leq a c = true)
    (hbc : V.leq b c = true) : V.leq (V.join a b) c = true := by
  rw [leq_iff] at hac hbc ⊢
  rw [h.join_assoc, hbc, hac]

theorem bottom_leq (h : V.IsSemilattice) (a : L) : V.leq V.bottom a = true :=
  V.leq_iff.mpr (h.bottom_join a)

theorem leq_top (h : V.IsSemilattice) (a : L) : V.leq a V.top = true :=
  V.leq_iff.mpr ((h.join_comm a V.top).trans (h.top_join a))

end ValueLattice.IsSemilattice

namespace ValueLattice

variable {L : Type} [DecidableEq L] (V : ValueLattice L)

/-- The order of a lattice. -/
def Below (u v : L) : Prop := V.leq u v = true

/-- An order in which a join is above both sides. It need not be
antisymmetric, and the join need not be least. -/
structure IsJoinOrder (le : L → L → Prop) : Prop where
  refl : ∀ v, le v v
  trans : ∀ {u v w}, le u v → le v w → le u w
  left : ∀ u v, le u (V.join u v)
  right : ∀ u v, le v (V.join u v)

variable {V}

/-- The order of a semilattice is one. -/
theorem IsSemilattice.isJoinOrder (h : V.IsSemilattice) :
    V.IsJoinOrder V.Below :=
  ⟨h.leq_refl, h.leq_trans, h.leq_join_left, h.leq_join_right⟩

omit [DecidableEq L] in
/-- To ask only where there are values, take the order in which all are
alike. -/
theorem isJoinOrder_trivial : V.IsJoinOrder fun _ _ => True :=
  ⟨fun _ => trivial, fun _ _ => trivial, fun _ _ => trivial, fun _ _ => trivial⟩

end ValueLattice

/-- The order of a setup's values. -/
abbrev Setup.Below {D W L : Type} [DecidableEq L] (S : Setup D W L) :
    L → L → Prop :=
  S.problem.lattice.Below

namespace Values

variable {D W L : Type} [DecidableEq D]

section Vocabulary

variable (S : Setup D W L) (T : State D W L) (le : L → L → Prop)
variable (P : Node → D → L → Prop)

/-- A fact at a node has a value above the given one. It says at once
that there is a value and that it is high enough. -/
def Above (values : Grid Node D L) (n : Node) (d : D) (v : L) : Prop :=
  ∃ u, values.get? n d = some u ∧ le v u

/-- Every value is as `P` says. This is how values are bounded from
above. -/
def Backed (values : Grid Node D L) : Prop :=
  ∀ {n d v}, values.get? n d = some v → P n d v

/-- What is pending has a value, so carrying it on cannot fail to find
one. -/
def Stocked (s : ValueState D L) : Prop :=
  ∀ {n d}, (n, d) ∈ s.pending → ∃ v, s.values.get? n d = some v

/-- Values have risen, and those that have are pending. Every
computation of the phase but the loop itself is described by it. -/
structure Rises (s s' : ValueState D L) : Prop where
  above : ∀ {n d v}, s.values.get? n d = some v → Above le s'.values n d v
  changed : ∀ n d, s'.values.get? n d = s.values.get? n d ∨ (n, d) ∈ s'.pending
  pending : ∀ {x}, x ∈ s.pending → x ∈ s'.pending
  /-- What is pending now was so before, or has a value. -/
  stocked : ∀ {n d}, (n, d) ∈ s'.pending →
    (n, d) ∈ s.pending ∨ ∃ v, s'.values.get? n d = some v
  backed : Backed P s'.values

/-- A value has been carried on: to the calls of its procedure, if it
stands at a start, and into the callees that were met, if it stands at
a call. -/
structure Carried (values : Grid Node D L) (n : Node) (d : D) (v : L) :
    Prop where
  toCall : ∀ {p c e w}, (S.view T.graph).isStart? n = some true →
    (S.view T.graph).procOf? n = some p → c ∈ (S.view T.graph).callsWithin p →
    T.jump? ⟨d, c, e⟩ = some w →
      Above le values c e (S.problem.functions.eval w v)
  toCallee : ∀ {g st e w}, (S.view T.graph).isCall n = true → (n, g) ∈ T.known →
    (S.view T.graph).start? g = some st →
    (e, w) ∈ T.callFlows.getD n (g, d) [] →
    Above le values st e (S.problem.functions.eval w v)

/-- What is true of values until they have settled: it is true of the
seeds, and passes through joins and along the rules that lead from
starts to call sites and back. -/
structure IsSettling : Prop where
  seed : ∀ seed ∈ T.seeds, P seed.node seed.fact seed.value
  join : ∀ {n d v u}, P n d v → P n d u → P n d (S.problem.lattice.join v u)
  toCall : ∀ {n d v p c e w}, P n d v →
    (S.view T.graph).isStart? n = some true →
    (S.view T.graph).procOf? n = some p → c ∈ (S.view T.graph).callsWithin p →
    T.jump? ⟨d, c, e⟩ = some w → P c e (S.problem.functions.eval w v)
  toCallee : ∀ {n d v g st e w}, P n d v → (S.view T.graph).isCall n = true →
    (n, g) ∈ T.known → (S.view T.graph).start? g = some st →
    (e, w) ∈ T.callFlows.getD n (g, d) [] →
    P st e (S.problem.functions.eval w v)

/-- What is true of all values if `P` is true of those that settled.
The last sweep starts from settled values only, so `Q` has to pass
along one path edge, and not along its own results. -/
structure IsSpreading (Q : Node → D → L → Prop) : Prop where
  weaken : ∀ {n d v}, P n d v → Q n d v
  join : ∀ {n d v u}, Q n d v → Q n d u → Q n d (S.problem.lattice.join v u)
  along : ∀ {n d e v p st w}, P st d v → (S.view T.graph).procOf? n = some p →
    (S.view T.graph).start? p = some st → T.jump? ⟨d, n, e⟩ = some w →
    Q n e (S.problem.functions.eval w v)

/-- What is true of values whatever the phase does: it is true of the
seeds, and passes through joins and along the rules. -/
structure IsBacking : Prop extends IsSettling S T P where
  along : ∀ {n d e v p st w}, P st d v → (S.view T.graph).procOf? n = some p →
    (S.view T.graph).start? p = some st → T.jump? ⟨d, n, e⟩ = some w →
    P n e (S.problem.functions.eval w v)

/-- What the phase computes: first the values at starts and call sites,
then those everywhere. The settled values are not reported; they are
what the values reported were made from. -/
structure Computed (settled values : Grid Node D L) : Prop where
  seed : ∀ seed ∈ T.seeds, Above le settled seed.node seed.fact seed.value
  carried : ∀ {n d v}, settled.get? n d = some v → Carried S T le settled n d v
  along : ∀ {n d e v p st w}, settled.get? st d = some v →
    (S.view T.graph).procOf? n = some p → (S.view T.graph).start? p = some st →
    T.jump? ⟨d, n, e⟩ = some w →
    Above le values n e (S.problem.functions.eval w v)
  above : ∀ {n d v}, settled.get? n d = some v → Above le values n d v
  backed : Backed P values

/-- Where it does not matter what values are made of, anything backs
them. -/
theorem isBacking_trivial : IsBacking S T fun _ _ _ => True :=
  ⟨⟨fun _ _ => trivial, fun _ _ => trivial, fun _ _ _ _ _ => trivial,
    fun _ _ _ _ _ => trivial⟩, fun _ _ _ _ => trivial⟩

variable {S T P} in
/-- One predicate for both halves, where that will do. -/
theorem IsBacking.isSpreading (h : IsBacking S T P) : IsSpreading S T P P :=
  ⟨id, h.join, h.along⟩

end Vocabulary

variable {S : Setup D W L} {T : State D W L} {le : L → L → Prop}
variable {P Q : Node → D → L → Prop}
variable {I : Icfg} {s s' s'' : ValueState D L} {n : Node} {d : D} {v : L}

-- ============================================================ rising

/-- What is high enough stays so when values rise. -/
theorem Above.trans (hord : S.problem.lattice.IsJoinOrder le)
    {values values' : Grid Node D L} (h : Above le values n d v)
    (hraise : ∀ {n d v}, values.get? n d = some v → Above le values' n d v) :
    Above le values' n d v := by
  obtain ⟨u, hu, hle⟩ := h
  obtain ⟨u', hu', hle'⟩ := hraise hu
  exact ⟨u', hu', hord.trans hle hle'⟩

theorem Above.rise (hord : S.problem.lattice.IsJoinOrder le)
    (h : Above le s.values n d v) (hs : Rises le P s s') :
    Above le s'.values n d v :=
  h.trans hord hs.above

theorem Rises.refl (hord : S.problem.lattice.IsJoinOrder le)
    (hs : Backed P s.values) : Rises le P s s :=
  ⟨fun h => ⟨_, h, hord.refl _⟩, fun _ _ => Or.inl rfl, id, Or.inl, hs⟩

/-- One rise after another. A value that rose first is still pending,
since nothing is taken off the list in between. -/
theorem Rises.trans (hord : S.problem.lattice.IsJoinOrder le)
    (h : Rises le P s s') (h' : Rises le P s' s'') : Rises le P s s'' where
  above := fun hv => (h.above hv).rise hord h'
  changed := by
    intro n d
    rcases h'.changed n d with heq | hmem
    · rcases h.changed n d with heq' | hmem
      · exact Or.inl (heq.trans heq')
      · exact Or.inr (h'.pending hmem)
    · exact Or.inr hmem
  pending := fun hx => h'.pending (h.pending hx)
  stocked := by
    intro n d hx
    rcases h'.stocked hx with hx | hv
    · rcases h.stocked hx with hx | ⟨v, hv⟩
      · exact Or.inl hx
      · obtain ⟨u, hu, _⟩ := h'.above hv
        exact Or.inr ⟨u, hu⟩
    · exact Or.inr hv
  backed := h'.backed

/-- Nothing becomes pending without a value. -/
theorem Rises.keep (h : Rises le P s s') (hs : Stocked s) : Stocked s' := by
  intro n d hx
  rcases h.stocked hx with hx | hv
  · obtain ⟨v, hv⟩ := hs hx
    obtain ⟨u, hu, _⟩ := h.above hv
    exact ⟨u, hu⟩
  · exact hv

/-- A value that was carried on counts as carried on while the others
rise. When it rises itself, it is another value and has to be carried
on again. -/
theorem Carried.rise (hord : S.problem.lattice.IsJoinOrder le)
    (h : Carried S T le s.values n d v) (hs : Rises le P s s') :
    Carried S T le s'.values n d v where
  toCall := fun hstart hp hc hw => (h.toCall hstart hp hc hw).rise hord hs
  toCallee := fun hcall hg hst hw => (h.toCallee hcall hg hst hw).rise hord hs

-- ========================================================= one value

/-- Storing a value that is not below the one there. The four tables of
`Rises` are gone through one by one: the new cell shows in each of
them, and no other does. -/
private theorem rises_store (hord : S.problem.lattice.IsJoinOrder le)
    (hs : Backed P s.values) (hv : P n d v)
    (hle : ∀ u, s.values.get? n d = some u → le u v) :
    Ensures (Failure.Excused I) (store n d v : ValueM D W L Unit)
      (fun _ s' => Rises le P s s' ∧ Above le s'.values n d v) s := by
  refine Ensures.modify ⟨⟨?_, ?_, ?_, ?_, ?_⟩, v, Grid.get?_insert_self ..,
      hord.refl v⟩
  · intro n' d' u hu
    unfold Above
    rw [Grid.get?_insert]
    split
    next heq =>
      obtain ⟨rfl, rfl⟩ := heq
      exact ⟨v, rfl, hle u hu⟩
    next => exact ⟨u, hu, hord.refl u⟩
  · intro n' d'
    rw [Grid.get?_insert]
    split
    next heq =>
      obtain ⟨rfl, rfl⟩ := heq
      exact Or.inr (List.mem_append_right _ (List.mem_singleton.mpr rfl))
    next => exact Or.inl rfl
  · exact fun hx => List.mem_append_left _ hx
  · intro n' d' hx
    rcases List.mem_append.mp hx with hx | hx
    · exact Or.inl hx
    · cases List.mem_singleton.mp hx
      exact Or.inr ⟨v, Grid.get?_insert_self ..⟩
  · intro n' d' u hu
    rw [Grid.get?_insert] at hu
    split at hu
    next heq =>
      obtain ⟨rfl, rfl⟩ := heq
      cases hu
      exact hv
    next => exact hs hu

/-- Values reach their places one after the other. What a step
achieves, `G`, is kept by the later ones because values only rise. -/
theorem ensures_reachAll (hord : S.problem.lattice.IsJoinOrder le) {β : Type}
    {l : List β} {f : β → ValueM D W L PUnit} {G : β → Grid Node D L → Prop}
    (hs : Backed P s.values)
    (hkeep : ∀ {x s s'}, G x s.values → Rises le P s s' → G x s'.values)
    (hstep : ∀ x ∈ l, ∀ s, Backed P s.values →
      Ensures (Failure.Excused I) (f x)
        (fun _ s' => Rises le P s s' ∧ G x s'.values) s) :
    Ensures (Failure.Excused I) (l.forM f)
      (fun _ s' => Rises le P s s' ∧ ∀ x ∈ l, G x s'.values) s :=
  Ensures.forM (A := Rises le P) (G := fun x s => G x s.values)
    (fun h => .refl hord h.backed) (fun h h' => h.trans hord h') hkeep
    (.refl hord hs) fun x hx s' h => hstep x hx s' h.backed

section Carrying

variable [DecidableEq L]

/-- A value reaches its place: stored if there was none, and joined
otherwise. A join that is not above both sides ends the run, if the
settings ask to check. -/
theorem ensures_reach (hord : S.problem.lattice.IsJoinOrder le)
    (hjoin : ∀ {n d v u}, P n d v → P n d u →
      P n d (S.problem.lattice.join v u)) (hs : Backed P s.values)
    (hv : P n d v) :
    Ensures (Failure.Excused I) (reach S n d v)
      (fun _ s' => Rises le P s s' ∧ Above le s'.values n d v) s := by
  unfold reach
  refine Ensures.get_bind ?_
  cases hget : s.values.get? n d with
  | none =>
    refine rises_store hord hs hv fun u hu => ?_
    rw [hget] at hu
    cases hu
  | some previous =>
    dsimp only
    split
    · exact Ensures.throw trivial
    · split
      next heq =>
        -- the join is what was there, so that is above the new value already
        refine Ensures.pure ⟨.refl hord hs, previous, hget, ?_⟩
        have habove := hord.right previous v
        rw [heq] at habove
        exact habove
      next =>
        refine (rises_store hord hs (hjoin (hs hget) hv) fun u hu => ?_).mono
          fun _ s' h => ?_
        · obtain rfl := Option.some.inj (hget.symm.trans hu)
          exact hord.left previous v
        · obtain ⟨hrises, u, hu, hle⟩ := h
          exact ⟨hrises, u, hu, hord.trans (hord.right previous v) hle⟩

/-- Several values, each with its place. -/
theorem ensures_reachEach (hord : S.problem.lattice.IsJoinOrder le)
    (hjoin : ∀ {n d v u}, P n d v → P n d u →
      P n d (S.problem.lattice.join v u)) {β : Type} (l : List β)
    (node : β → Node) (fact : β → D) (value : β → L) (hs : Backed P s.values)
    (hl : ∀ x ∈ l, P (node x) (fact x) (value x)) :
    Ensures (Failure.Excused I)
      (l.forM fun x => reach S (node x) (fact x) (value x))
      (fun _ s' => Rises le P s s' ∧
      ∀ x ∈ l, Above le s'.values (node x) (fact x) (value x)) s :=
  ensures_reachAll (G := fun x values =>
    Above le values (node x) (fact x) (value x)) hord hs
    (fun h hr => h.rise hord hr) fun x hx _ hs' =>
    ensures_reach hord hjoin hs' (hl x hx)

-- ======================================================= carrying it on

/-- From the start of a procedure a value is carried along the path
edges that lead from its fact to a call of the procedure. -/
theorem ensures_carryToCalls (hord : S.problem.lattice.IsJoinOrder le)
    (hP : IsSettling S T P) (hs : Backed P s.values) (hv : P n d v)
    (hstart : (S.view T.graph).isStart? n = some true) :
    Ensures (Failure.Excused I) (carryToCalls S T (S.view T.graph) n d v)
      (fun _ s' => Rises le P s s' ∧ ∀ {p c e w}, (S.view T.graph).procOf? n =
        some p → c ∈ (S.view T.graph).callsWithin p →
        T.jump? ⟨d, c, e⟩ = some w →
        Above le s'.values c e (S.problem.functions.eval w v)) s := by
  unfold carryToCalls
  cases hp : (S.view T.graph).procOf? n with
  | none => exact Ensures.throw trivial
  | some p =>
    have hsite : ∀ c ∈ (S.view T.graph).callsWithin p, ∀ s, Backed P s.values →
        Ensures (Failure.Excused I)
          ((T.targetsOf d c).forM fun t =>
            reach S c t.1 (S.problem.functions.eval t.2 v))
          (fun _ s' => Rises le P s s' ∧ ∀ t ∈ T.targetsOf d c,
            Above le s'.values c t.1 (S.problem.functions.eval t.2 v)) s := by
      intro c hc s hs
      exact ensures_reachEach hord hP.join (T.targetsOf d c) (fun _ => c)
        Prod.fst (fun t => S.problem.functions.eval t.2 v) hs
        fun t ht => hP.toCall hv hstart hp hc (State.mem_targetsOf.mp ht)
    have hall := ensures_reachAll (S := S) (P := P) hord hs
      (G := fun c values => ∀ t ∈ T.targetsOf d c,
        Above le values c t.1 (S.problem.functions.eval t.2 v))
      (fun h hr t ht => (h t ht).rise hord hr) hsite
    refine hall.mono fun _ s' h => ⟨h.1, fun {p' c e w} hp' hc hw => ?_⟩
    obtain rfl := Option.some.inj hp'
    exact h.2 c hc (e, w) (State.mem_targetsOf.mpr hw)

/-- From a call a value is carried into the callees that were met,
along the call flows on record. A callee without a body has no start
and gets nothing. -/
theorem ensures_carryToCallees (hord : S.problem.lattice.IsJoinOrder le)
    (hP : IsSettling S T P) (hs : Backed P s.values) (hv : P n d v)
    (hcall : (S.view T.graph).isCall n = true) :
    Ensures (Failure.Excused I) (carryToCallees S T (S.view T.graph) n d v)
      (fun _ s' => Rises le P s s' ∧ ∀ {g st e w}, (n, g) ∈ T.known →
        (S.view T.graph).start? g = some st →
        (e, w) ∈ T.callFlows.getD n (g, d) [] →
        Above le s'.values st e (S.problem.functions.eval w v)) s := by
  unfold carryToCallees
  refine (ensures_reachAll (S := S) (P := P) hord hs
    (G := fun g values => ∀ st, (S.view T.graph).start? g = some st →
      ∀ t ∈ T.callFlows.getD n (g, d) [],
      Above le values st t.1 (S.problem.functions.eval t.2 v))
    (fun h hr st hst t ht => (h st hst t ht).rise hord hr)
      fun g hg s hs => ?_).mono
    fun _ s' h => ⟨h.1, fun {g st e w} hg hst hw => ?_⟩
  · cases hst : (S.view T.graph).start? g with
    | none => exact Ensures.pure ⟨.refl hord hs, nofun⟩
    | some start =>
      have hall := ensures_reachEach (I := I) hord hP.join
        (T.callFlows.getD n (g, d) []) (fun _ => start) Prod.fst
        (fun t => S.problem.functions.eval t.2 v) hs fun t ht =>
        hP.toCallee hv hcall (State.mem_knownCallees.mp hg) hst ht
      refine hall.mono fun _ s' h => ⟨h.1, fun st hst' => ?_⟩
      obtain rfl := Option.some.inj hst'
      exact h.2
  · exact h.2 g (State.mem_knownCallees.mpr hg) st hst (e, w) hw

/-- A pending value is carried on in both ways. A node may be a start
and a call at once. -/
theorem ensures_carry (hord : S.problem.lattice.IsJoinOrder le)
    (hP : IsSettling S T P) (hs : Backed P s.values)
    (hv : s.values.get? n d = some v) :
    Ensures (Failure.Excused I) (carry S T n d)
      (fun _ s' => Rises le P s s' ∧ Carried S T le s'.values n d v) s := by
  unfold carry
  refine Ensures.get_bind ?_
  rw [hv]
  dsimp only
  -- the second half is the same whether or not the node is a start
  have hcallees : ∀ s, Backed P s.values →
      Ensures (Failure.Excused I)
        (if (S.view T.graph).isCall n = true then carryToCallees S T
          (S.view T.graph) n d v
          else pure ())
        (fun _ s' => Rises le P s s' ∧ ∀ {g st e w}, (S.view T.graph).isCall n =
          true → (n, g) ∈ T.known → (S.view T.graph).start? g = some st →
          (e, w) ∈ T.callFlows.getD n (g, d) [] →
          Above le s'.values st e (S.problem.functions.eval w v)) s := by
    intro s hs'
    split
    next hcall =>
      exact (ensures_carryToCallees hord hP hs' (hs hv) hcall).mono
        fun _ _ h => ⟨h.1, fun _ hg => h.2 hg⟩
    next hcall => exact Ensures.pure ⟨.refl hord hs', fun h => absurd h hcall⟩
  cases hstart : (S.view T.graph).isStart? n with
  | none => exact Ensures.throw trivial
  | some isStart =>
    cases isStart with
    | false =>
      refine (hcallees s hs).mono fun _ s' h => ⟨h.1, fun hstart' => ?_, h.2⟩
      exact absurd (hstart.symm.trans hstart') nofun
    | true =>
      refine (ensures_carryToCalls hord hP hs (hs hv) hstart).bind
        fun _ s₁ h₁ => ?_
      refine (hcallees s₁ h₁.1.backed).mono fun _ s₂ h₂ =>
        ⟨h₁.1.trans hord h₂.1, ?_, h₂.2⟩
      exact fun _ hp hc hw => (h₁.2 hp hc hw).rise hord h₂.1

/-- When nothing is pending any more, every value has been carried on.
The loop's invariant is that this holds of every value that is not
pending. -/
theorem ensures_settle (hord : S.problem.lattice.IsJoinOrder le)
    (hP : IsSettling S T P) (fuel : Nat) (hs : Backed P s.values)
    (hstocked : Stocked s)
    (hcarried : ∀ {n d v}, s.values.get? n d = some v → (n, d) ∉ s.pending →
      Carried S T le s.values n d v) :
    Ensures (Failure.Excused I) (settle S T fuel)
      (fun _ s' => (∀ {n d v}, s.values.get? n d = some v →
        Above le s'.values n d v) ∧ Backed P s'.values ∧
        ∀ {n d v}, s'.values.get? n d = some v →
        Carried S T le s'.values n d v) s := by
  induction fuel generalizing s with
  | zero => exact Ensures.throw trivial
  | succ fuel ih =>
    unfold settle
    refine Ensures.get_bind ?_
    cases hpending : s.pending with
    | nil =>
      refine Ensures.pure ⟨fun h => ⟨_, h, hord.refl _⟩, hs,
          fun h => hcarried h ?_⟩
      rw [hpending]
      exact List.not_mem_nil
    | cons x rest =>
      obtain ⟨m, e⟩ := x
      refine Ensures.modify_bind (g := fun _ => { s with pending := rest }) ?_
      obtain ⟨u, hv⟩ :=
        hstocked (hpending ▸ List.mem_cons_self : (m, e) ∈ s.pending)
      have hrest : Stocked { s with pending := rest } :=
        fun hx => hstocked (hpending ▸ List.mem_cons_of_mem _ hx)
      refine (ensures_carry (s := { s with pending := rest }) hord
        hP hs hv).bind
        fun _ s₁ h₁ => ?_
      obtain ⟨hrises, hnew⟩ := h₁
      refine (ih hrises.backed (hrises.keep hrest) fun {n d v} hv' hnot =>
        ?_).mono fun _ s₂ h₂ => ?_
      · -- what is not pending has its old value, and either it was carried just
        -- now or before
        rcases hrises.changed n d with heq | hmem
        · rw [heq] at hv'
          by_cases hx : (n, d) = (m, e)
          · cases hx
            obtain rfl := Option.some.inj (hv.symm.trans hv')
            exact hnew
          · have hnot' : (n, d) ∉ s.pending := by
              rw [hpending]
              intro hmem
              rcases List.mem_cons.mp hmem with h | h
              · exact hx h
              · exact hnot (hrises.pending h)
            exact (hcarried hv' hnot').rise
              (s := { s with pending := rest }) hord hrises
        · exact absurd hmem hnot
      · obtain ⟨habove, hbacked, hall⟩ := h₂
        exact ⟨fun h => (hrises.above h).trans hord habove, hbacked, hall⟩

end Carrying

-- ======================================================= the last sweep

variable (S T) in
/-- The value that a path edge gives its target, if its source has one. -/
def Gives (values : Grid Node D L) (n : Node) (d : D) (w : W) (x : L) : Prop :=
  ∃ p st v, (S.view T.graph).procOf? n = some p ∧
    (S.view T.graph).start? p = some st ∧ values.get? st d = some v ∧
    x = S.problem.functions.eval w v

/-- Looking up the value that a path edge gives tells exactly what
`Gives` says. -/
private theorem gives_iff_of_valueOf? {values : Grid Node D L} {w : W}
    {v? : Option L} (h : valueOf? S T values n d w = .ok v?) (x : L) :
    Gives S T values n d w x ↔ v? = some x := by
  unfold valueOf? at h
  dsimp only at h
  unfold Gives
  cases hp : (S.view T.graph).procOf? n with
  | none =>
    rw [hp] at h
    cases h
  | some p =>
    rw [hp] at h
    cases h
    cases hst : (S.view T.graph).start? p with
    | none => simp [hst]
    | some st => cases hv : values.get? st d <;> simp [hst, hv, eq_comm]

/-- What the last sweep is to spread: for every path edge whose source
has a value at the start, the value that it gives its target. -/
theorem mem_valuesAtTargets {values : Grid Node D L}
    {cells : List (Node × (D × D) × W)} {found : List (Node × D × L)}
    (h : valuesAtTargets S T values cells = .ok found) (n : Node) (e : D)
    (x : L) :
    (n, e, x) ∈ found ↔ ∃ d w, (n, (d, e), w) ∈ cells ∧
    Gives S T values n d w x := by
  induction cells generalizing found with
  | nil =>
    cases h
    simp
  | cons cell cells ih =>
    obtain ⟨m, ⟨a, b⟩, f⟩ := cell
    -- the head contributes one value at most, and the tail the rest
    have hcons : (∃ d w, (n, (d, e), w) ∈ (m, (a, b), f) :: cells ∧
        Gives S T values n d w x) ↔ (n = m ∧ e = b ∧ Gives S T values m a f x) ∨
          ∃ d w, (n, (d, e), w) ∈ cells ∧ Gives S T values n d w x := by
      simp only [List.mem_cons, Prod.mk.injEq]
      constructor
      · intro h
        obtain ⟨d, w, hcell, hg⟩ := h
        rcases hcell with ⟨rfl, ⟨rfl, rfl⟩, rfl⟩ | hcell
        · exact Or.inl ⟨rfl, rfl, hg⟩
        · exact Or.inr ⟨d, w, hcell, hg⟩
      · intro h
        rcases h with ⟨rfl, rfl, hg⟩ | ⟨d, w, hcell, hg⟩
        · exact ⟨a, f, Or.inl ⟨rfl, ⟨rfl, rfl⟩, rfl⟩, hg⟩
        · exact ⟨d, w, Or.inr hcell, hg⟩
    unfold valuesAtTargets at h
    cases hvalue : valueOf? S T values m a f with
    | error failure =>
      rw [hvalue] at h
      cases h
    | ok v? =>
      cases hrest : valuesAtTargets S T values cells with
      | error failure =>
        rw [hvalue, hrest] at h
        cases h
      | ok others =>
        rw [hvalue, hrest] at h
        rw [hcons, gives_iff_of_valueOf? hvalue, ← ih hrest]
        cases v? with
        | none =>
          cases h
          simp
        | some y =>
          cases h
          simp [eq_comm]

/-- What is missing to tell the values of all targets is the owner of a
node. That is a fault of the graph, which is excused here. -/
private theorem excused_of_valuesAtTargets {values : Grid Node D L}
    {cells : List (Node × (D × D) × W)} {failure : Failure D W L}
    (h : valuesAtTargets S T values cells = .error failure) :
    failure.Excused I := by
  induction cells with
  | nil => cases h
  | cons cell cells ih =>
    obtain ⟨n, ⟨a, b⟩, w⟩ := cell
    unfold valuesAtTargets valueOf? at h
    dsimp only at h
    cases hp : (S.view T.graph).procOf? n with
    | none =>
      rw [hp] at h
      cases h
      exact trivial
    | some p =>
      rw [hp] at h
      cases hrest : valuesAtTargets S T values cells with
      | error failure' =>
        rw [hrest] at h
        cases h
        exact ih hrest
      | ok others =>
        rw [hrest] at h
        dsimp only [Bind.bind, Except.bind] at h
        split at h <;> cases h

variable [DecidableEq L]

/-- The last sweep. It reads the settled values before it writes
anything, so what it spreads does not depend on the order. -/
theorem ensures_spread (hord : S.problem.lattice.IsJoinOrder le)
    (hQ : IsSpreading S T P Q) (hs : Backed P s.values) :
    Ensures (Failure.Excused I) (spread S T)
      (fun _ s' => Rises le Q s s' ∧ ∀ {n d e v p st w}, s.values.get? st d =
        some v → (S.view T.graph).procOf? n = some p →
        (S.view T.graph).start? p = some st → T.jump? ⟨d, n, e⟩ = some w →
        Above le s'.values n e (S.problem.functions.eval w v)) s := by
  unfold spread
  refine Ensures.get_bind ?_
  cases hfound : valuesAtTargets S T s.values T.jumps.cells with
  | error failure => exact Ensures.throw (excused_of_valuesAtTargets hfound)
  | ok found =>
    have hmem := mem_valuesAtTargets hfound
    have hfrom : ∀ x ∈ found, Q x.1 x.2.1 x.2.2 := by
      intro x hx
      obtain ⟨d, w, hcell, p, st, v, hp, hst, hv, heq⟩ :=
        (hmem x.1 x.2.1 x.2.2).mp hx
      rw [heq]
      exact hQ.along (hs hv) hp hst (Grid.mem_cells.mp hcell)
    have hall := ensures_reachEach (I := I) hord hQ.join found Prod.fst
      (fun x => x.2.1) (fun x => x.2.2) (fun hv => hQ.weaken (hs hv)) hfrom
    refine hall.mono fun _ s' h =>
      ⟨h.1, fun {n d e v p st w} hv hp hst hw => ?_⟩
    have hx := (hmem n e (S.problem.functions.eval w v)).mpr
      ⟨d, w, Grid.mem_cells.mpr hw, p, st, v, hp, hst, hv, rfl⟩
    exact h.2 _ hx

/-- The whole phase: seeds, the loop and the last sweep. -/
theorem ensures_compute (hord : S.problem.lattice.IsJoinOrder le)
    (hP : IsSettling S T P) (hQ : IsSpreading S T P Q) (fuel : Nat) :
    Ensures (Failure.Excused I) (compute S T fuel)
      (fun _ s' => ∃ settled, Computed S T le Q settled s'.values) {} := by
  unfold compute
  have hempty : Backed P ({} : ValueState D L).values := fun h => nomatch h
  have hseeds := ensures_reachEach (I := I) hord hP.join T.seeds Seed.node
    Seed.fact Seed.value hempty hP.seed
  refine hseeds.bind fun _ s₁ h₁ => ?_
  -- before the loop nothing has a value that is not pending
  have hfirst : ∀ {n d v}, s₁.values.get? n d = some v → (n, d) ∉ s₁.pending →
      Carried S T le s₁.values n d v := by
    intro n d v hv hnot
    rcases h₁.1.changed n d with heq | hmem
    · rw [heq] at hv
      cases hv
    · exact absurd hmem hnot
  have hstocked : Stocked s₁ := h₁.1.keep fun h => absurd h List.not_mem_nil
  refine (ensures_settle hord hP fuel h₁.1.backed hstocked hfirst).bind
    fun _ s₂ h₂ => ?_
  obtain ⟨habove, hbacked, hcarried⟩ := h₂
  refine (ensures_spread hord hQ hbacked).mono fun _ s₃ h₃ => ?_
  exact ⟨s₂.values, fun seed hseed => (h₁.2 seed hseed).trans hord habove,
    hcarried, h₃.2, h₃.1.above, h₃.1.backed⟩

end Values

namespace Solver

variable {D W L : Type} [DecidableEq D] [DecidableEq L]
variable {S : Setup D W L} {fuel : Nat} {graph : FlowGraph} {r : Results D L}
variable {s₁ s s' : State D W L}
variable {values? : Option (Grid Node D L)} {le : L → L → Prop}
variable {P Q : Node → D → L → Prop}

/-- After a complete loop the value phase does what it is for, if
values are asked for. -/
theorem computed_of_valuePhase (hvalues : S.config.computeValues = true)
    (hord : S.problem.lattice.IsJoinOrder le) (hP : Values.IsSettling S s P)
    (hQ : Values.IsSpreading S s P Q)
    (hphase : valuePhase S fuel .complete s = .ok values? s') :
    ∃ settled values, values? = some values ∧
    Values.Computed S s le Q settled values := by
  have hgo : (Status.complete.isComplete && S.config.computeValues) = true := by
    rw [hvalues]
    rfl
  unfold valuePhase at hphase
  rw [if_pos hgo, get_bind_apply] at hphase
  cases hcompute : Values.compute S s fuel {} with
  | error failure found =>
    rw [hcompute] at hphase
    cases hphase
  | ok _ found =>
    rw [hcompute] at hphase
    cases hphase
    have hensures := Values.ensures_compute (I := S.view s.graph)
      hord hP hQ fuel
    obtain ⟨settled, hcomputed⟩ := hensures.of_ok hcompute
    exact ⟨settled, found.values, rfl, hcomputed⟩

/-- Otherwise there are no values: a loop that was stopped has no use
for them. -/
theorem eq_none_of_valuePhase {status : Status}
    (hoff : status = .complete → S.config.computeValues = false)
    (hphase : valuePhase S fuel status s = .ok values? s') :
    values? = none := by
  have hstop : (status.isComplete && S.config.computeValues) = false := by
    cases status with
    | complete =>
      rw [hoff rfl]
      rfl
    | incomplete reason => rfl
  unfold valuePhase at hphase
  rw [hstop, if_neg Bool.false_ne_true] at hphase
  cases hphase
  rfl

variable [DecidableEq W]

/-- A complete run that computes values reports those of the value
phase. -/
theorem Completed.computed_of (h : Completed S fuel graph r s₁ s values?)
    (hvalues : S.config.computeValues = true)
    (hord : S.problem.lattice.IsJoinOrder le) (hP : Values.IsSettling S s P)
    (hQ : Values.IsSpreading S s P Q) :
    ∃ settled values, values? = some values ∧
    Values.Computed S s le Q settled values := by
  obtain ⟨_, hphase⟩ := h.valued
  exact computed_of_valuePhase hvalues hord hP hQ hphase

/-- The same with one predicate for both halves. -/
theorem Completed.computed (h : Completed S fuel graph r s₁ s values?)
    (hvalues : S.config.computeValues = true)
    (hord : S.problem.lattice.IsJoinOrder le) (hP : Values.IsBacking S s P) :
    ∃ settled values, values? = some values ∧
    Values.Computed S s le P settled values :=
  h.computed_of hvalues hord hP.toIsSettling hP.isSpreading

end Solver

end Tabulation
