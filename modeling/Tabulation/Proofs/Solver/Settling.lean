/-
The value phase, and with it a whole run, comes to an end.

Values stand where path edges end (`Placed`), since call flows on
record lead to path edges on record. These places are finitely many,
and in a lattice without endless chains each has room for so many
rises, so carrying values on comes to an end like the loop before it.
Nothing can go wrong meanwhile: the tables name owned nodes only, a
value that is pending has been stored, and the joins of a semilattice
pass every check. So the phase always returns, and so does the report
(`halts_run`).
-/
import Mathlib.Data.List.ProdSigma
import Tabulation.Proofs.Solver.Halting
import Tabulation.Proofs.Solver.Values

namespace Tabulation

variable {D W L : Type} [DecidableEq D]

/-- A rank of values that a join makes smaller if it is new. A lattice
without endless chains has one. -/
structure ValueLattice.IsRank (V : ValueLattice L) (rank : L → Nat)
    (bound : Nat) : Prop where
  bounded : ∀ v, rank v ≤ bound
  descends : ∀ {v u}, V.join v u ≠ v → rank (V.join v u) < rank v

namespace Values

open Solver

/-- The places that path edges end in. There are finitely many, however
long the phase goes on. -/
def places (T : State D W L) : List (Node × D) :=
  T.jumps.cells.map fun x => (x.1, x.2.1.2)

section Vocabulary

variable (T : State D W L)

/-- Values stand where path edges end, and what is pending has a value. -/
structure Placed (s : ValueState D L) : Prop where
  place : ∀ {n d v}, s.values.get? n d = some v →
    ∃ source, Recorded T ⟨source, n, d⟩
  pending : Stocked s

variable (rank : L → Nat) (bound : Nat)

/-- The pending values, and the room for rises. It is the measure that
carrying a value on makes smaller. -/
def load (s : ValueState D L) : Nat :=
  s.pending.length + s.values.room rank bound (places T)

/-- Values have been stored, each at the cost of room, so the load has
not grown. -/
def Fills (s s' : ValueState D L) : Prop :=
  Placed T s' ∧ load T rank bound s' ≤ load T rank bound s

end Vocabulary

variable {S : Setup D W L} {T : State D W L} {rank : L → Nat} {bound : Nat}
variable {s s' : ValueState D L} {n : Node} {d : D} {v : L}

private theorem mem_places {e : PathEdge D} (h : Recorded T e) :
    (e.node, e.target) ∈ places T := by
  obtain ⟨w, hw⟩ := h
  exact List.mem_map.mpr ⟨(e.node, (e.source, e.target), w),
      Grid.mem_cells.mpr hw, rfl⟩

theorem Fills.trans {s'' : ValueState D L} (h : Fills T rank bound s s')
    (h' : Fills T rank bound s' s'') : Fills T rank bound s s'' :=
  ⟨h'.1, Nat.le_trans h'.2 h.2⟩

-- ========================================================== storing values

/-- A stored value is one more that is pending, and takes at least as
much room. -/
theorem fills_store (hs : Placed T s) {e : PathEdge D} (he : Recorded T e)
    (hless : rank v < (s.values.get? e.node e.target).elim (bound + 1) rank) :
    Ensures (fun _ => False) (store e.node e.target v : ValueM D W L Unit)
      (fun _ s' => Fills T rank bound s s') s := by
  refine Ensures.modify ⟨⟨fun {n' d' u} hu => ?_, fun {n' d'} hx => ?_⟩, ?_⟩
  · rw [Grid.get?_insert] at hu
    split at hu
    next heq =>
      obtain ⟨rfl, rfl⟩ := heq
      exact ⟨e.source, he⟩
    next => exact hs.place hu
  · dsimp only
    rw [Grid.get?_insert]
    split
    next => exact ⟨v, rfl⟩
    next hne =>
      rcases List.mem_append.mp hx with hx | hx
      · exact hs.pending hx
      · obtain ⟨rfl, rfl⟩ := Prod.mk.injEq .. ▸ List.mem_singleton.mp hx
        exact absurd ⟨rfl, rfl⟩ hne
  · have hroom := Grid.room_insert_lt (mem_places he) hless
    unfold load
    dsimp only
    rw [List.length_append, List.length_singleton]
    omega

/-- Values are stored one after the other. -/
theorem fills_forM {β : Type} {l : List β} {f : β → ValueM D W L PUnit}
    (hs : Placed T s) (hstep : ∀ x ∈ l, ∀ s, Placed T s →
      Ensures (fun _ => False) (f x) (fun _ s' => Fills T rank bound s s') s) :
    Ensures (fun _ => False) (l.forM f)
      (fun _ s' => Fills T rank bound s s') s :=
  (Ensures.forM (A := Fills T rank bound) (G := fun _ _ => True)
    (fun h => ⟨h.1, Nat.le_refl _⟩) (fun h h' => h.trans h')
      (fun _ _ => trivial)
    ⟨hs, Nat.le_refl _⟩ fun x hx s' h => (hstep x hx s' h.1).mono fun _ _ h =>
      ⟨h, trivial⟩).mono
    fun _ _ h => h.1

variable [DecidableEq L]

/-- A value that reaches its place is stored if it is new there. The
joins of a semilattice are above both sides, so the check passes. -/
theorem fills_reach (hlat : S.problem.lattice.IsSemilattice)
    (hrank : S.problem.lattice.IsRank rank bound) (hs : Placed T s)
    {e : PathEdge D} (he : Recorded T e) :
    Ensures (fun _ => False) (reach S e.node e.target v)
      (fun _ s' => Fills T rank bound s s') s := by
  unfold reach
  refine Ensures.get_bind ?_
  cases hget : s.values.get? e.node e.target with
  | none =>
    refine fills_store hs he ?_
    rw [hget]
    exact Nat.lt_succ_of_le (hrank.bounded v)
  | some previous =>
    dsimp only
    rw [hlat.leq_join_left, hlat.leq_join_right, Bool.and_self, Bool.not_true,
      Bool.and_false, if_neg Bool.false_ne_true]
    split
    next => exact Ensures.pure ⟨hs, Nat.le_refl _⟩
    next hne =>
      refine fills_store hs he ?_
      rw [hget]
      exact hrank.descends hne

-- ========================================================= carrying values

/-- Where nothing is pending, the loop is over. -/
private theorem settle_nil (h : s.pending = []) (fuel : Nat) :
    settle S T (fuel + 1) s = (pure () : ValueM D W L Unit) s := by
  unfold settle
  rw [get_bind_apply, h]

/-- Otherwise the first pending value is taken off the list and carried
on. -/
private theorem settle_cons {rest : List (Node × D)}
    (h : s.pending = (n, d) :: rest) (fuel : Nat) :
    settle S T (fuel + 1) s =
      (carry S T n d >>= fun _ => settle S T fuel)
        { s with pending := rest } := by
  conv_lhs => unfold settle
  rw [get_bind_apply, h]
  rfl

omit [DecidableEq L] in
/-- At owned nodes, the values of all targets can be told. -/
private theorem exists_valuesAtTargets {cells : List (Node × (D × D) × W)}
    (hcells : ∀ x ∈ cells, Owned (S.view T.graph) x.1)
    (values : Grid Node D L) :
    ∃ found, valuesAtTargets S T values cells = .ok found := by
  induction cells with
  | nil => exact ⟨[], rfl⟩
  | cons cell cells ih =>
    obtain ⟨n, ⟨a, b⟩, w⟩ := cell
    obtain ⟨others, hothers⟩ :=
      ih fun x hx => hcells x (List.mem_cons_of_mem _ hx)
    obtain ⟨p, hp⟩ := hcells _ List.mem_cons_self
    have hvalue : ∃ v?, valueOf? S T values n a w = .ok v? := by
      unfold valueOf?
      dsimp only
      rw [hp]
      exact ⟨_, rfl⟩
    obtain ⟨v?, hv⟩ := hvalue
    unfold valuesAtTargets
    rw [hv, hothers]
    cases v? with
    | none => exact ⟨others, rfl⟩
    | some v => exact ⟨_, rfl⟩

section Carrying

variable (hlat : S.problem.lattice.IsSemilattice)
variable (hrank : S.problem.lattice.IsRank rank bound)

include hlat hrank

/-- A value at a start goes to places at calls of its procedure, where
path edges end. -/
theorem fills_carryToCalls (hs : Placed T s) (hn : Owned (S.view T.graph) n) :
    Ensures (fun _ => False) (carryToCalls S T (S.view T.graph) n d v)
      (fun _ s' => Fills T rank bound s s') s := by
  obtain ⟨p, hp⟩ := hn
  unfold carryToCalls
  rw [hp]
  refine fills_forM hs fun c _ s₁ h₁ => fills_forM h₁ fun t ht s₂ h₂ => ?_
  have ht : Recorded T ⟨d, c, t.1⟩ := ⟨t.2, State.mem_targetsOf.mp ht⟩
  exact fills_reach hlat hrank h₂ ht

/-- A value at a call goes to starts of callees. Call flows on record
lead to path edges on record, so these are places too. -/
theorem fills_carryToCallees (hready : Ready S T) (hs : Placed T s) :
    Ensures (fun _ => False) (carryToCallees S T (S.view T.graph) n d v)
      (fun _ s' => Fills T rank bound s s') s := by
  unfold carryToCallees
  refine fills_forM hs fun g _ s₁ h₁ => ?_
  cases hstart : (S.view T.graph).start? g with
  | none => exact Ensures.pure ⟨h₁, Nat.le_refl _⟩
  | some start =>
    refine fills_forM h₁ fun t ht s₂ h₂ => ?_
    have ht : Recorded T ⟨t.1, start, t.1⟩ := by
      cases hget : T.callFlows.get? n (g, d) with
      | none =>
        rw [Grid.getD, hget] at ht
        exact absurd ht List.not_mem_nil
      | some ts =>
        rw [Grid.getD, hget] at ht
        exact hready.filled n g d ts start hget hstart t ht
    exact fills_reach hlat hrank h₂ ht

/-- The last sweep goes to places too, and cannot fail. -/
theorem fills_spread
    (howned : ∀ {e}, Recorded T e → Owned (S.view T.graph) e.node)
    (hs : Placed T s) :
    Ensures (fun _ => False) (spread S T)
      (fun _ s' => Fills T rank bound s s') s := by
  have hrecorded : ∀ {n a b w}, (n, (a, b), w) ∈ T.jumps.cells →
    Recorded T ⟨a, n, b⟩ := fun h => ⟨_, Grid.mem_cells.mp h⟩
  have hcells : ∀ x ∈ T.jumps.cells, Owned (S.view T.graph) x.1 :=
    fun x hx => howned (hrecorded hx)
  obtain ⟨found, hfound⟩ := exists_valuesAtTargets hcells s.values
  unfold spread
  refine Ensures.get_bind ?_
  rw [hfound]
  refine fills_forM hs fun x hx s₁ h₁ => ?_
  obtain ⟨a, w, hcell, _⟩ := (mem_valuesAtTargets hfound x.1 x.2.1 x.2.2).mp hx
  exact fills_reach hlat hrank h₁ (hrecorded hcell)

-- ============================================================= the phase

variable (howned : ∀ {e}, Recorded T e → Owned (S.view T.graph) e.node)
variable (hready : Ready S T)

include howned hready

/-- Carrying a pending value on cannot fail: it has a value, and its
node an owner. -/
theorem fills_carry (hs : Placed T s) (hv : s.values.get? n d = some v) :
    Ensures (fun _ => False) (carry S T n d)
      (fun _ s' => Fills T rank bound s s') s := by
  obtain ⟨source, he⟩ := hs.place hv
  have hn : Owned (S.view T.graph) n := howned he
  obtain ⟨p, hp⟩ := id hn
  have hcallees : ∀ s, Placed T s → Ensures (fun _ => False)
      (if (S.view T.graph).isCall n = true then carryToCallees S T
        (S.view T.graph) n d v
        else pure ()) (fun _ s' => Fills T rank bound s s') s := by
    intro s hs
    split
    · exact fills_carryToCallees hlat hrank hready hs
    · exact Ensures.pure ⟨hs, Nat.le_refl _⟩
  unfold carry
  refine Ensures.get_bind ?_
  rw [hv]
  dsimp only
  unfold Icfg.isStart?
  rw [hp, Option.map_some]
  cases decide ((S.view T.graph).start? p = some n) with
  | true =>
    refine (fills_carryToCalls hlat hrank hs hn).bind
      fun _ s₁ h₁ => ?_
    exact (hcallees s₁ h₁.1).mono fun _ s₂ h₂ => h₁.trans h₂
  | false => exact hcallees s hs

/-- The loop comes to an end. Each turn takes one value off the list,
and what it adds is paid for with room. -/
theorem halts_settle (hs : Placed T s) :
    Halts (fun _ => False) (settle S T) (fun _ s' => Placed T s') s := by
  induction hload : load T rank bound s using Nat.strong_induction_on
    generalizing s with
  | h size ih =>
    refine Halts.succ ?_
    cases hpending : s.pending with
    | nil =>
      refine Halts.of_eq (settle_nil hpending) (.of_ensures (x := pure ()) ?_)
      exact Ensures.pure hs
    | cons x rest =>
      obtain ⟨n, d⟩ := x
      have hmem : ∀ x ∈ rest, x ∈ s.pending := fun x hx =>
        hpending ▸ List.mem_cons_of_mem _ hx
      have hs₁ : Placed T { s with pending := rest } :=
        ⟨hs.place, fun hx => hs.pending (hmem _ hx)⟩
      obtain ⟨v, hv⟩ := hs.pending (hpending ▸ List.mem_cons_self)
      have hcarry := fills_carry hlat hrank howned hready hs₁ hv
      refine Halts.of_eq (settle_cons hpending)
        (Halts.bind (.of_ensures hcarry) fun _ s₂ h₂ => ?_)
      refine ih (load T rank bound s₂) ?_ h₂.1 rfl
      have hless : load T rank bound { s with pending := rest } <
          load T rank bound s := by
        unfold load
        rw [hpending, List.length_cons]
        dsimp only
        omega
      have hfilled := h₂.2
      omega

/-- So the whole phase comes to an end, with values, after any first
phase that left its tables in order. -/
theorem halts_compute :
    Halts (fun _ => False) (compute S T) (fun _ _ => True) {} := by
  have hempty : Placed T ({} : ValueState D L) :=
    ⟨(fun h => nomatch h), fun h => absurd h List.not_mem_nil⟩
  have hseeds : Ensures (fun _ => False)
      (T.seeds.forM fun seed => reach S seed.node seed.fact seed.value)
      (fun _ s' => Fills T rank bound {} s') {} :=
    fills_forM hempty fun seed hseed s hs =>
      fills_reach hlat hrank hs (hready.seed seed hseed)
  unfold compute
  refine Halts.bind (.of_ensures hseeds) fun _ s₁ h₁ => ?_
  refine Halts.bind (halts_settle hlat hrank howned hready h₁.1) fun _ s₂ h₂ =>
    .of_ensures ?_
  exact (fills_spread hlat hrank howned h₂).mono fun _ _ _ => trivial

end Carrying

end Values

-- ============================================================= a whole run

namespace Solver

variable {S : Setup D W L} {I₀ : Icfg} {graph : FlowGraph} {facts : List D}
variable {nodes : List Node}
variable {Inv : State D W L → Prop} {E : Failure D W L → Prop} {s : State D W L}

/-- Rows can be assembled for owned nodes. -/
private theorem exists_assembleRows {I : Icfg} {jumps : Grid Node (D × D) W}
    (valueOf : Node → D → L) (hrows : ∀ n ∈ jumps.rows.keys, Owned I n) :
    ∃ rows, Results.assembleRows I valueOf jumps = .ok rows := by
  unfold Results.assembleRows
  have hall : ∀ n ∈ Listing.sortOn (fun n => (n.id, 0)) jumps.rows.keys,
    Owned I n := fun n hn => hrows n (Listing.mem_sortOn.mp hn)
  generalize Listing.sortOn (fun n : Node => (n.id, 0))
    jumps.rows.keys = l at hall
  induction l with
  | nil => exact ⟨[], rfl⟩
  | cons n l ih =>
    obtain ⟨rows, hrest⟩ := ih fun m hm => hall m (List.mem_cons_of_mem _ hm)
    obtain ⟨p, hp⟩ := hall n List.mem_cons_self
    rw [List.mapM_cons, hrest]
    unfold Results.assembleRow
    rw [hp]
    exact ⟨_, rfl⟩

/-- The other way round, rows that are assembled are those of owned
nodes. -/
theorem owned_of_assembleRows {I : Icfg} {jumps : Grid Node (D × D) W}
    {valueOf : Node → D → L} {rows : List (Row D L)}
    (h : Results.assembleRows I valueOf jumps = .ok rows) {n : Node}
    (hn : n ∈ jumps.rows.keys) : Owned I n := by
  unfold Results.assembleRows at h
  have hn : n ∈ Listing.sortOn (fun n => (n.id, 0)) jumps.rows.keys :=
    Listing.mem_sortOn.mpr hn
  generalize Listing.sortOn (fun n : Node => (n.id, 0))
    jumps.rows.keys = l at h hn
  induction l generalizing rows with
  | nil => exact absurd hn List.not_mem_nil
  | cons m l ih =>
    rw [List.mapM_cons] at h
    cases hproc : I.procOf? m with
    | none =>
      unfold Results.assembleRow at h
      rw [hproc] at h
      cases h
    | some p =>
      rcases List.mem_cons.mp hn with rfl | hn
      · exact ⟨p, hproc⟩
      · cases hrest : l.mapM (Results.assembleRow I valueOf jumps) with
        | ok rows => exact ih hrest hn
        | error fault =>
          unfold Results.assembleRow at h hrest
          rw [hproc, hrest] at h
          cases h

private theorem report_of_assembleRows {status : Status}
    {values : Option (Grid Node D L)} {rows : List (Row D L)}
    (h : Results.assembleRows (S.view s.graph) (reportedValue S values)
      s.jumps = .ok rows) :
    ∃ r, report S status values s = .ok r s ∧ r.rows = rows := by
  unfold report
  rw [get_bind_apply, h]
  exact ⟨_, rfl, rfl⟩

/-- Where all rows are those of owned nodes, there is a report. -/
theorem exists_report
    (hrows : ∀ n ∈ s.jumps.rows.keys, Owned (S.view s.graph) n)
    (status : Status) (values : Option (Grid Node D L)) :
    ∃ r, report S status values s = .ok r s := by
  obtain ⟨rows, hassembled⟩ :=
    exists_assembleRows (reportedValue S values) hrows
  obtain ⟨r, hreport, _⟩ := report_of_assembleRows hassembled
  exact ⟨r, hreport⟩

theorem ensures_report
    (hrows : ∀ n ∈ s.jumps.rows.keys, Owned (S.view s.graph) n)
    (status : Status) (values : Option (Grid Node D L)) :
    Ensures E (report S status values) (fun r _ => r.status = status) s := by
  obtain ⟨r, hreport⟩ := exists_report hrows status values
  have hstatus : Ensures E (pure r) (fun r _ => r.status = status) s :=
    Ensures.pure (eq_of_report hreport).2.1
  exact hstatus.of_eq hreport

variable [DecidableEq L]

/-- The value phase as part of a run. It leaves the graph and the jump
functions alone. -/
theorem halts_valuePhase {valueRank : L → Nat} {height : Nat}
    (howned : ∀ {e}, Recorded s e → Owned (S.view s.graph) e.node)
    (hready : Ready S s) (hlat : S.problem.lattice.IsSemilattice)
    (hvalues : S.problem.lattice.IsRank valueRank height) (status : Status) :
    Halts (fun _ => False) (fun fuel => valuePhase S fuel status)
      (fun _ s' => s'.graph = s.graph ∧ s'.jumps = s.jumps) s := by
  obtain ⟨enough, hends, hmore⟩ :=
    Values.halts_compute hlat hvalues howned hready
  by_cases hgo : (status.isComplete && S.config.computeValues) = true
  · cases hcompute : Values.compute S s enough {} with
    | error failure found => exact absurd (hends.of_error hcompute) id
    | ok _ found =>
      refine Halts.of_ok enough (some found.values)
        { s with stats.valuePropagations := found.propagations }
          (fun fuel hfuel => ?_) ⟨rfl, rfl⟩
      unfold valuePhase
      rw [if_pos hgo, get_bind_apply, hmore fuel hfuel, hcompute]
      rfl
  · refine Halts.of_ok 0 none s (fun fuel _ => ?_) ⟨rfl, rfl⟩
    unfold valuePhase
    rw [if_neg hgo]
    rfl

variable [DecidableEq W]

theorem run_eq (S : Setup D W L) (fuel : Nat) :
    run S fuel = begin S >>= fun _ => tabulate S fuel >>= fun status =>
      valuePhase S fuel status >>= report S status := by
  unfold run begin
  rw [bind_assoc]

/-- A run comes to an end if what it can meet is finite, and nothing
can rise forever. It stops early only for a reason, and has no gaps in
its tables but those that a sound run can have. -/
theorem halts_run {rank : W → Nat} {bound : Nat} {valueRank : L → Nat}
    {height last : Nat} (hwf : (S.view graph).WellFormed)
    (hA : Admits S (S.view graph) E) (hG : Guards S (S.view graph) Inv E)
    (hstart : ∀ {s}, Sown S graph (S.seedsOn (S.view graph)) s → Inv s)
    (hcontained : ∀ {s}, Inv s → Contained (S.view graph) facts s)
    (hnodes : ∀ {n}, Owned (S.view graph) n → n ∈ nodes)
    (hrank : S.IsRank rank bound)
    (hlast : ∀ {s}, Inv s → (S.view s.graph).revision ≤ last)
    (hlat : S.problem.lattice.IsSemilattice)
    (hvalues : S.problem.lattice.IsRank valueRank height) :
    Halts (fun failure => E failure ∧ failure.Excused (S.view graph)) (run S)
      (fun r _ => ∀ reason, r.status = .incomplete reason →
        ∃ s₀, Inv s₀ ∧ stopReason? S s₀ = some reason)
          (State.start S graph) := by
  have hplaces : ∀ {s e}, Inv s → Recorded s e →
      (e.node, e.source, e.target) ∈ nodes ×ˢ (facts ×ˢ facts) := by
    intro s e hs he
    have hc := hcontained hs
    exact List.pair_mem_product.mpr ⟨hnodes (hc.owned he),
      List.pair_mem_product.mpr ⟨hc.source he, hc.target he⟩⟩
  -- three facts about the loop are proved apart, and put together where the
  -- loop has ended
  refine Halts.of_eq (fun fuel => congrFun (run_eq S fuel) _) ?_
  have hbegin :=
    (sown_begin hA).and (ensures_begin isGrowthOrder_trivial hwf.start_owned)
  refine Halts.bind (.of_ensures hbegin) fun _ s₁ h₁ => ?_
  obtain ⟨⟨hsown, hrevision⟩, hplanted⟩ := h₁
  have hseen : s₁.seenRevision ≤ (S.view s₁.graph).revision := by
    rw [hrevision, hsown.graph_eq]
  have hsound : ∀ fuel, Ensures (Failure.Excused (S.view graph))
      (tabulate S fuel) (fun _ _ => True) s₁ := fun fuel =>
    (ensures_tabulate isGrowthOrder_trivial hG.steady hwf.start_owned fuel
      (hplanted.inProgress fun _ _ => False) fun h => absurd h id).mono
        fun _ _ _ => trivial
  have hready : ∀ fuel, Ensures (fun _ => True) (tabulate S fuel)
      (fun _ s' => Kept S (S.view graph) s' ∧ Ready S s') s₁ :=
    fun fuel => ensures_ready hG.steady fuel hsown.kept hsown.ready
  refine Halts.bind
    (((halts_tabulate hG hrank hplaces hlast (hstart hsown) hseen).and_ensures
    hsound).and_ensures hready |>.allow fun _ h => h.1) fun status s₂ h₂ => ?_
  obtain ⟨⟨h₂, _⟩, hkept, hready₂⟩ := h₂
  have hrow : ∀ {n}, n ∈ s₂.jumps.rows.keys → Owned (S.view s₂.graph) n := by
    intro n hn
    unfold Owned
    rw [hkept.origin.procOf?]
    exact (hcontained h₂.1).row hn
  have howned : ∀ {e}, Recorded s₂ e → Owned (S.view s₂.graph) e.node := by
    intro e he
    obtain ⟨w, hw⟩ := he
    exact hrow (State.mem_rows_of_jump? hw)
  refine Halts.bind ((halts_valuePhase howned hready₂ hlat hvalues status).allow
    fun _ h => absurd h id) fun values s₃ h₃ => .of_ensures ?_
  have hrows : ∀ n ∈ s₃.jumps.rows.keys, Owned (S.view s₃.graph) n := by
    intro n hn
    rw [h₃.2] at hn
    rw [h₃.1]
    exact hrow hn
  exact (ensures_report hrows status values).mono fun r _ hr reason hreason =>
    h₂.2 reason (hr.symm.trans hreason)

/-- Where runs come to an end, so does solving: some fuel is enough,
and more makes no difference. -/
theorem exists_enough {Q : Results D L → State D W L → Prop}
    (h : Halts E (run S) Q (State.start S graph)) :
    ∃ enough, (∀ fuel, enough ≤ fuel →
      solve S fuel graph = solve S enough graph) ∧
      ((∃ r s, (solve S enough graph).1 = .ok r ∧ Q r s) ∨
        ∃ failure, (solve S enough graph).1 = .error failure ∧ E failure) := by
  obtain ⟨enough, hends, hmore⟩ := h
  refine ⟨enough, fun fuel hfuel => ?_, ?_⟩
  · unfold solve
    rw [hmore fuel hfuel]
  · unfold solve
    cases hrun : run S enough (State.start S graph) with
    | ok r s => exact Or.inl ⟨r, s, rfl, hends.of_ok hrun⟩
    | error failure s => exact Or.inr ⟨failure, rfl, hends.of_error hrun⟩

end Solver

end Tabulation
