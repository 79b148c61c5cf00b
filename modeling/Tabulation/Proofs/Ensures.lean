/-
What a computation ensures.

The solver's computations run on tables and may fail. `Ensures E x Q s`
says what comes of running `x` from the tables `s`: if it returns, the
answer and the tables it leaves are as `Q` says, and if it fails, the
failure is one that `E` allows.

# How it is used

One lemma per computation of the solver states what that computation
ensures, and the lemma about a larger computation is put together from
those of its parts by `bind` and `forM`. Nothing above this file looks
into the order of effects.

A loop over a list is the case that recurs. Its rule `forM` is about a
preorder on tables, "these tables come of those", and one property per
member of the list that later tables keep: going through the list then
ensures the property of every member.
-/

namespace Tabulation

variable {ε σ α β : Type}

/-- Running `x` from `s` returns something that is as `Q` says, or
fails in a way that `E` allows. With `E` false of all failures, `x` is
bound to return; with `E` true of all, nothing is said about failing. -/
def Ensures (E : ε → Prop) (x : EStateM ε σ α) (Q : α → σ → Prop) (s : σ) :
    Prop :=
  match x s with
  | .ok a s' => Q a s'
  | .error failure _ => E failure

/-- To read the tables is to go on with them. The state of the one that
reads is handed to the rest as an argument too. -/
theorem get_bind_apply (f : σ → EStateM ε σ β) (s : σ) :
    (get >>= f) s = f s s :=
  rfl

/-- After a computation that returns comes the rest, on the answer and
from the tables that were left. -/
theorem bind_of_ok {x : EStateM ε σ α} {s s' : σ} {a : α} (h : x s = .ok a s')
    (f : α → EStateM ε σ β) : (x >>= f) s = f a s' := by
  show EStateM.bind x f s = f a s'
  unfold EStateM.bind
  rw [h]

/-- After a computation that fails comes nothing: the failure stands,
with the tables at that moment. -/
theorem bind_of_error {x : EStateM ε σ α} {s s' : σ} {failure : ε}
    (h : x s = .error failure s') (f : α → EStateM ε σ β) :
    (x >>= f) s = .error failure s' := by
  show EStateM.bind x f s = .error failure s'
  unfold EStateM.bind
  rw [h]

/-- What runs through has parts that run through. Read backwards, this
is how a run is taken apart into its phases. -/
theorem bind_eq_ok {x : EStateM ε σ α} {f : α → EStateM ε σ β} {s s' : σ}
    {b : β} (h : (x >>= f) s = .ok b s') :
    ∃ a s₁, x s = .ok a s₁ ∧ f a s₁ = .ok b s' := by
  change EStateM.bind x f s = .ok b s' at h
  unfold EStateM.bind at h
  cases hx : x s with
  | ok a s₁ =>
    rw [hx] at h
    exact ⟨a, s₁, rfl, h⟩
  | error failure s₁ =>
    rw [hx] at h
    cases h

namespace Ensures

variable {E : ε → Prop} {s : σ}

-- ============================================================ reading it

/-- What a computation ensures holds of what it returns. -/
theorem of_ok {x : EStateM ε σ α} {Q : α → σ → Prop} {a : α} {s' : σ}
    (h : Ensures E x Q s) (hx : x s = .ok a s') : Q a s' := by
  unfold Ensures at h
  rw [hx] at h
  exact h

/-- A computation fails only as it is allowed to. -/
theorem of_error {x : EStateM ε σ α} {Q : α → σ → Prop} {failure : ε} {s' : σ}
    (h : Ensures E x Q s) (hx : x s = .error failure s') : E failure := by
  unfold Ensures at h
  rw [hx] at h
  exact h

/-- What comes of a computation is all that counts. So the computation
may be replaced by one with the same outcome, and the tables along with
it. -/
theorem of_eq {x y : EStateM ε σ α} {Q : α → σ → Prop} {s' : σ} (h : x s = y s')
    (hy : Ensures E y Q s') : Ensures E x Q s := by
  unfold Ensures at hy ⊢
  rw [h]
  exact hy

/-- Less may be ensured than is known. Every use of a spec for a
purpose of its own goes through here. -/
theorem mono {x : EStateM ε σ α} {Q Q' : α → σ → Prop} (h : Ensures E x Q s)
    (hQ : ∀ a s', Q a s' → Q' a s') : Ensures E x Q' s := by
  unfold Ensures at h ⊢
  cases hx : x s with
  | ok a s' =>
    rw [hx] at h
    exact hQ a s' h
  | error failure s' =>
    rw [hx] at h
    exact h

/-- More failures may be allowed than can happen. Two parts that fail
in different ways can be put together after that. -/
theorem allow {E' : ε → Prop} {x : EStateM ε σ α} {Q : α → σ → Prop}
    (h : Ensures E x Q s) (hE : ∀ failure, E failure → E' failure) :
    Ensures E' x Q s := by
  unfold Ensures at h ⊢
  cases hx : x s with
  | ok a s' =>
    rw [hx] at h
    exact h
  | error failure s' =>
    rw [hx] at h
    exact hE failure h

/-- Two things that are ensured are ensured together. -/
protected theorem and {E' : ε → Prop} {x : EStateM ε σ α} {Q Q' : α → σ → Prop}
    (h : Ensures E x Q s) (h' : Ensures E' x Q' s) :
    Ensures (fun failure => E failure ∧ E' failure) x
      (fun a s' => Q a s' ∧ Q' a s') s := by
  unfold Ensures at h h' ⊢
  cases hx : x s with
  | ok a s' =>
    rw [hx] at h h'
    exact ⟨h, h'⟩
  | error failure s' =>
    rw [hx] at h h'
    exact ⟨h, h'⟩

/-- What was computed may be kept in mind: along with the property
comes the very outcome it is about. -/
theorem self {x : EStateM ε σ α} {Q : α → σ → Prop} (h : Ensures E x Q s) :
    Ensures E x (fun a s' => x s = .ok a s' ∧ Q a s') s := by
  unfold Ensures at h ⊢
  cases hx : x s with
  | ok a s' =>
    rw [hx] at h
    exact ⟨rfl, h⟩
  | error failure s' =>
    rw [hx] at h
    exact h

-- ==================================================== single computations

protected theorem pure {Q : α → σ → Prop} {a : α} (h : Q a s) :
    Ensures E (pure a : EStateM ε σ α) Q s := h

protected theorem throw {Q : α → σ → Prop} {failure : ε} (h : E failure) :
    Ensures E (throw failure : EStateM ε σ α) Q s := h

protected theorem modify {Q : PUnit → σ → Prop} {g : σ → σ} (h : Q ⟨⟩ (g s)) :
    Ensures E (modify g : EStateM ε σ PUnit) Q s := h

-- ======================================================= one after another

/-- First the one, then the other. -/
protected theorem bind {x : EStateM ε σ α} {f : α → EStateM ε σ β}
    {Q : α → σ → Prop} {Q' : β → σ → Prop} (h : Ensures E x Q s)
    (hf : ∀ a s', Q a s' → Ensures E (f a) Q' s') :
      Ensures E (x >>= f) Q' s := by
  unfold Ensures at h ⊢
  show match EStateM.bind x f s with
    | .ok a s' => Q' a s'
    | .error failure _ => E failure
  unfold EStateM.bind
  cases hx : x s with
  | ok a s' =>
    rw [hx] at h
    exact hf a s' h
  | error failure s' =>
    rw [hx] at h
    exact h

/-- `get_bind_apply` as a rule: the rest has to ensure `Q` with the
tables as its argument. -/
theorem get_bind {f : σ → EStateM ε σ β} {Q : β → σ → Prop}
    (h : Ensures E (f s) Q s) : Ensures E (get >>= f) Q s := h

/-- To change the tables is to go on with the changed ones. -/
theorem modify_bind {g : σ → σ} {f : PUnit → EStateM ε σ β} {Q : β → σ → Prop}
    (h : Ensures E (f ⟨⟩) Q (g s)) : Ensures E (modify g >>= f) Q s := h

/-- To change the tables only sometimes is to go on with one or the
other. The rest is looked at once, for both kinds of tables. -/
theorem optional_bind {c : Prop} [Decidable c] {g : σ → σ}
    {f : PUnit → EStateM ε σ β} {Q : β → σ → Prop}
    (h : ∀ s', s' = s ∨ s' = g s → Ensures E (f ⟨⟩) Q s') :
    Ensures E (if c then modify g >>= f else f ⟨⟩) Q s := by
  split
  · exact modify_bind (h (g s) (Or.inr rfl))
  · exact h s (Or.inl rfl)

-- ================================================================== loops

section Loop

variable {A : σ → σ → Prop} {G : β → σ → Prop}

/-- A loop over a list. `A` says that tables come of earlier ones. What
one turn ensures of its member, later tables keep. -/
protected theorem forM (hrefl : ∀ {a b}, A a b → A b b)
    (htrans : ∀ {a b c}, A a b → A b c → A a c)
      (hkeep : ∀ {x a b}, G x a → A a b → G x b)
    {f : β → EStateM ε σ PUnit} {l : List β} (hs : A s s)
    (hstep : ∀ x ∈ l, ∀ s', A s s' →
      Ensures E (f x) (fun _ s'' => A s' s'' ∧ G x s'') s') :
    Ensures E (l.forM f) (fun _ s' => A s s' ∧ ∀ x ∈ l, G x s') s := by
  induction l generalizing s with
  | nil => exact Ensures.pure ⟨hs, fun x hx => absurd hx List.not_mem_nil⟩
  | cons x l ih =>
    refine Ensures.bind (hstep x List.mem_cons_self s hs) ?_
    rintro - s₁ ⟨h₁, hx⟩
    have hrest := ih (hrefl h₁) fun y hy s' h' =>
      hstep y (List.mem_cons_of_mem _ hy) s' (htrans h₁ h')
    refine hrest.mono ?_
    rintro - s₂ ⟨h₂, hl⟩
    refine ⟨htrans h₁ h₂, fun y hy => ?_⟩
    rcases List.mem_cons.mp hy with rfl | hy
    · exact hkeep hx h₂
    · exact hl y hy

/-- A loop keeps what each of its turns keeps. This is the rule for an
invariant, where no member leaves a trace of its own. -/
theorem forM_keep {P : σ → Prop} {f : β → EStateM ε σ PUnit} {l : List β}
    (hs : P s)
    (hstep : ∀ x ∈ l, ∀ s', P s' → Ensures E (f x) (fun _ s'' => P s'') s') :
    Ensures E (l.forM f) (fun _ s' => P s') s :=
  (Ensures.forM (A := fun _ s' => P s') (G := fun _ _ => True) id (fun _ h => h)
    (fun _ _ => trivial) hs fun x hx s' h =>
      (hstep x hx s' h).mono fun _ _ h' => ⟨h', trivial⟩).mono fun _ _ h => h.1

/-- A loop fails at the first of its members with which it does. The
members before that one are passed, and only they need to be looked at. -/
theorem forM_find {P : σ → Prop} {f : β → EStateM ε σ PUnit} {bad : β → Bool}
    {l : List β} {x : β} (hfind : l.find? bad = some x) (hs : P s)
    (hgood : ∀ y ∈ l, bad y = false → ∀ s', P s' →
      Ensures E (f y) (fun _ s'' => P s'') s')
    (hbad : ∀ s', P s' → Ensures E (f x) (fun _ _ => False) s') :
    Ensures E (l.forM f) (fun _ _ => False) s := by
  induction l generalizing s with
  | nil => cases hfind
  | cons y l ih =>
    cases hy : bad y with
    | true =>
      rw [List.find?_cons_of_pos hy] at hfind
      cases hfind
      exact (hbad s hs).bind fun _ _ h => h.elim
    | false =>
      rw [List.find?_cons_of_neg (Bool.eq_false_iff.mp hy)] at hfind
      refine (hgood y List.mem_cons_self hy s hs).bind fun _ s₁ h₁ => ?_
      exact ih hfind h₁ fun z hz => hgood z (List.mem_cons_of_mem _ hz)

end Loop

end Ensures

-- ==================================================================== fuel

/-- A computation on fuel comes to an end: some fuel is enough, more
makes no difference, and what comes of it is as `Q` and `E` say.
Running out of fuel is a failure like any other, to be ruled out by
`E`. -/
def Halts (E : ε → Prop) (x : Nat → EStateM ε σ α) (Q : α → σ → Prop) (s : σ) :
    Prop :=
  ∃ enough, Ensures E (x enough) Q s ∧ ∀ fuel, enough ≤ fuel →
    x fuel s = x enough s

namespace Halts

variable {E : ε → Prop} {s : σ}

/-- What needs no fuel comes to an end. -/
theorem of_ensures {x : EStateM ε σ α} {Q : α → σ → Prop}
    (h : Ensures E x Q s) : Halts E (fun _ => x) Q s :=
  ⟨0, h, fun _ _ => rfl⟩

/-- What returns the same on all fuel that is enough comes to an end. -/
theorem of_ok {x : Nat → EStateM ε σ α} {Q : α → σ → Prop} (enough : Nat)
    (a : α) (s' : σ) (h : ∀ fuel, enough ≤ fuel → x fuel s = .ok a s')
    (hQ : Q a s') : Halts E x Q s := by
  have hpure : Ensures E (pure a) Q s' := Ensures.pure hQ
  refine ⟨enough, hpure.of_eq (h enough (Nat.le_refl _)), fun fuel hfuel => ?_⟩
  rw [h fuel hfuel, h enough (Nat.le_refl _)]

/-- Less may be ensured at the end than is known. -/
theorem mono {x : Nat → EStateM ε σ α} {Q Q' : α → σ → Prop} (h : Halts E x Q s)
    (hQ : ∀ a s', Q a s' → Q' a s') : Halts E x Q' s := by
  obtain ⟨enough, hends, hmore⟩ := h
  exact ⟨enough, hends.mono hQ, hmore⟩

/-- More failures may be allowed at the end than can happen. -/
theorem allow {E' : ε → Prop} {x : Nat → EStateM ε σ α} {Q : α → σ → Prop}
    (h : Halts E x Q s) (hE : ∀ failure, E failure → E' failure) :
    Halts E' x Q s := by
  obtain ⟨enough, hends, hmore⟩ := h
  exact ⟨enough, hends.allow hE, hmore⟩

/-- What is ensured on all fuel is ensured at the end. So coming to
an end and being right are shown apart from each other. -/
theorem and_ensures {E' : ε → Prop} {x : Nat → EStateM ε σ α}
    {Q Q' : α → σ → Prop} (h : Halts E x Q s)
    (h' : ∀ fuel, Ensures E' (x fuel) Q' s) :
    Halts (fun failure => E failure ∧ E' failure) x
      (fun a s' => Q a s' ∧ Q' a s') s := by
  obtain ⟨enough, hends, hmore⟩ := h
  exact ⟨enough, hends.and (h' enough), hmore⟩

/-- A computation that goes as another one on all fuel comes to an end
with it. -/
theorem of_eq {x y : Nat → EStateM ε σ α} {Q : α → σ → Prop} {s' : σ}
    (h : ∀ fuel, x fuel s = y fuel s') (hy : Halts E y Q s') :
    Halts E x Q s := by
  obtain ⟨enough, hends, hmore⟩ := hy
  refine ⟨enough, hends.of_eq (h enough), fun fuel hfuel => ?_⟩
  rw [h fuel, h enough, hmore fuel hfuel]

/-- What comes to an end after a step on less fuel comes to an end. A
loop that takes a unit of fuel per turn is unrolled once by this. -/
theorem succ {x : Nat → EStateM ε σ α} {Q : α → σ → Prop}
    (h : Halts E (fun fuel => x (fuel + 1)) Q s) : Halts E x Q s := by
  obtain ⟨enough, hends, hmore⟩ := h
  refine ⟨enough + 1, hends, fun fuel hfuel => ?_⟩
  obtain ⟨less, rfl⟩ :=
    Nat.exists_eq_add_of_le' (Nat.le_trans (Nat.le_add_left 1 enough) hfuel)
  exact hmore less (Nat.le_of_succ_le_succ hfuel)

/-- One after the other, both on the same fuel. -/
protected theorem bind {x : Nat → EStateM ε σ α} {f : Nat → α → EStateM ε σ β}
    {Q : α → σ → Prop} {Q' : β → σ → Prop} (h : Halts E x Q s)
    (hf : ∀ a s', Q a s' → Halts E (fun fuel => f fuel a) Q' s') :
    Halts E (fun fuel => x fuel >>= f fuel) Q' s := by
  obtain ⟨n, hx, hmore⟩ := h
  have hrun : ∀ fuel, n ≤ fuel →
      (x fuel >>= f fuel) s = (x n >>= f fuel) s := by
    intro fuel hfuel
    show EStateM.bind (x fuel) (f fuel) s = EStateM.bind (x n) (f fuel) s
    unfold EStateM.bind
    rw [hmore fuel hfuel]
  cases hn : x n s with
  | error failure s' =>
    have hfail : ∀ fuel, n ≤ fuel →
        (x fuel >>= f fuel) s = .error failure s' := by
      intro fuel hfuel
      rw [hrun fuel hfuel]
      show EStateM.bind (x n) (f fuel) s = _
      unfold EStateM.bind
      rw [hn]
    refine ⟨n, ?_, fun fuel hfuel =>
        (hfail fuel hfuel).trans (hfail n (Nat.le_refl n)).symm⟩
    have hthrow : Ensures E (throw failure) Q' s' :=
      Ensures.throw (hx.of_error hn)
    exact hthrow.of_eq (hfail n (Nat.le_refl n))
  | ok a s' =>
    obtain ⟨m, hends, hmore'⟩ := hf a s' (hx.of_ok hn)
    have hgo : ∀ fuel, max n m ≤ fuel → (x fuel >>= f fuel) s = f m a s' := by
      intro fuel hfuel
      have hrest : f fuel a s' = f m a s' :=
        hmore' fuel (Nat.le_trans (Nat.le_max_right ..) hfuel)
      rw [hrun fuel (Nat.le_trans (Nat.le_max_left ..) hfuel), ← hrest]
      show EStateM.bind (x n) (f fuel) s = _
      unfold EStateM.bind
      rw [hn]
    refine ⟨max n m, hends.of_eq (hgo _ (Nat.le_refl _)), fun fuel hfuel => ?_⟩
    exact (hgo fuel hfuel).trans (hgo _ (Nat.le_refl _)).symm

end Halts

end Tabulation
