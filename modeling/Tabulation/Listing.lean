/-
Listings: lists without repetitions, and lists put in order.

A listing keeps its members in the order of their first appearance. The
solver numbers facts that way, and every set whose order shows (fresh
callees, callers of an entry, known targets) is one. Where an answer
must not depend on the order of discovery, the members are sorted by a
key first; the sort is the stable insertion sort, so that equal keys
stay in the order they came in.
-/

namespace Tabulation.Listing

variable {α : Type}

-- ======================================================== distinct members

section Distinct

variable [DecidableEq α]

/-- Add a member at the end, unless it is there already. -/
def add (xs : List α) (x : α) : List α :=
  if x ∈ xs then xs else xs ++ [x]

/-- Add several members, one after the other. -/
def addAll (xs ys : List α) : List α :=
  ys.foldl add xs

/-- The distinct members of a list, in order of first appearance. -/
def distinct (xs : List α) : List α :=
  addAll [] xs

theorem mem_add {xs : List α} {x y : α} : y ∈ add xs x ↔ y ∈ xs ∨ y = x := by
  unfold add
  split
  next h =>
    constructor
    · exact Or.inl
    · rintro (hy | rfl)
      · exact hy
      · exact h
  next => simp

theorem nodup_add {xs : List α} (h : xs.Nodup) (x : α) : (add xs x).Nodup := by
  unfold add
  split
  next => exact h
  next hx => exact List.nodup_append.mpr ⟨h, by simp, by
    intro a ha b hb
    rw [List.mem_singleton.mp hb]
    rintro rfl
    exact hx ha⟩

theorem mem_addAll {xs ys : List α} {y : α} :
    y ∈ addAll xs ys ↔ y ∈ xs ∨ y ∈ ys := by
  unfold addAll
  induction ys generalizing xs with
  | nil => simp
  | cons a ys ih => simp [ih, mem_add, or_assoc]

theorem nodup_addAll {xs : List α} (h : xs.Nodup) (ys : List α) :
    (addAll xs ys).Nodup := by
  unfold addAll
  induction ys generalizing xs with
  | nil => exact h
  | cons a ys ih => exact ih (nodup_add h a)

@[simp] theorem mem_distinct {xs : List α} {x : α} :
    x ∈ distinct xs ↔ x ∈ xs := by
  simp [distinct, mem_addAll]

theorem nodup_distinct (xs : List α) : (distinct xs).Nodup :=
  nodup_addAll List.nodup_nil xs

end Distinct

-- ================================================================== order

/-- Insert before the first member that is not below the new one. -/
def insertBy (le : α → α → Bool) (x : α) : List α → List α
  | [] => [x]
  | y :: ys => if le x y then x :: y :: ys else y :: insertBy le x ys

/-- The stable insertion sort. -/
def sortBy (le : α → α → Bool) : List α → List α
  | [] => []
  | x :: xs => insertBy le x (sortBy le xs)

/-- Compare by a pair of numbers, the first one weighing more. -/
def leOn (key : α → Nat × Nat) (a b : α) : Bool :=
  (key a).1 < (key b).1 || ((key a).1 == (key b).1 && (key a).2 ≤ (key b).2)

/-- Sort by a pair of numbers, the first one weighing more. -/
def sortOn (key : α → Nat × Nat) (xs : List α) : List α :=
  sortBy (leOn key) xs

theorem perm_insertBy (le : α → α → Bool) (x : α) (xs : List α) :
    (insertBy le x xs).Perm (x :: xs) := by
  induction xs with
  | nil => exact List.Perm.refl _
  | cons y ys ih =>
    unfold insertBy
    split
    · exact List.Perm.refl _
    · exact (ih.cons y).trans (List.Perm.swap x y ys)

theorem perm_sortBy (le : α → α → Bool) (xs : List α) :
    (sortBy le xs).Perm xs := by
  induction xs with
  | nil => exact List.Perm.refl _
  | cons x xs ih => exact (perm_insertBy le x _).trans (ih.cons x)

@[simp] theorem mem_sortBy {le : α → α → Bool} {xs : List α} {x : α} :
    x ∈ sortBy le xs ↔ x ∈ xs :=
  (perm_sortBy le xs).mem_iff

@[simp] theorem mem_sortOn {key : α → Nat × Nat} {xs : List α} {x : α} :
    x ∈ sortOn key xs ↔ x ∈ xs :=
  mem_sortBy

end Tabulation.Listing
