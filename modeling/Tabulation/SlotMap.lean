/-
Maps keyed by small numbers.

A slot map stores its values at their keys, so that a key close to zero
costs no search. Numbers that are handed out densely (the numbers of
interned facts) are its keys; a number far beyond the others leaves the
slots between empty.
-/

namespace Tabulation

/-- A map from small numbers, stored as a row of slots. -/
structure SlotMap (υ : Type) where
  slots : List (Option υ) := []
deriving Repr

namespace SlotMap

variable {υ : Type}

/-- Set one slot of a row, which grows as far as it has to. -/
def fill (f : Option υ → υ) : Nat → List (Option υ) → List (Option υ)
  | 0, [] => [some (f none)]
  | 0, slot :: rest => some (f slot) :: rest
  | k + 1, [] => none :: fill f k []
  | k + 1, slot :: rest => slot :: fill f k rest

/-- The value in a slot. -/
def get? (m : SlotMap υ) (k : Nat) : Option υ := (m.slots[k]?).join

/-- Change the value in a slot, starting from the given one if it is
empty. -/
def update (m : SlotMap υ) (k : Nat) (default : υ) (f : υ → υ) : SlotMap υ :=
  ⟨fill (fun slot => f (slot.getD default)) k m.slots⟩

/-- Fill a slot that is empty; leave it alone otherwise. -/
def ensure (m : SlotMap υ) (k : Nat) (default : υ) : SlotMap υ :=
  m.update k default id

/-- The occupied slots with their numbers, in ascending order. -/
def toList (m : SlotMap υ) : List (Nat × υ) :=
  m.slots.zipIdx.filterMap fun (slot, k) => slot.map fun v => (k, v)

theorem getElem?_fill (f : Option υ → υ) (k j : Nat) (row : List (Option υ)) :
    ((fill f k row)[j]?).join = if k = j then some (f (row[k]?).join)
      else (row[j]?).join := by
  induction k generalizing j row with
  | zero =>
    cases row with
    | nil => cases j <;> simp [fill]
    | cons slot rest => cases j <;> simp [fill]
  | succ k ih =>
    cases row with
    | nil =>
      cases j with
      | zero => simp [fill]
      | succ j => simpa [fill] using ih j []
    | cons slot rest =>
      cases j with
      | zero => simp [fill]
      | succ j => simpa [fill] using ih j rest

/-- A change touches its own slot only. -/
theorem get?_update (m : SlotMap υ) (k j : Nat) (d : υ) (f : υ → υ) :
    (m.update k d f).get? j = if k = j then some (f ((m.get? k).getD d))
      else m.get? j :=
  getElem?_fill _ k j m.slots

end SlotMap

end Tabulation
