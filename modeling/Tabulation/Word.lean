/-
Whole numbers in the signed 64-bit range.

Constants and coefficients are words. Sums and products are taken
exactly and then looked at: a result outside the range is no word, and
`none` says so. Nothing wraps around.
-/

namespace Tabulation

/-- A whole number in the signed 64-bit range. -/
structure Word where
  val : Int
  lower : -9223372036854775808 ≤ val
  upper : val ≤ 9223372036854775807
deriving DecidableEq

namespace Word

@[ext] theorem ext {a b : Word} (h : a.val = b.val) : a = b := by
  cases a
  cases b
  cases h
  rfl

instance : Inhabited Word := ⟨⟨0, by decide, by decide⟩⟩

instance : ToString Word := ⟨fun w => toString w.val⟩

instance : Repr Word := ⟨fun w prec => reprPrec w.val prec⟩

/-- The word of this value, if it is in range. -/
def ofInt? (i : Int) : Option Word :=
  if h : -9223372036854775808 ≤ i ∧
  i ≤ 9223372036854775807 then some ⟨i, h.1, h.2⟩ else none

/-- The sum, if it is in range. -/
def add? (a b : Word) : Option Word := ofInt? (a.val + b.val)

/-- The product, if it is in range. -/
def mul? (a b : Word) : Option Word := ofInt? (a.val * b.val)

/-- `a · x + b`, if both the product and the sum are in range. -/
def affine? (a b x : Word) : Option Word := do
  let product ← a.mul? x
  product.add? b

/-- The word zero. -/
def zero : Word := ⟨0, by decide, by decide⟩

/-- The word one. -/
def one : Word := ⟨1, by decide, by decide⟩

theorem ofInt?_eq_some {i : Int} {w : Word} :
    ofInt? i = some w ↔ w.val = i := by
  unfold ofInt?
  constructor
  · intro h
    split at h
    · cases h
      rfl
    · cases h
  · rintro rfl
    rw [dif_pos ⟨w.lower, w.upper⟩]

@[simp] theorem ofInt?_val (w : Word) : ofInt? w.val = some w :=
  ofInt?_eq_some.mpr rfl

theorem add?_eq_some {a b c : Word} :
    a.add? b = some c ↔ c.val = a.val + b.val :=
  ofInt?_eq_some

theorem mul?_eq_some {a b c : Word} :
    a.mul? b = some c ↔ c.val = a.val * b.val :=
  ofInt?_eq_some

/-- A value of `affine?` is the exact value. -/
theorem val_of_affine? {a b x y : Word} (h : affine? a b x = some y) :
    y.val = a.val * x.val + b.val := by
  unfold affine? at h
  cases hp : a.mul? x with
  | none => simp [hp] at h
  | some p =>
    simp only [hp, Option.bind_eq_bind, Option.bind_some] at h
    rw [add?_eq_some.mp h, mul?_eq_some.mp hp]

end Word

end Tabulation
