/-
Linear edge functions: `x ↦ a · x + b` on constants, beside the
constant functions and the identity.

Coefficients are words. An arithmetic result outside the range of words
is given up: evaluation yields the top, composition yields the function
that is the top everywhere. A linear function with slope zero is
written as a constant function, and the one with slope one and offset
zero as the identity; `ofCoefficients` chooses the right form.
-/
import Tabulation.EdgeFunction.Basic
import Tabulation.Lattice.Constant

namespace Tabulation

/-- Linear functions of a constant. -/
inductive LinearEdge where
  | allBottom
  | allTop
  | identity
  /-- `x ↦ c`, also where no value has been seen. -/
  | const (c : Word)
  /-- `x ↦ a · x + b`; the extremes pass through. -/
  | linear (a b : Word)
deriving DecidableEq, Repr, Inhabited

namespace LinearEdge

instance : ToString LinearEdge where
  toString
    | allBottom => "AllBottom"
    | allTop => "AllTop"
    | identity => "Identity"
    | const c => s!"Const({c})"
    | linear a b =>
      "Linear \x7b a: " ++ toString a ++ ", b: " ++ toString b ++ " \x7d"

/-- The function `x ↦ a · x + b`, in the form chosen for it. -/
def ofCoefficients (a b : Word) : LinearEdge :=
  if a = Word.zero then const b
  else if a = Word.one ∧ b = Word.zero then identity
  else linear a b

/-- Whether a code is in the form `ofCoefficients` chooses. -/
def IsNormal : LinearEdge → Prop
  | linear a b => a ≠ Word.zero ∧ ¬(a = Word.one ∧ b = Word.zero)
  | _ => True

instance : (f : LinearEdge) → Decidable f.IsNormal
  | linear a b =>
    inferInstanceAs
      (Decidable (a ≠ Word.zero ∧ ¬(a = Word.one ∧ b = Word.zero)))
  | allBottom => .isTrue trivial
  | allTop => .isTrue trivial
  | identity => .isTrue trivial
  | const _ => .isTrue trivial

/-- The function a code stands for. -/
def eval : LinearEdge → ConstValue → ConstValue
  | allBottom, _ => .bottom
  | allTop, _ => .top
  | identity, v => v
  | const c, _ => .const c
  | linear _ _, .bottom => .bottom
  | linear _ _, .top => .top
  | linear a b, .const x =>
    match Word.affine? a b x with
    | some y => .const y
    | none => .top

/-- First the one, then the other. -/
def comp : LinearEdge → LinearEdge → LinearEdge
  | _, allBottom => allBottom
  | _, allTop => allTop
  | _, const c => const c
  | f, identity => f
  | identity, g => g
  | allBottom, linear _ _ => allBottom
  | allTop, linear _ _ => allTop
  | const c, linear a b =>
    match Word.affine? a b c with
    | some y => const y
    | none => allTop
  | linear a₁ b₁, linear a₂ b₂ =>
    match a₂.mul? a₁, Word.affine? a₂ b₂ b₁ with
    | some a, some b => ofCoefficients a b
    | _, _ => allTop

/-- Two different functions have only the top function above them,
unless one is the bottom function. -/
def join (f g : LinearEdge) : LinearEdge :=
  if f = g then f
  else
    match f, g with
    | allBottom, g => g
    | f, allBottom => f
    | _, _ => allTop

/-- The algebra of linear functions. -/
def functions : EdgeFunctions LinearEdge ConstValue where
  eval := eval
  comp := comp
  join := join
  identity := identity
  allTop := allTop
  allBottom := allBottom

theorem isNormal_ofCoefficients (a b : Word) :
    (ofCoefficients a b).IsNormal := by
  unfold ofCoefficients
  split
  · exact trivial
  · split
    · exact trivial
    · exact ⟨by assumption, by assumption⟩

end LinearEdge

end Tabulation
