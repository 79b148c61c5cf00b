/-
Cancellation tokens.

Tokens are handed out one after the other. A clone stands for the same
flag as the token it was made from, so cancelling either shows on both.
-/
import Tabulation.Listing

namespace Tabulation

/-- The tokens handed out so far. -/
structure Tokens where
  /-- The flag each token stands for. -/
  flags : List Nat := [0]
  /-- The number of flags. -/
  flagCount : Nat := 1
  /-- The flags that have been raised. -/
  raised : List Nat := []
deriving Repr, Inhabited

namespace Tokens

/-- Hand out a token with a flag of its own. -/
def fresh (t : Tokens) : Tokens :=
  { t with flags := t.flags ++ [t.flagCount], flagCount := t.flagCount + 1 }

/-- Hand out a token with the flag of another one. -/
def clone? (t : Tokens) (i : Nat) : Option Tokens :=
  (t.flags[i]?).map fun flag => { t with flags := t.flags ++ [flag] }

/-- Cancel by a token. -/
def cancel? (t : Tokens) (i : Nat) : Option Tokens :=
  (t.flags[i]?).map fun flag => { t with raised := Listing.add t.raised flag }

/-- Whether each token is cancelled. -/
def cancelled (t : Tokens) : List Bool :=
  t.flags.map fun flag => decide (flag ∈ t.raised)

end Tokens

end Tabulation
