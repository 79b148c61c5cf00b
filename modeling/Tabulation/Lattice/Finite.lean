/-
Finite lattices given by their join table, and edge functions given by
theirs.

The values of a table are the levels `0` to `n - 1`. Nothing is assumed
of the table: it may break every law, which is what the law check and
the monotonicity check are for. An edge function is the list of its
outputs, and how two such functions are joined can be chosen, well or
badly.
-/
import Tabulation.EdgeFunction.Basic

namespace Tabulation

/-- A value of a finite lattice. -/
structure Level where
  index : Nat
deriving DecidableEq, Repr, Inhabited

instance : ToString Level := ⟨fun v => "v" ++ toString v.index⟩

/-- A function on levels: its outputs, in the order of its inputs. -/
structure LevelMap where
  outputs : List Level
deriving DecidableEq, Repr, Inhabited

instance : ToString LevelMap where
  toString f :=
    "f[" ++ ", ".intercalate (f.outputs.map fun v => toString v.index) ++ "]"

/-- How two different functions on levels are joined. -/
inductive MapJoin where
  /-- Join the outputs. -/
  | pointwise
  /-- Keep the first function. -/
  | first
  /-- Keep the second function. -/
  | second
  /-- Fall back to the bottom function. -/
  | bottom
deriving DecidableEq, Repr, Inhabited

/-- A join table with its extremes. -/
structure JoinTable where
  top : Level
  bottom : Level
  rows : List (List Level)
  mapJoin : MapJoin := .pointwise
deriving Repr, Inhabited

namespace LevelMap

/-- The output at a level. -/
def eval (f : LevelMap) (v : Level) : Level := (f.outputs[v.index]?).getD v

end LevelMap

namespace JoinTable

/-- The number of levels. -/
def size (t : JoinTable) : Nat := t.rows.length

/-- All levels. -/
def levels (t : JoinTable) : List Level := (List.range t.size).map Level.mk

/-- The entry of the table. -/
def join (t : JoinTable) (a b : Level) : Level :=
  ((t.rows[a.index]?).bind fun row => row[b.index]?).getD a

/-- The lattice of the table. -/
def lattice (t : JoinTable) : ValueLattice Level where
  join := t.join
  top := t.top
  bottom := t.bottom

/-- The function with these outputs. -/
def mapOf (t : JoinTable) (f : Level → Level) : LevelMap := ⟨t.levels.map f⟩

/-- Join two functions in the chosen way; equal ones are left alone. -/
def joinMaps (t : JoinTable) (f g : LevelMap) : LevelMap :=
  if f = g then f
  else
    match t.mapJoin with
    | .pointwise => t.mapOf fun v => t.join (f.eval v) (g.eval v)
    | .first => f
    | .second => g
    | .bottom => t.mapOf fun _ => t.bottom

/-- The algebra of functions on levels. -/
def functions (t : JoinTable) : EdgeFunctions LevelMap Level where
  eval := LevelMap.eval
  comp f g := t.mapOf fun v => g.eval (f.eval v)
  join := t.joinMaps
  identity := t.mapOf id
  allTop := t.mapOf fun _ => t.top
  allBottom := t.mapOf fun _ => t.bottom

end JoinTable

end Tabulation
