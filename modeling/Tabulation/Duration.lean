/-
Spans of time, counted in nanoseconds, and how they are written.

A span is written in the largest unit of which it holds at least one,
with the exact rest as decimals: `1.05ms`, `1.000000001s`, `0ns`.
-/

namespace Tabulation

/-- A span of time. -/
structure Duration where
  nanoseconds : Nat := 0
deriving DecidableEq, Repr, Inhabited

namespace Duration

/-- A whole number of milliseconds. -/
def ofMilliseconds (ms : Nat) : Duration := ⟨ms * 1000000⟩

/-- The whole milliseconds in a span. -/
def milliseconds (d : Duration) : Nat := d.nanoseconds / 1000000

/-- The unit a span is written in: its length in nanoseconds, the
number of decimal places a rest in that unit can have, and its name. -/
def unit (d : Duration) : Nat × Nat × String :=
  if 1000000000 ≤ d.nanoseconds then (1000000000, 9, "s")
  else if 1000000 ≤ d.nanoseconds then (1000000, 6, "ms")
  else if 1000 ≤ d.nanoseconds then (1000, 3, "µs")
  else (1, 0, "ns")

/-- The digits of `n` in `places` decimal places, without zeros at
the end. -/
def decimals (places n : Nat) : String :=
  let digits := (toString n).toList
  let padded := List.replicate (places - digits.length) '0' ++ digits
  String.ofList (padded.reverse.dropWhile (· == '0')).reverse

/-- The written form: the whole part, the exact rest as decimals if
there is one, and the unit. -/
def render (d : Duration) : String :=
  let (length, places, name) := d.unit
  let rest := d.nanoseconds % length
  let fraction := if rest = 0 then "" else "." ++ decimals places rest
  toString (d.nanoseconds / length) ++ fraction ++ name

end Duration

end Tabulation
