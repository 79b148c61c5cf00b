/-
Shapes of flow functions.

A flow function maps one fact to the facts that hold after it. Most are
made of a few shapes: pass on, drop, generate at a trigger, rename by a
mapping. A flow function may repeat a fact; what the repetitions mean
is for the solver to say.
-/

namespace Tabulation.FlowFunction

variable {D W : Type}

/-- Pass the fact on. -/
def identity (d : D) : List D := [d]

/-- Pass nothing on. -/
def killAll : List D := []

/-- Attach one edge function to every fact. -/
def withWeight (facts : List D) (w : W) : List (D × W) :=
  facts.map fun d => (d, w)

variable [DecidableEq D]

/-- Pass the fact on and, if it is the trigger, the other generated
facts too. -/
def generate (d trigger : D) (generated : List D) : List D :=
  if d = trigger then d :: generated.filter (fun e => decide (e ≠ d)) else [d]

/-- Drop the fact if it is one of those killed. -/
def kill (d : D) (killed : List D) : List D :=
  if d ∈ killed then [] else [d]

/-- Pass on every partner of the fact; a fact without a partner does
not pass. -/
def transfer (d : D) (mapping : List (D × D)) : List D :=
  (mapping.filter fun (source, _) => decide (source = d)).map Prod.snd

end Tabulation.FlowFunction
