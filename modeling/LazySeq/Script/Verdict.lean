import LazySeq.Script.Run

/-!
# Verdicts of a test

A test, its negation and its double negation, on a list of values.
-/

namespace LazySeq

namespace Test

variable {ω : Type}

/-- Whether the value passes `p`, fails it, and fails to fail it. -/
def verdicts (p : Test Log) (v : Value) : Comp ScriptWorld (List Bool) :=
  [p, .not p, .not (.not p)].mapM fun q => q.run (Cursor.cells Script.fuel) v

/-- The verdicts on each value, in order. -/
def table (p : Test Log) (vs : List Value) : Except Halt (List (List Bool)) :=
  match (vs.mapM p.verdicts).run (.fresh []) with
  | .ok rows _ => .ok rows
  | .error h _ => .error h

end Test

end LazySeq
