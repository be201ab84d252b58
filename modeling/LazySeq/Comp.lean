/-!
# Computations

Calling a cursor may act on a world outside it: a log, the cells other cursors live in, whatever a
caller's own source touches. A `Comp ω α` is a total function on the world `ω` that answers an `α`
or halts. Halting is not an error of a cursor, which is a value (`Error`): nothing handles a halt,
and the world it leaves behind is kept.
-/

namespace LazySeq

/-- Why a computation stopped without an answer. -/
inductive Halt where
  /-- a sequence that must not be traversed was started -/
  | poisoned
  /-- a search went on for more rounds than it was given -/
  | outOfFuel
deriving DecidableEq

/-- A computation that acts on a world `ω`. -/
abbrev Comp (ω : Type) := EStateM Halt ω

/-- The wording of a halt. -/
def Halt.message : Halt → String
  | .poisoned => "poisoned sequence traversed"
  | .outOfFuel => "search not finished"

namespace Comp

variable {ω υ α : Type}

/-- Runs a computation on a part of a larger world. The part is put back whether the computation
answers or halts. -/
def within (part : υ → ω) (put : ω → υ → υ) (act : Comp ω α) : Comp υ α := fun w =>
  match act (part w) with
  | .ok a v => .ok a (put v w)
  | .error h v => .error h (put v w)

end Comp

end LazySeq
