/-!
# Errors

What a cursor, a constructor or an absent value answers instead of an element. A refused argument
keeps only its text, so two refusals are equal when they read the same; the texts of the
refusals this library makes itself are listed once, by cause.
-/

namespace LazySeq

/-! ## Causes of refusal -/

/-- Why a combinator refuses its arguments. -/
inductive Refusal where
  /-- batches of no elements -/
  | emptyBatch
  /-- a slice that does not move on -/
  | standingStep
  /-- fewer than two sequences to walk in lockstep -/
  | fewToZip (got : Nat)
  /-- fewer than two sequences to multiply -/
  | fewToMultiply (got : Nat)
deriving DecidableEq

/-- The wording of a refusal. -/
def Refusal.text : Refusal → String
  | .emptyBatch => "Batch size must be greater than zero."
  | .standingStep => "Slice step must be greater than zero."
  | .fewToZip got => "Zip needs at least two sources, got " ++ toString got ++ "."
  | .fewToMultiply got => "Cartesian product needs at least two sources, got " ++ toString got ++ "."

/-! ## Errors and their messages -/

/-- An answer that is no element. -/
inductive Error where
  /-- an argument was refused, for the reason in the text -/
  | invalidArgument (text : String)
  /-- a cursor has nothing left -/
  | exhausted
  /-- an absent value was asked for -/
  | noSuchElement
deriving DecidableEq

/-- The error of a refused argument. -/
def Error.refused (cause : Refusal) : Error :=
  .invalidArgument cause.text

/-- The full message of an error. -/
def Error.message : Error → String
  | .invalidArgument text => "invalid argument: " ++ text
  | .exhausted => "cursor exhausted: no more elements"
  | .noSuchElement => "no such element: value is absent"

end LazySeq
