import LazySeq.Maybe.Basic

/-!
# Programs on a possible value

A change is one step that replaces a possible value; `Change.run` performs it. The functions in a
change act in any monad `m`.
-/

namespace LazySeq

namespace Maybe

/-- A step that replaces a possible value. -/
inductive Change (m : Type → Type) (α : Type) where
  | set (v : Maybe α)
  | or (other : Maybe α)
  | orSome (a : α)
  | orOption (o : Option α)
  | map (f : α → m α)
  | andThen (f : α → m (Maybe α))

/-- The possible value after a step. -/
def Change.run {m : Type → Type} {α : Type} [Monad m] (state : Maybe α) :
    Change m α → m (Maybe α)
  | set v => return v
  | or other => return state.or other
  | orSome a => return state.orSome a
  | orOption o => return state.orOption o
  | map f => state.mapM f
  | andThen f => state.andThenM f

/-- The possible value after all steps, in order. -/
def Change.runAll {m : Type → Type} {α : Type} [Monad m] :
    List (Change m α) → Maybe α → m (Maybe α)
  | [], state => return state
  | step :: steps, state => do runAll steps (← step.run state)

end Maybe

end LazySeq
