import LazySeq.Stage.Peek
import LazySeq.Sequence.Basic

/-!
# Copies of a walk

A walk over a list can be copied where it stands; the copies go on independently. A walk here is the
state of a cursor that looks ahead on the list, read by guarded pulls.
-/

namespace LazySeq

namespace Fork

/-- A walk over a list. -/
abbrev Walk := Peeked (List Value) Value

/-- The behaviour of walks. -/
def machine : Machine Unit Walk Value :=
  .peek pullHead

/-- A step on the walks of a script, which go by name. -/
inductive Step where
  /-- one guarded pull -/
  | next (walk : String)
  /-- a copy under a new name -/
  | fork (walk : String) (name : String)
  /-- calls the cursor of the walk, on copies -/
  | inner (walk : String)

/-- The answer of a step. -/
inductive Answer where
  | pulled (v : Option Value)
  | forked
  /-- whether more is left, the next element, the one after it, and whether more is left once the
  first is taken -/
  | inner (has : Bool) (first second : Except Error Value) (hasAfter : Bool)

/-- Calls on copies of the cursor of a walk: a question, the next element, from there the one
after it, and from there a question again. -/
def probe (w : Walk) : Comp Unit Answer := do
  let (has, _) ← machine.hasNext w
  let (first, w) ← machine.next w
  let (second, _) ← machine.next w
  let (hasAfter, _) ← machine.hasNext w
  return .inner has first second hasAfter

/-- Runs a step; nothing if the name is unknown. -/
def Step.run (walks : List (String × Walk)) :
    Step → Option (Comp Unit (Answer × List (String × Walk)))
  | next name => (walks.lookup name).map fun w => do
    let (v, w) ← machine.pull? w
    return (.pulled v, (name, w) :: walks)
  | fork name copy => (walks.lookup name).map fun w =>
    return (.forked, (copy, w) :: walks)
  | inner name => (walks.lookup name).map fun w => return (← probe w, walks)

/-- Runs the steps in order; nothing if a name is unknown. -/
def runFrom (walks : List (String × Walk)) : List Step → Option (List Answer)
  | [] => some []
  | step :: steps => do
    match (← step.run walks).run () with
    | .ok (answer, walks) _ => return answer :: (← runFrom walks steps)
    | .error _ _ => none

/-- The walk that the steps begin with is named `a`. -/
def run (items : List Value) (steps : List Step) : Option (List Answer) :=
  runFrom [("a", .fresh items)] steps

end Fork

end LazySeq
