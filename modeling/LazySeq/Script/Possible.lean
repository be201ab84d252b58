import LazySeq.Maybe.Program
import LazySeq.Script.Run

/-!
# Scripts on a possible value

A script changes a possible value step by step and asks about it. Every question is put to a copy
of the state.
-/

namespace LazySeq

namespace Possible

/-! ## Questions -/

/-- A question about a possible value. -/
inductive Question where
  | presence
  | get
  | getOrElse (v : Value)
  | toOption
  | getOrCall (v : Value)
  | getOrThrow (v : Value)
  | toList
  | equals (other : Maybe Value)
  /-- equality of the texts on both sides -/
  | equalsText (other : Maybe Value)

/-- The answer of a step. -/
inductive Answer where
  | state (v : Option Value)
  | truths (bs : List Bool)
  | item (v : Value)
  | failed (e : Error)
  | value (v : Value)
  | called (v : Value) (calls : Nat)
  | thrown (v : Value)
  | items (vs : List Value)

/-- The text that is present, if any. -/
def text : Maybe Value → Maybe String
  | .present (.str s) => .present s
  | _ => .absent

/-- Answers a question. -/
def Question.answer (state : Maybe Value) : Question → Answer
  | presence => .truths [state.hasValue, state.hasNoValue]
  | get =>
    match state.get with
    | .ok v => .item v
    | .error e => .failed e
  | getOrElse v => .value (state.getOrElse v)
  | toOption => .state state.toOption
  | getOrCall v =>
    let supplier : StateM Nat Value := do
      modify (· + 1)
      return v
    let (v, calls) := (state.getOrCall supplier).run 0
    .called v calls
  | getOrThrow v =>
    match state.getOrThrow v with
    | .ok v => .item v
    | .error v => .thrown v
  | toList => .items state.toList
  | equals other =>
    let same := state.eqBy Value.beq other
    .truths [same, other.eqBy Value.beq state, !same]
  | equalsText other =>
    let same := (text state).eqBy (· == ·) (text other)
    .truths [same, !same]

/-- An answer as it is shown. -/
def Answer.shown : Answer → StateM Labels Answer
  | state v => return state (← Labels.option v)
  | item v => return item (← Labels.value v)
  | value v => return value (← Labels.value v)
  | called v calls => return called (← Labels.value v) calls
  | thrown v => return thrown (← Labels.value v)
  | items vs => return items (← Labels.values vs)
  | answer => return answer

/-! ## Steps -/

/-- A step of a script. -/
inductive Step where
  | change (c : Maybe.Change (Comp ScriptWorld) Value)
  | ask (q : Question)

/-- The change that maps the value. -/
def Step.map (f : Fn Log) : Step :=
  .change (.map (f.apply Script.fuel (Cursor.cells Script.fuel)))

/-- The change that keeps the image of the value under `f` if it passes `p`. -/
def Step.andThen (f : Fn Log) (p : Test Log) : Step :=
  .change (.andThen fun v => do
    let cells := Cursor.cells Script.fuel
    let v ← f.apply Script.fuel cells v
    if ← p.run cells v then return .present v else return .absent)

/-- The state and the answer after a step. -/
def Step.run (state : Maybe Value) : Step → Comp ScriptWorld (Maybe Value × Answer)
  | change c => do
    let state ← c.run state
    return (state, .state state.toOption)
  | ask q => return (state, q.answer state)

/-- The answers of the steps, in order. -/
def runFrom (state : Maybe Value) : List Step → Comp ScriptWorld (List Answer)
  | [] => return []
  | step :: steps => do
    let (state, answer) ← step.run state
    return answer :: (← runFrom state steps)

/-- The state at the beginning and the answers of the steps, as they are shown. -/
def run (state : Maybe Value) (steps : List Step) : Except Halt (List Answer) :=
  match (runFrom state steps).run (.fresh []) with
  | .error h _ => .error h
  | .ok answers _ => .ok (((Answer.state state.toOption :: answers).mapM Answer.shown).run #[]).1

end Possible

end LazySeq
