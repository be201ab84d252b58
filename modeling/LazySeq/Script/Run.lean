import LazySeq.Script.Collect
import LazySeq.Script.Label
import LazySeq.Script.Source

/-!
# Running a script

A script builds sequences, starts cursors and calls them, in any order. Every step has an answer and
the log of what happened during it. A halt is the answer of its step, and no step follows it.
-/

namespace LazySeq

/-- Expressions as scripts write them. -/
abbrev ScriptExpr := Expr Log (List Move)

/-- The world that scripts run in. -/
abbrev ScriptWorld := World Log (List Move)

namespace Script

/-- The rounds a search may take: two to the sixtieth, more than can be run. -/
def fuel : Nat := 1152921504606846976

/-! ## Answers -/

/-- The answer of a step. -/
inductive Answer where
  | built
  | started
  | truth (b : Bool)
  | item (v : Value)
  | failed (e : Error)
  | items (vs : List Value)
  | pulls (vs : List (Option Value))
  | halted (h : Halt)

/-- An answer as it is shown. -/
def Answer.shown : Answer → StateM Labels Answer
  | item v => return item (← Labels.value v)
  | items vs => return items (← Labels.values vs)
  | pulls vs => return pulls (← vs.mapM Labels.option)
  | answer => return answer

/-- The answer of a cursor that was asked for an element. -/
def Answer.ofExcept : Except Error Value → Answer
  | .ok v => item v
  | .error e => failed e

/-- The answer of a step and the events during it. -/
structure Entry where
  answer : Answer
  log : List Event

/-! ## Sessions -/

/-- What a script has made so far. -/
structure Session where
  sequences : Expr.Names Log (List Move)
  cursors : List (String × CursorId)
  labels : Labels
  world : ScriptWorld

/-- Nothing made yet. -/
def Session.fresh : Session := ⟨[], [], #[], .fresh []⟩

namespace Session

/-- Builds an expression among the sequences of the session. -/
def build (s : Session) (e : ScriptExpr) :
    Except Expr.Fault (Sequence Log (List Move) × Session) := do
  let (sequence, passes) ← (e.build s.sequences).run s.world.passes
  return (sequence, { s with world := { s.world with passes := passes } })

/-- Shows an answer with the events so far, which are then forgotten. -/
def report (s : Session) (answer : Answer) : Entry × Session :=
  let ((answer, log), labels) := (do
    let answer ← answer.shown
    return (answer, ← Labels.log s.world.outer) : StateM Labels _).run s.labels
  (⟨answer, log⟩, { s with labels := labels, world := { s.world with outer := [] } })

/-- The cursor under a name, or else under a label. -/
def cursor? (s : Session) (name : String) : Option CursorId :=
  match s.cursors.lookup name with
  | some id => some id
  | none => (List.range s.labels.size).findSome? fun k =>
      if name == "#" ++ toString k then s.labels[k]? else none

end Session

/-! ## Steps -/

/-- A call of a cursor. -/
inductive Call where
  | has
  | next
  | collect (limit : Nat) (resolution : Resolution)
  /-- this many guarded pulls -/
  | elements (n : Nat)

/-- A step of a script. -/
inductive Step where
  | build (name : String) (e : ScriptExpr)
  | start (name : String) (e : ScriptExpr)
  | call (cursor : String) (call : Call)

/-- Pulls `n` times, also after the end. -/
def pullTimes {ω σ : Type} (m : Machine ω σ Value) : Nat → σ → Comp ω (List (Option Value))
  | 0, _ => return []
  | n + 1, s => do
    let (v, s) ← m.pull? s
    return v :: (← pullTimes m n s)

/-- Calls a cursor. -/
def Call.run (id : CursorId) : Call → Comp ScriptWorld Answer
  | has => do
    let (more, _) ← (Cursor.cells fuel).hasNext id
    return .truth more
  | next => do
    let (answer, _) ← (Cursor.cells fuel).next id
    return .ofExcept answer
  | collect limit resolution => do
    let (vs, _) ← resolution.collect fuel limit (Cursor.cells fuel) id
    return .items vs
  | elements n => return .pulls (← pullTimes (Cursor.cells fuel) n id)

/-- How a step leaves the session. -/
inductive Outcome where
  | goesOn (s : Session)
  | stops

/-- Runs a computation in the world of the session; `finish` takes its answer. -/
def Session.perform {α : Type} (s : Session) (act : Comp ScriptWorld α)
    (finish : α → Session → Answer × Session) : Entry × Outcome :=
  match act.run s.world with
  | .ok a world =>
    let (answer, s) := finish a { s with world := world }
    let (entry, s) := s.report answer
    (entry, .goesOn s)
  | .error h world =>
    let (entry, _) := { s with world := world }.report (.halted h)
    (entry, .stops)

/-- Runs a step. A name that was never given is a fault of the script. -/
def Step.run (s : Session) : Step → Except Expr.Fault (Entry × Outcome)
  | build name e =>
    match s.build e with
    | .ok (sequence, s) =>
      let (entry, s) := s.report .built
      .ok (entry, .goesOn { s with sequences := (name, sequence) :: s.sequences })
    | .error (.refused error) =>
      let (entry, s) := s.report (.failed error)
      .ok (entry, .goesOn s)
    | .error fault => .error fault
  | start name e =>
    match s.build e with
    | .ok (sequence, s) =>
      .ok (s.perform (do World.adopt (← sequence.start)) fun id s =>
        (.started, { s with cursors := (name, id) :: s.cursors }))
    | .error (.refused error) =>
      let (entry, s) := s.report (.failed error)
      .ok (entry, .goesOn s)
    | .error fault => .error fault
  | call cursor c =>
    match s.cursor? cursor with
    | some id => .ok (s.perform (c.run id) fun answer s => (answer, s))
    | none => .error (.unbound cursor)

/-- Runs the steps in order, up to the first that halts. -/
def runFrom (s : Session) : List Step → Except Expr.Fault (List Entry)
  | [] => return []
  | step :: steps => do
    match ← step.run s with
    | (entry, .goesOn s) => return entry :: (← runFrom s steps)
    | (entry, .stops) => return [entry]

/-- Runs a script. -/
def run (steps : List Step) : Except Expr.Fault (List Entry) :=
  runFrom .fresh steps

/-! ## Collecting a sequence -/

/-- What came of collecting a sequence a number of times. -/
inductive Collected where
  | runs (vs : List (List Value)) (log : List Event)
  | halted (h : Halt)

/-- Starts a cursor and collects it, `times` over. -/
def collectTimes (sequence : Sequence Log (List Move)) (limit : Nat) (resolution : Resolution) :
    Nat → Comp ScriptWorld (List (List Value))
  | 0 => return []
  | n + 1 => do
    let (vs, _) ← resolution.collect fuel limit (Cursor.machine fuel) (← sequence.start)
    return vs :: (← collectTimes sequence limit resolution n)

/-- Builds an expression and collects it `times` over. -/
def collectRuns (e : ScriptExpr) (limit : Nat) (resolution : Resolution) (times : Nat) :
    Except Expr.Fault Collected := do
  let (sequence, s) ← Session.fresh.build e
  match (collectTimes sequence limit resolution times).run s.world with
  | .error h _ => return .halted h
  | .ok runs world =>
    let ((runs, log), _) := (do
      let runs ← runs.mapM Labels.values
      return (runs, ← Labels.log world.outer) : StateM Labels _).run s.labels
    return .runs runs log

end Script

end LazySeq
