import LazySeq.Callable

/-!
# The log of a script

The world that a script's own sources and callables act on is a log. Every event is written when it
happens.
-/

namespace LazySeq

/-- What happened. -/
inductive EventKind where
  /-- a cursor was started -/
  | start
  /-- an element was handed out -/
  | pull
  /-- an iterator brought an element -/
  | read
  /-- an iterator brought nothing -/
  | finish
  /-- an element was shown -/
  | each
  /-- a test is run -/
  | test
  /-- a function is run -/
  | function
  /-- a comparison is run -/
  | comparison

/-- An event, with the name of the place it happened at and the value it was about. -/
structure Event where
  kind : EventKind
  name : String
  value : Option Value

/-- Events, the latest first. -/
abbrev Log := List Event

namespace Log

/-- Writes an event. -/
def write (kind : EventKind) (name : String) (value : Option Value) : Comp Log Unit :=
  modify (⟨kind, name, value⟩ :: ·)

/-- Writes an event about a value. -/
def note (kind : EventKind) (name : String) (v : Value) : Comp Log Unit :=
  write kind name (some v)

/-! ## Callables that write -/

/-- Writes the argument and then applies the function. -/
def function (tag : String) (f : Fn Log) : Fn Log :=
  .andThen (.call fun v => do
    note .function tag v
    return v) f

/-- Writes the element and then runs the test. -/
def test (tag : String) (p : Test Log) : Test Log :=
  .after (note .test tag) p

/-- Writes both values and then compares them. -/
def comparison (tag : String) (compare : Value → Value → Comp Log Bool) (a b : Value) :
    Comp Log Bool := do
  note .comparison tag (.list [a, b])
  compare a b

end Log

end LazySeq
