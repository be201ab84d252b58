import LazySeq.Sequence.Basic
import LazySeq.Stage.Batch
import LazySeq.Stage.Join
import LazySeq.Stage.Lockstep
import LazySeq.Stage.Product
import LazySeq.Stage.Replay

/-!
# Cursors and their world

A cursor is where a walk over a sequence stands: one state for every stage. It owns the cursors
below it. What several holders share lives in the `World` instead and is reached by number: a cursor
that is an element, the cursor below a family of batches, an iterator that is handed out once.

A number that was never given out stands for an empty cursor or a spent iterator.
-/

namespace LazySeq

/-- Where a walk over a sequence stands. -/
inductive Cursor (ω τ : Type) where
  /-- looking ahead on an iterator -/
  | reading (state : Peeked (Iterator ω τ) Value)
  /-- a cursor of the caller -/
  | given (machine : Machine ω τ Value) (state : τ)
  /-- a cursor that is an element -/
  | shared (id : CursorId)
  /-- looking ahead on the sequences to be started -/
  | cursors (state : Peeked (List (Sequence ω τ)) (Sequence ω τ))
  | map (f : Fn ω) (of : Cursor ω τ)
  | each (act : Value → Comp ω Unit) (of : Cursor ω τ)
  | filter (p : Test ω) (state : Peeked (Cursor ω τ) Value)
  | takeWhile (p : Test ω) (state : Peeked (Cursor ω τ) Value)
  | dropWhile (p : Test ω) (state : Peeked (Dropping (Cursor ω τ)) Value)
  | slice (window : Window) (state : Peeked (Counted (Cursor ω τ)) Value)
  | chain (state : Relay (Cursor ω τ) (Cursor ω τ))
  | concat (state : Nested (Cursor ω τ) (Cursor ω τ))
  | replay (of : Sequence ω τ) (state : Replay (Cursor ω τ))
  | pairs (inner : Sequence ω τ) (state : Rowed (Cursor ω τ) (Cursor ω τ) Value)
  | zip (state : Latched (Tuple (Cursor ω τ)))
  | zipAll (state : Latched (List (Cursor ω τ)))
  /-- a cursor that hands out batches of a shared reader -/
  | batches (size : Nat) (reader : Nat)
  /-- batch `k` of a shared reader -/
  | batch (k : Nat) (reader : Nat)

namespace Cursor

variable {ω τ : Type}

/-- A cursor over a list. -/
def ofList (xs : List Value) : Cursor ω τ :=
  reading (.fresh (.list xs))

/-- The walk over an element: a cursor goes on where it stands, anything else is walked by its
items. -/
def ofValue : Value → Cursor ω τ
  | .cursor id => shared id
  | v => ofList v.items

end Cursor

/-! ## The world -/

/-- What cursors act on. -/
structure World (ω τ : Type) where
  /-- the world of the caller -/
  outer : ω
  /-- the cursors that are elements -/
  cells : Array (Cursor ω τ)
  /-- the cursors being cut into batches -/
  readers : Array (Batching (Cursor ω τ) Value)
  /-- the iterators that are handed out once, while they are there -/
  passes : Array (Option (Iterator ω τ))

namespace World

variable {ω τ α : Type}

/-- A world in which nothing is shared yet. -/
def fresh (outer : ω) : World ω τ := ⟨outer, #[], #[], #[]⟩

/-! ## The caller's part -/

/-- The world with another caller's part. -/
def putOuter (outer : ω) (w : World ω τ) : World ω τ := { w with outer := outer }

/-- Acts on the caller's part. -/
def onOuter (act : Comp ω α) : Comp (World ω τ) α :=
  act.within World.outer putOuter

/-- A machine of the caller, as it acts on the whole world. -/
def ofOuter {σ : Type} (m : Machine ω σ α) : Machine (World ω τ) σ α :=
  m.within World.outer putOuter

/-! ## Cursors that are elements -/

/-- Puts a cursor into a new cell. -/
def adopt (c : Cursor ω τ) : Comp (World ω τ) CursorId := do
  let w ← get
  set { w with cells := w.cells.push c }
  return w.cells.size

/-- Calls the cursor in a cell and puts it back as it then stands. -/
def inCell (call : Cursor ω τ → Comp (World ω τ) (α × Cursor ω τ)) (id : CursorId) :
    Comp (World ω τ) (α × CursorId) := do
  let w ← get
  let (a, c) ← call (w.cells.getD id (.ofList []))
  modify fun w => { w with cells := w.cells.setIfInBounds id c }
  return (a, id)

/-- The behaviour of cells, from the behaviour of the cursors in them. -/
def cellMachine (m : Machine (World ω τ) (Cursor ω τ) Value) :
    Machine (World ω τ) CursorId Value where
  hasNext := inCell m.hasNext
  next := inCell m.next

/-! ## Shared readers -/

/-- Puts a cursor that is to be cut into batches into a new place. -/
def adoptReader (c : Cursor ω τ) : Comp (World ω τ) Nat := do
  let w ← get
  set { w with readers := w.readers.push (.fresh c) }
  return w.readers.size

/-- Calls on a shared reader and puts it back as it then stands. -/
def inReader
    (call : Batching (Cursor ω τ) Value → Comp (World ω τ) (α × Batching (Cursor ω τ) Value))
    (id : Nat) : Comp (World ω τ) (α × Nat) := do
  let w ← get
  let (a, b) ← call (w.readers.getD id (.fresh (.ofList [])))
  modify fun w => { w with readers := w.readers.setIfInBounds id b }
  return (a, id)

/-- The behaviour of shared readers, from the behaviour of their states. -/
def readerMachine (m : Machine (World ω τ) (Batching (Cursor ω τ) Value) α) :
    Machine (World ω τ) Nat α where
  hasNext := inReader m.hasNext
  next := inReader m.next

/-! ## Iterators that are handed out once -/

/-- Takes the iterator out of its place; nothing if it was taken before. -/
def takePass (cell : Nat) : Comp (World ω τ) (Iterator ω τ) := do
  let w ← get
  match w.passes.getD cell none with
  | none => return .list []
  | some iterator => do
    set { w with passes := w.passes.setIfInBounds cell none }
    return iterator

end World

end LazySeq
