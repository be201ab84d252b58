import LazySeq.Cursor.Start
import LazySeq.Stage.Transform

/-!
# Calling a cursor

`Cursor.machine` is the behaviour of all cursors. Every stage is the machine of that stage over the
machine of the cursors below it; `Cursor.view` says which machine that is and on which part of
the cursor it works. A cursor can reach others that are not below it, the ones that are elements, so
the machine is tied together by fuel: each level of calls, and each round of a search, uses
one unit.
-/

namespace LazySeq

variable {ω τ : Type}

/-! ## Callables -/

/-- Applies a function to an element. `cells` calls the cursors that are elements. -/
def Fn.apply (fuel : Nat) (cells : Machine (World ω τ) CursorId Value) :
    Fn ω → Value → Comp (World ω τ) Value
  | .call f, v => World.onOuter (f v)
  | .andThen f g, v => do g.apply fuel cells (← f.apply fuel cells v)
  | .walk, v => return .cursor (← World.adopt (.ofList v.items))
  | .drain, .cursor id => do
    let (xs, _) ← cells.drain fuel id
    return .list xs
  | .first, .cursor id => do
    let (answer, _) ← cells.next id
    return answer.toOption.getD .null
  | _, v => return v

/-- Runs a test on an element. -/
def Test.run (cells : Machine (World ω τ) CursorId Value) : Test ω → Value → Comp (World ω τ) Bool
  | .call p, v => World.onOuter (p v)
  | .hasNext, .cursor id => do
    let (more, _) ← cells.hasNext id
    return more
  | .hasNext, _ => return false
  | .not p, v => return !(← p.run cells v)
  | .and p q, v => do
    if ← p.run cells v then q.run cells v else return false
  | .or p q, v => do
    if ← p.run cells v then return true else q.run cells v
  | .after note p, v => do
    World.onOuter (note v)
    p.run cells v

/-! ## One stage -/

/-- A cursor seen as a state of the machine of its outermost stage. -/
structure Cursor.View (ω τ : Type) where
  State : Type
  stage : Machine (World ω τ) State Value
  state : State
  wrap : State → Cursor ω τ

/-- The machine that looks ahead on iterators. -/
def Iterator.machine : Machine (World ω τ) (Peeked (Iterator ω τ) Value) Value :=
  .peek fun iterator => World.onOuter iterator.pull

/-- Starts a cursor and makes it an element. -/
def Sequence.startAsValue (s : Sequence ω τ) : Comp (World ω τ) Value := do
  return .cursor (← World.adopt (← s.start))

/-- The outermost stage of a cursor, over the machine of the cursors below. -/
def Cursor.view (fuel : Nat) (below : Machine (World ω τ) (Cursor ω τ) Value) :
    Cursor ω τ → View ω τ
  | reading state => ⟨_, Iterator.machine, state, reading⟩
  | given machine state => ⟨_, World.ofOuter machine, state, given machine⟩
  | shared id => ⟨_, World.cellMachine below, id, shared⟩
  | cursors state => ⟨_, (Machine.peek pullHead).map Sequence.startAsValue, state, cursors⟩
  | map f of => ⟨_, below.map (f.apply fuel (World.cellMachine below)), of, map f⟩
  | each act of => ⟨_, below.each fun v => World.onOuter (act v), of, each act⟩
  | filter p state =>
    ⟨_, below.filter fuel (p.run (World.cellMachine below)), state, filter p⟩
  | takeWhile p state =>
    ⟨_, below.takeWhile (p.run (World.cellMachine below)), state, takeWhile p⟩
  | dropWhile p state =>
    ⟨_, below.dropWhile fuel (p.run (World.cellMachine below)), state, dropWhile p⟩
  | slice window state => ⟨_, below.slice fuel window, state, slice window⟩
  | chain state => ⟨_, below.chain below, state, chain⟩
  | concat state =>
    ⟨_, Machine.flatten fuel (below.map fun v => return ofValue v) below, state, concat⟩
  | replay of state => ⟨_, below.replay of.start, state, replay of⟩
  | pairs inner state =>
    ⟨_, (below.pairs fuel inner.start below).map fun (a, b) => return .list [a, b], state,
      pairs inner⟩
  | zip state =>
    ⟨_, below.tupleRow.latch.map fun row => return .list row.toList, state, zip⟩
  | zipAll state => ⟨_, below.listRow.latch.map fun row => return .list row, state, zipAll⟩
  | batches size reader =>
    ⟨_, (World.readerMachine (below.batches size)).map fun k =>
      return .cursor (← World.adopt (batch k reader)), reader, batches size⟩
  | batch k reader => ⟨_, World.readerMachine (below.batch k), reader, batch k⟩

/-! ## All stages -/

/-- Calls the outermost stage of a cursor. -/
def Cursor.through (fuel : Nat) (below : Machine (World ω τ) (Cursor ω τ) Value) :
    Machine (World ω τ) (Cursor ω τ) Value where
  hasNext c := do
    let v := c.view fuel below
    let (more, state) ← v.stage.hasNext v.state
    return (more, v.wrap state)
  next c := do
    let v := c.view fuel below
    let (answer, state) ← v.stage.next v.state
    return (answer, v.wrap state)

/-- The behaviour of cursors. -/
def Cursor.machine : Nat → Machine (World ω τ) (Cursor ω τ) Value
  | 0 => ⟨fun _ => throw .outOfFuel, fun _ => throw .outOfFuel⟩
  | n + 1 =>
    { hasNext := fun c => (through n (machine n)).hasNext c
      next := fun c => (through n (machine n)).next c }

/-- The behaviour of cursors that are elements. -/
def Cursor.cells (fuel : Nat) : Machine (World ω τ) CursorId Value :=
  World.cellMachine (Cursor.machine fuel)

end LazySeq
