import LazySeq.Machine
import LazySeq.Tuple

/-!
# Several cursors in lockstep

A row is one element of each of several cursors. Before a row is taken every cursor is asked, in
order, and the first that has nothing left settles the answer; so when one runs dry no other has
lost an element. `Machine.latch` makes the first such answer final.

The cursors stand in a list (`Machine.listRow`) or in a tuple (`Machine.tupleRow`).
-/

namespace LazySeq

/-- Cursors walked in lockstep, and whether one of them has run dry. -/
structure Latched (ρ : Type) where
  cursors : ρ
  dry : Bool

namespace Machine

variable {ω ρ σ α : Type}

/-! ## Rows over a list of cursors -/

/-- Whether every cursor has an element left, asked in order up to the first that has not. -/
def allHaveNext (m : Machine ω σ α) : List σ → Comp ω (Bool × List σ)
  | [] => return (true, [])
  | s :: rest => do
    let (more, s) ← m.hasNext s
    if more then
      let (more, rest) ← m.allHaveNext rest
      return (more, s :: rest)
    else
      return (false, s :: rest)

/-- One element of every cursor, taken in order up to the first that fails. -/
def nextOfAll (m : Machine ω σ α) : List σ → Comp ω (Except Error (List α) × List σ)
  | [] => return (.ok [], [])
  | s :: rest => do
    match ← m.next s with
    | (.error e, s) => return (.error e, s :: rest)
    | (.ok a, s) => do
      let (row, rest) ← m.nextOfAll rest
      return (row.map (a :: ·), s :: rest)

/-- Rows over a list of cursors; over no cursors there is no row. -/
def listRow (m : Machine ω σ α) : Machine ω (List σ) (List α) where
  hasNext cursors := if cursors.isEmpty then return (false, cursors) else m.allHaveNext cursors
  next := m.nextOfAll

/-! ## Rows over a tuple of cursors -/

/-- Whether every cursor has an element left, asked in order up to the first that has not. -/
def tupleHasNext (m : Machine ω σ α) : Tuple σ → Comp ω (Bool × Tuple σ)
  | .pair s t => do
    let (more, s) ← m.hasNext s
    if more then
      let (more, t) ← m.hasNext t
      return (more, .pair s t)
    else
      return (false, .pair s t)
  | .cons s rest => do
    let (more, s) ← m.hasNext s
    if more then
      let (more, rest) ← m.tupleHasNext rest
      return (more, .cons s rest)
    else
      return (false, .cons s rest)

/-- One element of every cursor, taken in order up to the first that fails. -/
def tupleNext (m : Machine ω σ α) : Tuple σ → Comp ω (Except Error (Tuple α) × Tuple σ)
  | .pair s t => do
    match ← m.next s with
    | (.error e, s) => return (.error e, .pair s t)
    | (.ok a, s) => do
      let (b, t) ← m.next t
      return (b.map (Tuple.pair a), .pair s t)
  | .cons s rest => do
    match ← m.next s with
    | (.error e, s) => return (.error e, .cons s rest)
    | (.ok a, s) => do
      let (row, rest) ← m.tupleNext rest
      return (row.map (Tuple.cons a), .cons s rest)

/-- Rows over a tuple of cursors. -/
def tupleRow (m : Machine ω σ α) : Machine ω (Tuple σ) (Tuple α) where
  hasNext := m.tupleHasNext
  next := m.tupleNext

/-! ## The latch -/

/-- Asks for a row unless a row was once missing. -/
def latchHasNext (row : Machine ω ρ α) (l : Latched ρ) : Comp ω (Bool × Latched ρ) :=
  if l.dry then
    return (false, l)
  else do
    let (more, cursors) ← row.hasNext l.cursors
    return (more, ⟨cursors, !more⟩)

/-- Hands out row after row up to the first that is missing. -/
def latch (row : Machine ω ρ α) : Machine ω (Latched ρ) α where
  hasNext := row.latchHasNext
  next l := do
    let (more, l) ← row.latchHasNext l
    if more then
      let (answer, cursors) ← row.next l.cursors
      return (answer, ⟨cursors, l.dry⟩)
    else
      return (.error .exhausted, l)

end Machine

end LazySeq
