import LazySeq.Comp
import LazySeq.Error

/-!
# Machines

A machine is the behaviour of a kind of cursor: from a state, it answers whether another element
is left and hands out the next one. Nothing forces the two answers to agree; a cursor that a caller
wrote may say that more is left and then fail, or say that nothing is left and go on later. The
stages of this library are functions from machines to machines, for any machine below them.

`Machine.pull?` is the guarded pull: it asks first, and takes a failure for the end.
-/

namespace LazySeq

/-- The behaviour of cursors with states in `σ` and elements in `α`, acting on a world `ω`. -/
structure Machine (ω σ α : Type) where
  /-- whether another element is left -/
  hasNext : σ → Comp ω (Bool × σ)
  /-- the next element, or why there is none -/
  next : σ → Comp ω (Except Error α × σ)

namespace Machine

variable {ω υ σ τ α β : Type}

/-! ## Guarded pulls -/

/-- Asks whether an element is left and only then takes it; an error counts as the end. -/
def pull? (m : Machine ω σ α) (s : σ) : Comp ω (Option α × σ) := do
  let (more, s) ← m.hasNext s
  if more then
    let (answer, s) ← m.next s
    return (answer.toOption, s)
  else
    return (none, s)

/-- Pulls until the end, or until as many elements as allowed have been taken, in which case
`full` runs and no further question is asked. `taken` holds what was taken before, newest first. -/
def gather (m : Machine ω σ α) (full : Comp ω Unit) : Nat → List α → σ → Comp ω (List α × σ)
  | 0, taken, s => do
    full
    return (taken.reverse, s)
  | n + 1, taken, s => do
    match ← m.pull? s with
    | (none, s) => return (taken.reverse, s)
    | (some a, s) => m.gather full n (a :: taken) s

/-- The elements up to the end, but at most `limit` of them. -/
def collect (m : Machine ω σ α) (limit : Nat) (s : σ) : Comp ω (List α × σ) :=
  m.gather (pure ()) limit [] s

/-- All elements up to the end. -/
def drain (m : Machine ω σ α) (fuel : Nat) (s : σ) : Comp ω (List α × σ) :=
  m.gather (throw .outOfFuel) fuel [] s

/-! ## Change of world and of state -/

/-- The same machine in a larger world. -/
def within (part : υ → ω) (put : ω → υ → υ) (m : Machine ω σ α) : Machine υ σ α where
  hasNext s := (m.hasNext s).within part put
  next s := (m.next s).within part put

end Machine

end LazySeq
