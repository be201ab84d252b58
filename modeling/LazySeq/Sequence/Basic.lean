import LazySeq.Callable
import LazySeq.Machine
import LazySeq.Stage.Select
import LazySeq.Tuple

/-!
# Sequences

A sequence describes a stream of elements; it holds no position. Whoever wants the elements starts
a cursor on it, any number of them, each with a position of its own. A sequence is a tree of
stages over sources. Describing one touches no source and runs no callable: `Sequence` is plain data.

`ω` is the world of the caller, `τ` the states of the iterators and cursors that the caller wrote.
-/

namespace LazySeq

/-! ## Iterators -/

/-- Something that can be asked for one more element. It may bring nothing and go on later. -/
inductive Iterator (ω τ : Type) where
  /-- the elements of a list -/
  | list (xs : List Value)
  /-- the integers from `next` on, below `stop` if there is one -/
  | count (next : Int) (stop : Option Int)
  /-- an iterator of the caller -/
  | given (pull : τ → Comp ω (Option Value × τ)) (state : τ)

/-- Asks a list for its head. -/
def pullHead {α ω : Type} : List α → Comp ω (Option α × List α)
  | [] => return (none, [])
  | a :: rest => return (some a, rest)

/-- Asks an iterator for one more element. -/
def Iterator.pull {ω τ : Type} : Iterator ω τ → Comp ω (Option Value × Iterator ω τ)
  | .list xs => do
    let (v, xs) ← pullHead xs
    return (v, .list xs)
  | .count next stop =>
    if stop.any (· ≤ next) then
      return (none, .count next stop)
    else
      return (some (.int next), .count (next + 1) stop)
  | .given pull state => do
    let (v, state) ← pull state
    return (v, .given pull state)

/-! ## Sequences -/

/-- A sequence. -/
inductive Sequence (ω τ : Type) where
  /-- every cursor walks the iterator from its beginning -/
  | source (iterator : Iterator ω τ)
  /-- the first cursor ever started takes the iterator in the cell; the others find nothing -/
  | once (cell : Nat)
  /-- a cursor of the caller -/
  | given (start : Comp ω τ) (machine : Machine ω τ Value)
  /-- every element is a new cursor, started on the next of the sequences when it is handed out -/
  | cursors (of : List (Sequence ω τ))
  /-- runs `act` whenever a cursor is started -/
  | onStart (act : Comp ω Unit) (of : Sequence ω τ)
  | map (f : Fn ω) (of : Sequence ω τ)
  /-- shows every element to `act` as it is handed out -/
  | each (act : Value → Comp ω Unit) (of : Sequence ω τ)
  | filter (p : Test ω) (of : Sequence ω τ)
  | takeWhile (p : Test ω) (of : Sequence ω τ)
  | dropWhile (p : Test ω) (of : Sequence ω τ)
  | slice (window : Window) (of : Sequence ω τ)
  | chain (a b : Sequence ω τ)
  /-- the elements of the elements: a cursor is walked itself, any other element by its items -/
  | concat (of : Sequence ω τ)
  /-- pass after pass, at most `passes` of them if limited -/
  | replay (passes : Option Nat) (of : Sequence ω τ)
  /-- every element of `a` with every element of `b`, row by row -/
  | pairs (a b : Sequence ω τ)
  | zip (of : Tuple (Sequence ω τ))
  | zipAll (of : List (Sequence ω τ))
  /-- cursors over runs of `size` elements -/
  | batch (size : Nat) (size_pos : 0 < size) (of : Sequence ω τ)

end LazySeq
