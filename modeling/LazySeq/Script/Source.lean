import LazySeq.Script.Log
import LazySeq.Script.Expr

/-!
# Sources written out step by step

Iterators and cursors that play a list of moves. A played cursor may break every rule: it may
say that more is left and then fail, or say that nothing is left and go on later.
-/

namespace LazySeq

/-- One step of a played source. -/
inductive Move where
  /-- an element, announced -/
  | item (v : Value)
  /-- announced, and then a failure -/
  | fail (error : Error)
  /-- an element, not announced -/
  | hide (v : Value)
  /-- nothing, for as many questions as it says -/
  | gap (questions : Nat)

namespace Move

/-! ## As a cursor -/

/-- Whether the played cursor says that more is left. -/
def hasNext : List Move → Bool × List Move
  | .item v :: moves => (true, .item v :: moves)
  | .fail e :: moves => (true, .fail e :: moves)
  | .hide v :: moves => (false, .hide v :: moves)
  | .gap (n + 2) :: moves => (false, .gap (n + 1) :: moves)
  | .gap _ :: moves => (false, moves)
  | [] => (false, [])

/-- The next element of the played cursor. -/
def next : List Move → Except Error Value × List Move
  | .item v :: moves => (.ok v, moves)
  | .fail e :: moves => (.error e, moves)
  | .hide v :: moves => (.ok v, moves)
  | .gap n :: moves => (.error .exhausted, .gap n :: moves)
  | [] => (.error .exhausted, [])

/-- The behaviour of played cursors. -/
def machine {ω : Type} : Machine ω (List Move) Value where
  hasNext moves := return hasNext moves
  next moves := return next moves

/-! ## As an iterator -/

/-- Asks a played iterator, which writes what it brings. Everything but an element is a gap. -/
def pull (name : String) : List Move → Comp Log (Option Value × List Move)
  | .item v :: moves => do
    Log.note .read name v
    return (some v, moves)
  | _ :: moves => do
    Log.write .finish name none
    return (none, moves)
  | [] => do
    Log.write .finish name none
    return (none, [])

end Move

namespace Expr

/-- A sequence whose cursors play the moves. -/
def played (moves : List Move) : Expr Log (List Move) :=
  given (return moves) Move.machine

/-- A sequence that must not be traversed. -/
def poisoned : Expr Log (List Move) :=
  given (throw .poisoned) Move.machine

/-- The iterator that plays the moves. -/
def playedIterator (name : String) (moves : List Move) : Iterator Log (List Move) :=
  .given (Move.pull name) moves

/-- Writes when a cursor is started and what it hands out. -/
def probe (name : String) (of : Expr Log (List Move)) : Expr Log (List Move) :=
  apply (.probe (Log.write .start name none) (Log.note .pull name)) of

end Expr

end LazySeq
