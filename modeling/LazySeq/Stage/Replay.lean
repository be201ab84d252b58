import LazySeq.Machine

/-!
# Pass after pass

`Machine.replay` walks a sequence again and again, each time from a cursor started anew. A pass
that hands out nothing ends it, so that an empty sequence, or one that can be walked only once,
is not started for ever. At most one cursor is started by one call.
-/

namespace LazySeq

/-- Where a replay stands. `left` is the number of passes that may still be started, if limited. -/
inductive Replay (σ : Type) where
  /-- no pass has been started -/
  | fresh (left : Option Nat)
  /-- a pass goes on; `yielded` once an element of it was asked for -/
  | running (pass : σ) (yielded : Bool) (left : Option Nat)
  /-- nothing will be started any more -/
  | ended

namespace Machine

variable {ω σ α : Type}

/-- Starts a pass and asks it, unless no pass is left. -/
def startPass (start : Comp ω σ) (m : Machine ω σ α) : Option Nat → Comp ω (Bool × Replay σ)
  | some 0 => return (false, .ended)
  | left => do
    let (more, s) ← m.hasNext (← start)
    if more then
      return (true, .running s false (left.map (· - 1)))
    else
      return (false, .ended)

/-- Whether the pass goes on or another can follow it. -/
def replayHasNext (start : Comp ω σ) (m : Machine ω σ α) : Replay σ → Comp ω (Bool × Replay σ)
  | .fresh left => m.startPass start left
  | .running s yielded left => do
    let (more, s) ← m.hasNext s
    if more then
      return (true, .running s yielded left)
    else if yielded then
      m.startPass start left
    else
      return (false, .ended)
  | .ended => return (false, .ended)

/-- Hands out the elements of pass after pass. -/
def replay (start : Comp ω σ) (m : Machine ω σ α) : Machine ω (Replay σ) α where
  hasNext := m.replayHasNext start
  next r := do
    match ← m.replayHasNext start r with
    | (true, .running s _ left) => do
      let (answer, s) ← m.next s
      return (answer, .running s true left)
    | (_, r) => return (.error .exhausted, r)

end Machine

end LazySeq
