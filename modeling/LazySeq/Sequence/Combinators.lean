import LazySeq.Sequence.Basic
import LazySeq.Error

/-!
# Combinators

The public ways to put sequences together. Those that can be given arguments they cannot work with
answer an `Error` instead of a sequence; the check is on the arguments alone.
-/

namespace LazySeq

namespace Sequence

variable {ω τ : Type}

/-! ## Selecting -/

/-- The first `n` elements. -/
def take (n : Nat) : Sequence ω τ → Sequence ω τ :=
  slice (.contiguous 0 (some n))

/-- All but the first `n` elements. -/
def drop (n : Nat) : Sequence ω τ → Sequence ω τ :=
  slice (.contiguous n none)

/-- All but the first element. -/
def rest : Sequence ω τ → Sequence ω τ :=
  drop 1

/-- The elements at positions `start`, `start + step`, … below `stop`. -/
def slice? (start : Nat) (stop : Option Nat) (step : Nat) (s : Sequence ω τ) :
    Except Error (Sequence ω τ) :=
  if h : 0 < step then
    .ok (slice ⟨start, stop, step, h⟩ s)
  else
    .error (.refused .standingStep)

/-- The elements that fail the test. -/
def reject (p : Test ω) : Sequence ω τ → Sequence ω τ :=
  filter (.not p)

/-- The elements that pass the test, and those that fail it. -/
def partition (p : Test ω) (s : Sequence ω τ) : Sequence ω τ × Sequence ω τ :=
  (filter p s, reject p s)

/-- The leading elements that fail the test. -/
def takeUntil (p : Test ω) : Sequence ω τ → Sequence ω τ :=
  takeWhile (.not p)

/-- All but the leading elements that fail the test. -/
def dropUntil (p : Test ω) : Sequence ω τ → Sequence ω τ :=
  dropWhile (.not p)

/-! ## Going round -/

/-- The sequence again and again. -/
def cycle : Sequence ω τ → Sequence ω τ :=
  replay none

/-- The sequence `passes` times. -/
def repeated (passes : Nat) : Sequence ω τ → Sequence ω τ :=
  replay (some passes)

/-! ## Lockstep -/

/-- Rows over two sequences or more. -/
def zipAll? (of : List (Sequence ω τ)) : Except Error (Sequence ω τ) :=
  if of.length < 2 then
    .error (.refused (.fewToZip of.length))
  else
    .ok (zipAll of)

/-- Every element with its position. -/
def enumerate (s : Sequence ω τ) : Sequence ω τ :=
  zip (.pair (source (.count 0 none)) s)

/-- Every element with its key. The sequence is walked twice, once for the keys. -/
def index (key : Fn ω) (s : Sequence ω τ) : Sequence ω τ :=
  zip (.pair (map key s) s)

/-- The answer of a comparison on a row of two, as a value. -/
def compareRow (compare : Value → Value → Comp ω Bool) : Value → Comp ω Value
  | .list [a, b] => .bool <$> compare a b
  | row => return row

/-- Whether the elements at equal positions compare well. -/
def equate (compare : Value → Value → Comp ω Bool) (a b : Sequence ω τ) : Sequence ω τ :=
  map (.call (compareRow compare)) (zip (.pair a b))

/-! ## Products -/

/-- The things in `k` nested pairs: `spread 2` of `[a, [b, c]]` is `a`, `b`, `c`. -/
def spread : Nat → Value → List Value
  | k + 1, .list [a, rest] => a :: spread k rest
  | _, v => [v]

/-- Pairs of pairs, nested to the right. -/
def nestedPairs : Tuple (Sequence ω τ) → Sequence ω τ
  | .pair a b => pairs a b
  | .cons a rest => pairs a (nestedPairs rest)

/-- Every way to take one element of each sequence; the last varies fastest. -/
def product : Tuple (Sequence ω τ) → Sequence ω τ
  | .pair a b => pairs a b
  | .cons a rest => map (.pure fun v => .list (spread rest.size v)) (pairs a (nestedPairs rest))

/-- The row with `a` in front. -/
def prependRow : Value → Value
  | .list [a, .list row] => .list (a :: row)
  | v => v

/-- The same rows, from the first sequence and the rows over the others. -/
def productOf (a b : Sequence ω τ) : List (Sequence ω τ) → Sequence ω τ
  | [] => pairs a b
  | c :: others => map (.pure prependRow) (pairs a (productOf b c others))

/-- Rows over two sequences or more, one for every way to take one element of each. -/
def productAll? : List (Sequence ω τ) → Except Error (Sequence ω τ)
  | a :: b :: others => .ok (productOf a b others)
  | few => .error (.refused (.fewToMultiply few.length))

/-! ## Batches -/

/-- Cursors over runs of `size` consecutive elements; the last may be shorter. -/
def batch? (size : Nat) (s : Sequence ω τ) : Except Error (Sequence ω τ) :=
  if h : 0 < size then
    .ok (batch size h s)
  else
    .error (.refused .emptyBatch)

end Sequence

end LazySeq
