import LazySeq.Sequence.Combinators

/-!
# Expressions for sequences

An expression names a sequence before its arguments have been checked: sequences built earlier occur
by name, sizes may be out of range. Building an expression builds its parts first, left to right,
and then checks its own arguments; the first refusal is the answer. The only thing building touches
is the list of places for iterators that are handed out once.
-/

namespace LazySeq

/-! ## Combinators of one sequence -/

/-- A combinator of one sequence with its arguments as written. -/
inductive Combinator (ω : Type) where
  | map (f : Fn ω)
  | index (key : Fn ω)
  | each (act : Value → Comp ω Unit)
  /-- runs `started` when a cursor is started and `pulled` on every element handed out -/
  | probe (started : Comp ω Unit) (pulled : Value → Comp ω Unit)
  | filter (p : Test ω)
  | reject (p : Test ω)
  | partition (p : Test ω) (matching : Bool)
  | takeWhile (p : Test ω)
  | takeUntil (p : Test ω)
  | dropWhile (p : Test ω)
  | dropUntil (p : Test ω)
  | take (n : Nat)
  | drop (n : Nat)
  | rest
  | slice (start : Nat) (stop : Option Nat) (step : Nat)
  | concat
  | cycle
  | repeated (passes : Nat)
  | enumerate
  | batch (size : Nat)
  /-- the sequence itself -/
  | same

/-- Applies a combinator, if it accepts its arguments. -/
def Combinator.applyTo? {ω τ : Type} (s : Sequence ω τ) :
    Combinator ω → Except Error (Sequence ω τ)
  | map f => .ok (s.map f)
  | index key => .ok (s.index key)
  | each act => .ok (s.each act)
  | probe started pulled => .ok (.onStart started (.each pulled s))
  | filter p => .ok (s.filter p)
  | reject p => .ok (s.reject p)
  | partition p true => .ok (s.partition p).1
  | partition p false => .ok (s.partition p).2
  | takeWhile p => .ok (s.takeWhile p)
  | takeUntil p => .ok (s.takeUntil p)
  | dropWhile p => .ok (s.dropWhile p)
  | dropUntil p => .ok (s.dropUntil p)
  | take n => .ok (s.take n)
  | drop n => .ok (s.drop n)
  | rest => .ok s.rest
  | slice start stop step => s.slice? start stop step
  | concat => .ok s.concat
  | cycle => .ok s.cycle
  | repeated passes => .ok (s.repeated passes)
  | enumerate => .ok s.enumerate
  | batch size => s.batch? size
  | same => .ok s

/-! ## Expressions -/

/-- A sequence as written. -/
inductive Expr (ω τ : Type) where
  /-- the sequence built earlier under this name -/
  | named (name : String)
  | source (iterator : Iterator ω τ)
  /-- an iterator that is handed out once -/
  | once (iterator : Iterator ω τ)
  | given (start : Comp ω τ) (machine : Machine ω τ Value)
  | cursors (of : List (Expr ω τ))
  | apply (combinator : Combinator ω) (of : Expr ω τ)
  | chain (a b : Expr ω τ)
  | equate (compare : Value → Value → Comp ω Bool) (a b : Expr ω τ)
  | zip (of : Tuple (Expr ω τ))
  | zipAll (of : List (Expr ω τ))
  /-- rows over any number of sequences, unchecked -/
  | zipAny (of : List (Expr ω τ))
  | product (of : Tuple (Expr ω τ))
  | productAll (of : List (Expr ω τ))
  /-- the stages one after the other, `times` over, each with the sequence so far under the name
  `Expr.soFar` -/
  | pipe (of : Expr ω τ) (stages : List (Expr ω τ)) (times : Nat)

namespace Expr

variable {ω τ : Type}

/-- The name of the sequence so far in the stages of a pipe. -/
def soFar : String := "_"

/-! ## Building -/

/-- Why an expression names no sequence. -/
inductive Fault where
  /-- a combinator refused its arguments -/
  | refused (error : Error)
  /-- nothing was built under this name -/
  | unbound (name : String)

/-- Building, with the places for iterators that are handed out once. -/
abbrev Build (ω τ : Type) := StateT (Array (Option (Iterator ω τ))) (Except Fault)

/-- The sequences built earlier, by name, the latest first. -/
abbrev Names (ω τ : Type) := List (String × Sequence ω τ)

/-- Takes the answer of a check. -/
def accept : Except Error (Sequence ω τ) → Build ω τ (Sequence ω τ)
  | .ok s => return s
  | .error e => throw (.refused e)

/-- Runs `f` on its own answers, `times` over. -/
def iterate {m : Type → Type} {α : Type} [Monad m] (f : α → m α) : Nat → α → m α
  | 0, a => return a
  | n + 1, a => do iterate f n (← f a)

mutual

/-- The sequence of an expression. -/
def build : Expr ω τ → Names ω τ → Build ω τ (Sequence ω τ)
  | named name, names =>
    match names.lookup name with
    | some s => return s
    | none => throw (.unbound name)
  | source iterator, _ => return .source iterator
  | once iterator, _ => do
    let places ← get
    set (places.push (some iterator))
    return .once places.size
  | given start machine, _ => return .given start machine
  | cursors of, names => return .cursors (← buildList of names)
  | apply combinator of, names => do
    let s ← of.build names
    accept (combinator.applyTo? s)
  | chain a b, names => return .chain (← a.build names) (← b.build names)
  | equate compare a b, names => return .equate compare (← a.build names) (← b.build names)
  | zip of, names => return .zip (← buildTuple of names)
  | zipAll of, names => do accept (Sequence.zipAll? (← buildList of names))
  | zipAny of, names => return .zipAll (← buildList of names)
  | product of, names => return .product (← buildTuple of names)
  | productAll of, names => do accept (Sequence.productAll? (← buildList of names))
  | pipe of stages times, names => do
    iterate (fun s => buildStages stages names s) times (← of.build names)

/-- The sequences of a tuple of expressions. -/
def buildTuple : Tuple (Expr ω τ) → Names ω τ → Build ω τ (Tuple (Sequence ω τ))
  | .pair a b, names => return .pair (← a.build names) (← b.build names)
  | .cons a others, names => return .cons (← a.build names) (← buildTuple others names)

/-- The sequences of a list of expressions. -/
def buildList : List (Expr ω τ) → Names ω τ → Build ω τ (List (Sequence ω τ))
  | [], _ => return []
  | a :: others, names => return (← a.build names) :: (← buildList others names)

/-- The sequence after the stages, each built on the one before. -/
def buildStages : List (Expr ω τ) → Names ω τ → Sequence ω τ → Build ω τ (Sequence ω τ)
  | [], _, s => return s
  | stage :: stages, names, s => do
    buildStages stages names (← stage.build ((soFar, s) :: names))

end

end Expr

end LazySeq
