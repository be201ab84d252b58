import LazySeq.Cursor.Basic

/-!
# Starting a cursor

`Sequence.start` starts a cursor on a sequence. It starts the cursors below at once, left to right,
and asks none of them anything. Only the passes of a replay and the rows of a product wait until
they are needed.
-/

namespace LazySeq

namespace Sequence

variable {ω τ : Type}

mutual

/-- A new cursor on the sequence. -/
def start : Sequence ω τ → Comp (World ω τ) (Cursor ω τ)
  | source iterator => return .reading (.fresh iterator)
  | once cell => return .reading (.fresh (← World.takePass cell))
  | given begin machine => return .given machine (← World.onOuter begin)
  | cursors of => return .cursors (.fresh of)
  | onStart act of => do
    World.onOuter act
    of.start
  | map f of => return .map f (← of.start)
  | each act of => return .each act (← of.start)
  | filter p of => return .filter p (.fresh (← of.start))
  | takeWhile p of => return .takeWhile p (.fresh (← of.start))
  | dropWhile p of => return .dropWhile p (.fresh ⟨← of.start, true⟩)
  | slice window of => return .slice window (.fresh ⟨← of.start, 0⟩)
  | chain a b => return .chain (.first (← a.start) (← b.start))
  | concat of => return .concat ⟨← of.start, none⟩
  | replay passes of => return .replay of (.fresh passes)
  | pairs a b => return .pairs b ⟨← a.start, none⟩
  | zip of => return .zip ⟨← startTuple of, false⟩
  | zipAll of => return .zipAll ⟨← startList of, false⟩
  | batch size _ of => return .batches size (← World.adoptReader (← of.start))

/-- A new cursor on each sequence of a tuple. -/
def startTuple : Tuple (Sequence ω τ) → Comp (World ω τ) (Tuple (Cursor ω τ))
  | .pair a b => return .pair (← a.start) (← b.start)
  | .cons a others => return .cons (← a.start) (← startTuple others)

/-- A new cursor on each sequence of a list. -/
def startList : List (Sequence ω τ) → Comp (World ω τ) (List (Cursor ω τ))
  | [] => return []
  | a :: others => return (← a.start) :: (← startList others)

end

end Sequence

end LazySeq
