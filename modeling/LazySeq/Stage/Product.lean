import LazySeq.Machine

/-!
# Pairs of two sequences

`Machine.pairs` walks an outer cursor once and, for each of its elements, the inner sequence from a
cursor started anew: row after row.
-/

namespace LazySeq

/-- An outer cursor and the row being walked: the outer element with a cursor of the inner
sequence. -/
structure Rowed (σ τ α : Type) where
  outer : σ
  row : Option (α × τ)

namespace Machine

variable {ω σ τ α β : Type}

/-- Asks the row being walked, if there is one. -/
def rowHasNext (k : Machine ω τ β) : Option (α × τ) → Comp ω (Bool × Option (α × τ))
  | none => return (false, none)
  | some (a, t) => do
    let (more, t) ← k.hasNext t
    return (more, some (a, t))

/-- Goes to the next row that has an element. An outer cursor that fails has no further rows. -/
def seekRow (m : Machine ω σ α) (start : Comp ω τ) (k : Machine ω τ β) :
    Nat → Rowed σ τ α → Comp ω (Bool × Rowed σ τ α)
  | 0, _ => throw .outOfFuel
  | n + 1, c => do
    let (more, row) ← k.rowHasNext c.row
    if more then
      return (true, ⟨c.outer, row⟩)
    else
      match ← m.pull? c.outer with
      | (none, outer) => return (false, ⟨outer, none⟩)
      | (some a, outer) => seekRow m start k n ⟨outer, some (a, ← start)⟩

/-- Hands out every element of `m` paired with every element of a fresh walk of the inner
sequence. -/
def pairs (fuel : Nat) (m : Machine ω σ α) (start : Comp ω τ) (k : Machine ω τ β) :
    Machine ω (Rowed σ τ α) (α × β) where
  hasNext := seekRow m start k fuel
  next c := do
    match ← seekRow m start k fuel c with
    | (true, ⟨outer, some (a, t)⟩) => do
      let (answer, t) ← k.next t
      return (answer.map (a, ·), ⟨outer, some (a, t)⟩)
    | (_, c) => return (.error .exhausted, c)

end Machine

end LazySeq
