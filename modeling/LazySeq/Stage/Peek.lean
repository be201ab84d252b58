import LazySeq.Machine

/-!
# Looking one element ahead

Some cursors can only tell whether an element is left by fetching it. They keep it in a slot until
it is asked for. `Machine.peek` builds such a cursor from a way to fetch: each element is fetched
once, and after the first fetch that brings nothing there is no further one.
-/

namespace LazySeq

/-- A place for the element ahead. -/
inductive Slot (α : Type) where
  /-- nothing fetched since the last element was handed out -/
  | empty
  /-- fetched and not yet handed out -/
  | held (a : α)
  /-- a fetch brought nothing -/
  | closed

/-- A source with the slot of a cursor that looks ahead on it. -/
structure Peeked (σ α : Type) where
  source : σ
  slot : Slot α

/-- A cursor that has not looked yet. -/
def Peeked.fresh {α σ : Type} (source : σ) : Peeked σ α := ⟨source, .empty⟩

namespace Machine

variable {ω σ α : Type}

/-- Fetches into an empty slot and says whether an element is held. -/
def fill (fetch : σ → Comp ω (Option α × σ)) (p : Peeked σ α) : Comp ω (Bool × Peeked σ α) :=
  match p.slot with
  | .held _ => return (true, p)
  | .closed => return (false, p)
  | .empty => do
    match ← fetch p.source with
    | (some a, s) => return (true, ⟨s, .held a⟩)
    | (none, s) => return (false, ⟨s, .closed⟩)

/-- The machine that looks one element ahead by `fetch`. -/
def peek (fetch : σ → Comp ω (Option α × σ)) : Machine ω (Peeked σ α) α where
  hasNext := fill fetch
  next p := do
    let (_, p) ← fill fetch p
    match p.slot with
    | .held a => return (.ok a, ⟨p.source, .empty⟩)
    | _ => return (.error .exhausted, p)

end Machine

end LazySeq
