import LazySeq.Machine

/-!
# Transforming each element

`Machine.map` runs a mapper on every element as it is handed out, `Machine.each` only looks at it.
Both ask the machine below exactly what they are asked, and run nothing on an error.
-/

namespace LazySeq

namespace Machine

variable {ω σ α β : Type}

/-- Hands out `f a` for every element `a`. -/
def map (f : α → Comp ω β) (m : Machine ω σ α) : Machine ω σ β where
  hasNext := m.hasNext
  next s := do
    match ← m.next s with
    | (.ok a, s) => return (.ok (← f a), s)
    | (.error e, s) => return (.error e, s)

/-- Shows every element to `act` and hands it out unchanged. -/
def each (act : α → Comp ω Unit) (m : Machine ω σ α) : Machine ω σ α :=
  m.map fun a => do
    act a
    return a

end Machine

end LazySeq
