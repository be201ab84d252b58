import LazySeq.Machine

/-!
# One cursor after another

`Machine.chain` goes through a first machine and then a second. `Machine.flatten` goes through the
cursors that an outer machine hands out, taking the next one only when the current one has nothing
left. Neither looks ahead by itself.
-/

namespace LazySeq

/-! ## States -/

/-- Where a chain of two cursors stands. -/
inductive Relay (σ τ : Type) where
  /-- the first is being walked -/
  | first (now : σ) (later : τ)
  /-- the first said it had nothing left -/
  | second (now : τ)

/-- An outer cursor and the inner cursor it handed out last. -/
structure Nested (σ τ : Type) where
  outer : σ
  current : Option τ

namespace Machine

variable {ω σ τ α : Type}

/-! ## Two in a row -/

/-- Asks the first as long as it says that more is left, then the second for ever. -/
def chainHasNext (m : Machine ω σ α) (k : Machine ω τ α) : Relay σ τ → Comp ω (Bool × Relay σ τ)
  | .first s t => do
    let (more, s) ← m.hasNext s
    if more then
      return (true, .first s t)
    else
      let (more, t) ← k.hasNext t
      return (more, .second t)
  | .second t => do
    let (more, t) ← k.hasNext t
    return (more, .second t)

/-- Hands out the elements of `m` and then those of `k`. Once on `k` it is `k` that answers, with
its own error at its end. -/
def chain (m : Machine ω σ α) (k : Machine ω τ α) : Machine ω (Relay σ τ) α where
  hasNext := chainHasNext m k
  next r := do
    match ← chainHasNext m k r with
    | (_, .first s t) => do
      let (answer, s) ← m.next s
      return (answer, .first s t)
    | (_, .second t) => do
      let (answer, t) ← k.next t
      return (answer, .second t)

/-! ## Any number in a row -/

/-- Asks the current inner cursor, if there is one. -/
def currentHasNext (k : Machine ω τ α) : Option τ → Comp ω (Bool × Option τ)
  | none => return (false, none)
  | some t => do
    let (more, t) ← k.hasNext t
    return (more, some t)

/-- Goes to the next inner cursor that has an element. An outer cursor that fails to hand one out
is asked again. -/
def settle (m : Machine ω σ τ) (k : Machine ω τ α) : Nat → Nested σ τ → Comp ω (Bool × Nested σ τ)
  | 0, _ => throw .outOfFuel
  | n + 1, c => do
    let (more, current) ← k.currentHasNext c.current
    if more then
      return (true, ⟨c.outer, current⟩)
    else
      let (more, outer) ← m.hasNext c.outer
      if more then
        let (answer, outer) ← m.next outer
        settle m k n ⟨outer, answer.toOption⟩
      else
        return (false, ⟨outer, none⟩)

/-- Hands out the elements of the cursors that `m` hands out, one cursor after the other. -/
def flatten (fuel : Nat) (m : Machine ω σ τ) (k : Machine ω τ α) : Machine ω (Nested σ τ) α where
  hasNext := settle m k fuel
  next c := do
    match ← settle m k fuel c with
    | (true, ⟨outer, some t⟩) => do
      let (answer, t) ← k.next t
      return (answer, ⟨outer, some t⟩)
    | (_, c) => return (.error .exhausted, c)

end Machine

end LazySeq
