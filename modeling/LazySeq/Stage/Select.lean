import LazySeq.Stage.Peek

/-!
# Selecting elements

Four ways to hand out a part of the elements, by a test on the element (`Machine.filter`,
`Machine.takeWhile`, `Machine.dropWhile`) or by its position (`Machine.slice`). Each fetches ahead by
guarded pulls, so it never hands on an error of the machine below: an error there is the end here.

A search that skips elements has no bound of its own over an endless machine; its rounds are counted
down from `fuel`.
-/

namespace LazySeq

/-! ## Windows of positions -/

/-- The positions `start`, `start + step`, … that are below `stop`, if there is a `stop`. -/
structure Window where
  start : Nat
  stop : Option Nat
  step : Nat
  step_pos : 0 < step

namespace Window

/-- All positions from `start` on that are below `stop`. -/
def contiguous (start : Nat) (stop : Option Nat) : Window :=
  ⟨start, stop, 1, Nat.one_pos⟩

/-- No position from `i` on is in the window. -/
def endsBy (w : Window) (i : Nat) : Bool :=
  match w.stop with
  | some stop => stop ≤ i
  | none => false

/-- Position `i`, below the stop, is in the window. -/
def selects (w : Window) (i : Nat) : Bool :=
  w.start ≤ i && (i - w.start) % w.step == 0

end Window

/-! ## States of the searches -/

/-- A source and whether its leading run is still being dropped. -/
structure Dropping (σ : Type) where
  source : σ
  dropping : Bool

/-- A source and the number of elements taken from it. -/
structure Counted (σ : Type) where
  source : σ
  index : Nat

namespace Machine

variable {ω σ α : Type}

/-! ## By a test -/

/-- The first element that passes `test`. -/
def seek (test : α → Comp ω Bool) (m : Machine ω σ α) : Nat → σ → Comp ω (Option α × σ)
  | 0, _ => throw .outOfFuel
  | n + 1, s => do
    match ← m.pull? s with
    | (none, s) => return (none, s)
    | (some a, s) =>
      if ← test a then
        return (some a, s)
      else
        m.seek test n s

/-- Hands out the elements that pass `test`. -/
def filter (fuel : Nat) (test : α → Comp ω Bool) (m : Machine ω σ α) :
    Machine ω (Peeked σ α) α :=
  peek (m.seek test fuel)

/-- One element if it passes `test`. -/
def pullIf (test : α → Comp ω Bool) (m : Machine ω σ α) (s : σ) : Comp ω (Option α × σ) := do
  match ← m.pull? s with
  | (none, s) => return (none, s)
  | (some a, s) =>
    if ← test a then
      return (some a, s)
    else
      return (none, s)

/-- Hands out the leading elements that pass `test`; the first that fails ends it for good. -/
def takeWhile (test : α → Comp ω Bool) (m : Machine ω σ α) : Machine ω (Peeked σ α) α :=
  peek (m.pullIf test)

/-- The next element after the leading run of elements that pass `test`. -/
def skipRun (test : α → Comp ω Bool) (m : Machine ω σ α) :
    Nat → Dropping σ → Comp ω (Option α × Dropping σ)
  | 0, _ => throw .outOfFuel
  | n + 1, d => do
    match ← m.pull? d.source with
    | (none, s) => return (none, ⟨s, d.dropping⟩)
    | (some a, s) =>
      if d.dropping then
        if ← test a then
          m.skipRun test n ⟨s, true⟩
        else
          return (some a, ⟨s, false⟩)
      else
        return (some a, ⟨s, false⟩)

/-- Skips the leading elements that pass `test` and hands out all others. -/
def dropWhile (fuel : Nat) (test : α → Comp ω Bool) (m : Machine ω σ α) :
    Machine ω (Peeked (Dropping σ) α) α :=
  peek (m.skipRun test fuel)

/-! ## By position -/

/-- The next element in the window. At the stop nothing below is asked. -/
def seekWindow (w : Window) (m : Machine ω σ α) : Nat → Counted σ → Comp ω (Option α × Counted σ)
  | 0, _ => throw .outOfFuel
  | n + 1, c => do
    if w.endsBy c.index then
      return (none, c)
    else
      match ← m.pull? c.source with
      | (none, s) => return (none, ⟨s, c.index⟩)
      | (some a, s) =>
        if w.selects c.index then
          return (some a, ⟨s, c.index + 1⟩)
        else
          m.seekWindow w n ⟨s, c.index + 1⟩

/-- Hands out the elements at the positions of the window. -/
def slice (fuel : Nat) (w : Window) (m : Machine ω σ α) : Machine ω (Peeked (Counted σ) α) α :=
  peek (m.seekWindow w fuel)

end Machine

end LazySeq
