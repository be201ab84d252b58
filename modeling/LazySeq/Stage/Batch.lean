import LazySeq.Machine

/-!
# Batches

A batching cursor hands out batches, each itself a cursor over at most a fixed number of
consecutive elements. All batches read from the one cursor below, so a batch is a number here,
counted from zero, and the state of all of them is one `Batching`.

The newest batch reads straight from below while its quota lasts. When the batching cursor is asked
again, what the newest batch has left unread is set aside on that batch's own shelf, and from
then on that batch reads only from the shelf.
-/

namespace LazySeq

/-- A cursor being cut into batches. -/
structure Batching (σ α : Type) where
  /-- the cursor below -/
  reader : σ
  /-- how many elements the newest batch may still take from below -/
  quota : Nat
  /-- for every batch handed out, the elements set aside for it -/
  shelves : Array (List α)

namespace Batching

variable {σ α : Type}

/-- Nothing has been handed out. -/
def fresh (reader : σ) : Batching σ α := ⟨reader, 0, #[]⟩

/-- Batch `k` is the newest one. -/
def isNewest (b : Batching σ α) (k : Nat) : Bool :=
  k + 1 == b.shelves.size

theorem isNewest_iff {b : Batching σ α} {k : Nat} : b.isNewest k ↔ k + 1 = b.shelves.size := by
  simp [isNewest]

/-- What is set aside for batch `k`. -/
def shelf (b : Batching σ α) (k : Nat) : List α :=
  b.shelves.getD k []

end Batching

namespace Machine

variable {ω σ α : Type}

/-! ## The batching cursor -/

/-- Sets aside what the newest batch has left unread. -/
def setAside (m : Machine ω σ α) (b : Batching σ α) : Comp ω (Batching σ α) := do
  let (rest, reader) ← m.collect b.quota b.reader
  return ⟨reader, 0, b.shelves.modify (b.shelves.size - 1) (· ++ rest)⟩

/-- Asks the cursor below, after setting aside what is left unread. -/
def batchesHasNext (m : Machine ω σ α) (b : Batching σ α) : Comp ω (Bool × Batching σ α) := do
  let b ← m.setAside b
  let (more, reader) ← m.hasNext b.reader
  return (more, ⟨reader, b.quota, b.shelves⟩)

/-- Hands out the numbers of batches of at most `size` elements. -/
def batches (size : Nat) (m : Machine ω σ α) : Machine ω (Batching σ α) Nat where
  hasNext := m.batchesHasNext
  next b := do
    let (more, b) ← m.batchesHasNext b
    if more then
      return (.ok b.shelves.size, ⟨b.reader, size, b.shelves.push []⟩)
    else
      return (.error .exhausted, b)

/-! ## One batch -/

/-- Whether batch `k` has an element set aside, or may take one from below. -/
def batchHasNext (k : Nat) (m : Machine ω σ α) (b : Batching σ α) :
    Comp ω (Bool × Batching σ α) :=
  if !(b.shelf k).isEmpty then
    return (true, b)
  else if b.isNewest k && 0 < b.quota then do
    let (more, reader) ← m.hasNext b.reader
    return (more, ⟨reader, b.quota, b.shelves⟩)
  else
    return (false, b)

/-- Hands out the elements of batch `k`. -/
def batch (k : Nat) (m : Machine ω σ α) : Machine ω (Batching σ α) α where
  hasNext := m.batchHasNext k
  next b :=
    match b.shelf k with
    | a :: rest => return (.ok a, ⟨b.reader, b.quota, b.shelves.setIfInBounds k rest⟩)
    | [] => do
      let (more, b) ← m.batchHasNext k b
      if more then
        let (answer, reader) ← m.next b.reader
        return (answer, ⟨reader, b.quota - 1, b.shelves⟩)
      else
        return (.error .exhausted, b)

end Machine

end LazySeq
