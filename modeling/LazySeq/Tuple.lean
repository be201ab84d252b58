/-!
# Tuples

At least two things of one type, in order.
-/

namespace LazySeq

/-- Two things or more. -/
inductive Tuple (α : Type) where
  | pair (a b : α)
  | cons (a : α) (rest : Tuple α)

namespace Tuple

variable {α : Type}

/-- The things in order. -/
def toList : Tuple α → List α
  | pair a b => [a, b]
  | cons a rest => a :: rest.toList

/-- How many things there are. -/
def size : Tuple α → Nat
  | pair _ _ => 2
  | cons _ rest => rest.size + 1

/-- The tuple of two things or more. -/
def ofList? : List α → Option (Tuple α)
  | [] => none
  | [_] => none
  | [a, b] => some (pair a b)
  | a :: rest => (ofList? rest).map (cons a)

@[simp]
theorem length_toList (t : Tuple α) : t.toList.length = t.size := by
  induction t with
  | pair => rfl
  | cons a rest ih => simp [toList, size, ih]

theorem two_le_size (t : Tuple α) : 2 ≤ t.size := by
  induction t with
  | pair => exact Nat.le_refl 2
  | cons a rest ih => exact Nat.le_succ_of_le ih

@[simp]
theorem ofList?_toList (t : Tuple α) : ofList? t.toList = some t := by
  induction t with
  | pair => rfl
  | cons a rest ih =>
    cases rest with
    | pair b c => rfl
    | cons b rest =>
      cases rest <;> simp_all [toList, ofList?]

end Tuple

end LazySeq
