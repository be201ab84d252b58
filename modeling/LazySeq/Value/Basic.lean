/-!
# Values

The elements of the sequences that are put together while a program runs. A cursor can be an
element too: it is a value by its identity, the number of the cell it lives in, so copies of the
value share the one cursor. `Value.beq_iff` says that the test for equality is structural.
-/

namespace LazySeq

/-- The identity of a cursor that is a value. -/
abbrev CursorId := Nat

/-- An element. -/
inductive Value where
  | null
  | bool (b : Bool)
  | int (n : Int)
  | str (s : String)
  | list (xs : List Value)
  | cursor (id : CursorId)

namespace Value

/-! ## Equality -/

mutual

/-- Equal kinds with equal contents. -/
def beq : Value → Value → Bool
  | null, null => true
  | bool a, bool b => a == b
  | int a, int b => a == b
  | str a, str b => a == b
  | list xs, list ys => beqList xs ys
  | cursor i, cursor j => i == j
  | _, _ => false

/-- Equal values at equal positions. -/
def beqList : List Value → List Value → Bool
  | [], [] => true
  | x :: xs, y :: ys => beq x y && beqList xs ys
  | _, _ => false

end

mutual

theorem eq_of_beq : ∀ {v w : Value}, beq v w = true → v = w
  | null, w, h => by cases w <;> simp_all [beq]
  | bool _, w, h => by cases w <;> simp_all [beq]
  | int _, w, h => by cases w <;> simp_all [beq]
  | str _, w, h => by cases w <;> simp_all [beq]
  | cursor _, w, h => by cases w <;> simp_all [beq]
  | list xs, w, h => by
    cases w with
    | list ys =>
      have h : beqList xs ys = true := by simpa [beq] using h
      rw [eq_of_beqList h]
    | _ => simp [beq] at h

theorem eq_of_beqList : ∀ {xs ys : List Value}, beqList xs ys = true → xs = ys
  | [], ys, h => by cases ys <;> simp_all [beqList]
  | x :: xs, [], h => by simp [beqList] at h
  | x :: xs, y :: ys, h => by
    simp only [beqList, Bool.and_eq_true] at h
    rw [eq_of_beq h.1, eq_of_beqList h.2]

end

mutual

theorem beq_refl : ∀ v : Value, beq v v = true
  | null | bool _ | int _ | str _ | cursor _ => by simp [beq]
  | list xs => by simp [beq, beqList_refl xs]

theorem beqList_refl : ∀ xs : List Value, beqList xs xs = true
  | [] => rfl
  | x :: xs => by simp [beqList, beq_refl x, beqList_refl xs]

end

/-- The test for equality decides equality. -/
theorem beq_iff {v w : Value} : beq v w = true ↔ v = w :=
  ⟨eq_of_beq, fun h => h ▸ beq_refl v⟩

instance : DecidableEq Value := fun _ _ => decidable_of_iff _ beq_iff

/-! ## Views -/

/-- The characters of a string or the elements of a list; nothing else has a length. -/
def length : Value → Nat
  | str s => s.length
  | list xs => xs.length
  | _ => 0

/-- What a walk over the value meets: the elements of a list, the characters of a string, or the
value alone. -/
def items : Value → List Value
  | list xs => xs
  | str s => s.toList.map fun c => str c.toString
  | v => [v]

end Value

end LazySeq
