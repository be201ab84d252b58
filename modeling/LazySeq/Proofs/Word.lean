import Mathlib.Tactic.Common

/-!
# Arithmetic on machine words

Addition, subtraction and remainder as a machine does them on words of 64 bits, where there is no
result if it is too large, below zero, or a remainder by zero.
-/

namespace LazySeq

namespace Word

/-- The number of words. -/
def count : Nat := UInt64.size

def add? (a b : Nat) : Option Nat :=
  if a + b < count then some (a + b) else none

def sub? (a b : Nat) : Option Nat :=
  if b ≤ a then some (a - b) else none

def mod? (a b : Nat) : Option Nat :=
  if b = 0 then none else some (a % b)

variable {a b : Nat}

theorem add?_of_lt (h : a + b < count) : add? a b = some (a + b) := if_pos h

theorem sub?_of_le (h : b ≤ a) : sub? a b = some (a - b) := if_pos h

theorem mod?_of_pos (h : 0 < b) : mod? a b = some (a % b) := if_neg (Nat.pos_iff_ne_zero.mp h)

end Word

end LazySeq
