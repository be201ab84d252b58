import LazySeq.Value.Basic

/-!
# Functions and tests on values

A small vocabulary for mapping, testing and comparing values. A numeric function leaves a value
that is no integer as it is, and a numeric test fails on it. Remainders are Euclidean.
-/

namespace LazySeq

namespace Value

/-! ## Functions -/

/-- Applies `f` to an integer. -/
def onInt (f : Int → Value) : Value → Value
  | int n => f n
  | v => v

def add (k : Int) : Value → Value :=
  onInt fun n => int (n + k)

def mul (k : Int) : Value → Value :=
  onInt fun n => int (n * k)

def mod (k : Int) : Value → Value :=
  onInt fun n => int (n.emod k)

/-- Half of an even integer, null for an odd one. -/
def half : Value → Value :=
  onInt fun n => if n.emod 2 = 0 then int (n.ediv 2) else null

/-- As many copies of an integer as it says, none for a negative one. -/
def copies : Value → Value :=
  onInt fun n => list (List.replicate n.toNat (int n))

def twice (v : Value) : Value :=
  list [v, v]

def len (v : Value) : Value :=
  int v.length

/-- The integer in a value, zero if there is none. -/
def toInt : Value → Int
  | int n => n
  | _ => 0

/-- The sum of the integers in a list. -/
def sum : Value → Value
  | list xs => int (xs.foldl (fun total x => total + x.toInt) 0)
  | v => v

/-- Element `i` of a list, null if it has none. -/
def nth (i : Nat) : Value → Value
  | list xs => xs.getD i null
  | v => v

/-! ## Tests -/

/-- An integer that passes `p`. -/
def isInt (p : Int → Bool) : Value → Bool
  | int n => p n
  | _ => false

def isEven : Value → Bool :=
  isInt fun n => n.emod 2 == 0

def isOdd : Value → Bool :=
  isInt fun n => n.emod 2 == 1

def isBelow (k : Int) : Value → Bool :=
  isInt fun n => n < k

def isAbove (k : Int) : Value → Bool :=
  isInt fun n => k < n

/-- An integer that leaves remainder `r` on division by `m`. -/
def leaves (m r : Int) : Value → Bool :=
  isInt fun n => n.emod m == r

def isNull : Value → Bool
  | null => true
  | _ => false

def isTrue : Value → Bool
  | bool b => b
  | _ => false

def isShorter (k : Nat) (v : Value) : Bool :=
  v.length < k

/-! ## Comparisons -/

/-- Two integers in increasing order. -/
def lt : Value → Value → Bool
  | int a, int b => a < b
  | _, _ => false

def sameLength (v w : Value) : Bool :=
  v.length == w.length

end Value

end LazySeq
