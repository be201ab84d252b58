import LazySeq.Comp
import LazySeq.Value.Vocabulary

/-!
# Callables

Functions and tests on elements. Any function that acts on the caller's world `ω` is a callable.
The others reach a cursor that is an element, and are only described here: what they do is said
where cursors can be called.
-/

namespace LazySeq

/-- A function from elements to elements. -/
inductive Fn (ω : Type) where
  /-- a function of the caller -/
  | call (f : Value → Comp ω Value)
  /-- first `f`, then `g` on its answer -/
  | andThen (f g : Fn ω)
  /-- a new cursor over the items of the element -/
  | walk
  /-- all that a cursor hands out, as a list -/
  | drain
  /-- the next element of a cursor, null if it fails -/
  | first

/-- A function that touches nothing. -/
def Fn.pure {ω : Type} (f : Value → Value) : Fn ω :=
  .call fun v => Pure.pure (f v)

/-- A test on elements. -/
inductive Test (ω : Type) where
  /-- a test of the caller -/
  | call (p : Value → Comp ω Bool)
  /-- whether a cursor says that more is left -/
  | hasNext
  /-- fails where `p` passes -/
  | not (p : Test ω)
  /-- both pass; `q` is not run when `p` fails -/
  | and (p q : Test ω)
  /-- one passes; `q` is not run when `p` passes -/
  | or (p q : Test ω)
  /-- shows the element to `note` and then runs `p` -/
  | after (note : Value → Comp ω Unit) (p : Test ω)

/-- A test that touches nothing. -/
def Test.pure {ω : Type} (p : Value → Bool) : Test ω :=
  .call fun v => Pure.pure (p v)

end LazySeq
