import LazySeq.Proofs.Noted
import LazySeq.Sequence.Basic

/-!
# Sources that are watched

A source of the caller (`Origin`) starts its cursors and answers their calls in any way at all.
`Origin.watched` is the sequence over it that notes every start and every call with its reply under
the name of the source. The notes of all sources go into one list, so the list says what was done to
the sources, and in which order.
-/

namespace LazySeq

namespace Tuple

variable {α β : Type}

/-- The images of the things, in order. -/
def map (f : α → β) : Tuple α → Tuple β
  | pair a b => pair (f a) (f b)
  | cons a rest => cons (f a) (rest.map f)

theorem toList_map (f : α → β) (t : Tuple α) : (t.map f).toList = t.toList.map f := by
  induction t with
  | pair => rfl
  | cons a rest ih => rw [map, toList, toList, List.map_cons, ih]

end Tuple

/-- How the cursors of a source are started, and how they behave. -/
structure Origin (ω τ : Type) where
  start : Comp ω τ
  machine : Machine ω τ Value

/-- What can be done to a source named `i`. -/
inductive Touch (ι : Type) where
  | started (i : ι)
  | called (i : ι) (reply : Reply Value)

variable {ω τ ι : Type}

namespace Origin

/-- The sequence over a source, with notes of what is done to the source. -/
def watched (i : ι) (o : Origin ω τ) : Sequence (Noted ω (Touch ι)) τ :=
  .given (o.start.noting fun _ => .started i) (o.machine.noted (.called i))

/-- The sequences over several sources, each with its name. -/
def watchAll (sources : Tuple (ι × Origin ω τ)) : Tuple (Sequence (Noted ω (Touch ι)) τ) :=
  sources.map fun o => o.2.watched o.1

end Origin

end LazySeq
