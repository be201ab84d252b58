import LazySeq.Proofs.Schedule
import Mathlib.Data.List.Infix

/-!
# Notes of what happens

`Comp.noting` runs a computation and writes down what came of it, and `Machine.noted` does so for
every call of a machine. The notes of several machines, and of callables, can go into one list, so
that a statement about the list is a statement about all of them in the order in which they ran.
What they do to the world below is not changed.
-/

namespace LazySeq

/-- A world together with notes of what happened, the earliest first. -/
structure Noted (ω ε : Type) where
  world : ω
  notes : List ε

variable {ω σ ε α : Type}

/-- Runs `act` in the world below and notes its answer. -/
def Comp.noting (note : α → ε) (act : Comp ω α) : Comp (Noted ω ε) α := do
  let a ← act.within Noted.world fun w v => ⟨w, v.notes⟩
  modify fun v => ⟨v.world, v.notes ++ [note a]⟩
  return a

/-- The same machine, with a note of every call. -/
def Machine.noted (note : Reply α → ε) (m : Machine ω σ α) : Machine (Noted ω ε) σ α where
  hasNext s := (m.hasNext s).noting fun r => note (.more r.1)
  next s := (m.next s).noting fun r => note (.item r.1)

/-- What is known of a computation is known of it with notes taken, and there is one note more. -/
theorem Comp.Returns.noting {act : Comp ω α} {v : Noted ω ε} {P : α → ω → Prop}
    (h : act.Returns v.world P) (note : α → ε) :
    (act.noting note).Returns v fun a v' => P a v'.world ∧ v'.notes = v.notes ++ [note a] := by
  refine h.within.bind ?_
  rintro a _ ⟨w, rfl, hp⟩
  rw [Comp.returns_bind, Comp.returns_modify, Comp.returns_pure]
  exact ⟨hp, rfl⟩

/-- Whatever is known of a computation, there is one note more. -/
theorem Comp.ensures_noting (act : Comp ω α) (note : α → ε) (v : Noted ω ε) :
    (act.noting note).Ensures v fun a v' => v'.notes = v.notes ++ [note a] := by
  have hany : act.Ensures v.world fun _ _ => True := fun _ _ _ => trivial
  refine hany.within.bind ?_
  rintro a _ ⟨w, rfl, -⟩
  rw [Comp.ensures_bind, Comp.ensures_modify, Comp.ensures_pure]

theorem Comp.Yields.noting {act : Comp ω α} {sure : Prop} {v : Noted ω ε} {P : α → ω → Prop}
    (h : act.Yields sure v.world P) (note : α → ε) :
    (act.noting note).Yields sure v fun a v' =>
      P a v'.world ∧ v'.notes = v.notes ++ [note a] := by
  refine h.within.bind ?_
  rintro a _ ⟨w, rfl, hp⟩
  rw [Comp.yields_bind, Comp.yields_modify, Comp.yields_pure]
  exact ⟨hp, rfl⟩

/-! ## Laws -/

variable {law : List ε → ε → Prop} {notes before after : List ε} {e e' : ε}

/-- Every note is one that `law` allows after the notes before it. -/
def Obeys (law : List ε → ε → Prop) (notes : List ε) : Prop :=
  ∀ before e, before ++ [e] <+: notes → law before e

theorem obeys_nil : Obeys law [] := fun before e h => by simp at h

/-- One note more. -/
theorem Obeys.concat (h : Obeys law notes) (he : law notes e) : Obeys law (notes ++ [e]) := by
  intro before e' hbefore
  rcases List.prefix_concat_iff.mp hbefore with heq | hbefore
  · obtain ⟨rfl, rfl⟩ := List.append_singleton_inj.mp heq
    exact he
  · exact h before e' hbefore

theorem Obeys.of_mem (h : Obeys law notes) (he : e ∈ notes) :
    ∃ before after, notes = before ++ e :: after ∧ law before e := by
  obtain ⟨before, after, rfl⟩ := List.append_of_mem he
  exact ⟨before, after, rfl, h before e ⟨after, by simp⟩⟩

/-- A note that is not the last one was made before that. -/
theorem eq_nil_or_of_concat_eq (h : notes ++ [e] = before ++ e' :: after) :
    after = [] ∨ ∃ init, notes = before ++ e' :: init := by
  rcases List.eq_nil_or_concat after with rfl | ⟨init, last, rfl⟩
  · exact .inl rfl
  · rw [List.concat_eq_append, ← List.cons_append, ← List.append_assoc] at h
    obtain ⟨rfl, -⟩ := List.append_singleton_inj.mp h
    exact .inr ⟨init, rfl⟩

end LazySeq
