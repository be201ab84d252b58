import LazySeq.Proofs.Cursor.HasLeft
import LazySeq.Proofs.Simulation.Basic

/-!
# Cursors follow

`Cursor.machine` calls the outermost stage of a cursor, so two cursors follow each other when their
outermost stages do. The two may be of different kinds and have different fuel.
-/

namespace LazySeq

namespace Comparison

open Cursor

variable {ω ω' τ τ' σ σ' : Type} {C : Comparison (World ω τ) (World ω' τ')} {S : C.Rel σ σ'}
variable {V : C.Rel Value Value}

namespace Rel

variable {α α' β : Type}

/-- The image of the first is alike with the second. -/
def left (wrap : α → β) (S : C.Rel α α') : C.Rel β α' where
  Holds b c s' := ∃ s, c = wrap s ∧ S b s s'
  mono := by
    rintro b b' c s' hle ⟨s, hc, hs⟩
    exact ⟨s, hc, S.mono hle hs⟩

def right (wrap : α' → β) (S : C.Rel α α') : C.Rel α β where
  Holds b s c' := ∃ s', c' = wrap s' ∧ S b s s'
  mono := by
    rintro b b' s c' hle ⟨s', hc, hs⟩
    exact ⟨s', hc, S.mono hle hs⟩

/-- Images of what is alike. -/
def image {β' : Type} (wrap : α → β) (wrap' : α' → β') (S : C.Rel α α') : C.Rel β β' :=
  (S.right wrap').left wrap

end Rel

variable {wrap : σ → Cursor ω τ} {wrap' : σ' → Cursor ω' τ'}
variable {stage : Nat → Machine (World ω τ) σ Value} {stage' : Nat → Machine (World ω' τ') σ' Value}
variable {m : Machine (World ω τ) σ Value} {m' : Machine (World ω' τ') σ' Value} {n n' : Nat}

theorem Mimics.machine_left (hrun : Runs wrap stage) (h : C.Mimics S V (stage n) m') :
    C.Mimics (S.left wrap) V (Cursor.machine (n + 1)) m' where
  hasNext := by
    rintro b c s' ⟨s, rfl, hs⟩
    rw [machine_hasNext wrap (hrun n s)]
    refine (h.hasNext hs).bind_left ?_
    rintro b' ⟨more, s⟩ ⟨_, s'⟩ hle ⟨rfl, hs⟩
    exact follows_pure ⟨rfl, s, rfl, hs⟩
  next := by
    rintro b c s' ⟨s, rfl, hs⟩
    rw [machine_next wrap (hrun n s)]
    refine (h.next hs).bind_left ?_
    rintro b' ⟨answer, s⟩ ⟨answer', s'⟩ hle ⟨ha, hs⟩
    exact follows_pure ⟨ha, s, rfl, hs⟩

theorem Mimics.machine_right (hrun : Runs wrap' stage') (h : C.Mimics S V m (stage' n')) :
    C.Mimics (S.right wrap') V m (Cursor.machine (n' + 1)) where
  hasNext := by
    rintro b s c' ⟨s', rfl, hs⟩
    rw [machine_hasNext wrap' (hrun n' s')]
    refine (h.hasNext hs).bind_right ?_
    rintro b' ⟨more, s⟩ ⟨_, s'⟩ hle ⟨rfl, hs⟩
    exact follows_pure ⟨rfl, s', rfl, hs⟩
  next := by
    rintro b s c' ⟨s', rfl, hs⟩
    rw [machine_next wrap' (hrun n' s')]
    refine (h.next hs).bind_right ?_
    rintro b' ⟨answer, s⟩ ⟨answer', s'⟩ hle ⟨ha, hs⟩
    exact follows_pure ⟨ha, s', rfl, hs⟩

theorem Mimics.machine (hrun : Runs wrap stage) (hrun' : Runs wrap' stage')
    (h : C.Mimics S V (stage n) (stage' n')) :
    C.Mimics (S.image wrap wrap') V (Cursor.machine (n + 1)) (Cursor.machine (n' + 1)) :=
  (h.machine_right hrun').machine_left hrun

/-- Without fuel no call is answered. -/
theorem mimics_zero {R : C.Rel (Cursor ω τ) σ'} {m : Machine (World ω' τ') σ' Value} :
    C.Mimics R V (Cursor.machine 0) m :=
  ⟨fun _ _ _ _ => follows_throw, fun _ _ _ _ => follows_throw⟩

end Comparison

end LazySeq
