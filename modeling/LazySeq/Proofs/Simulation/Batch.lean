import LazySeq.Proofs.Batch.Shelf
import LazySeq.Proofs.Simulation.Basic

/-!
# Batching follows

Two cursors being cut into batches of one size, over machines that follow each other. As many
batches have been handed out by each, and the shelves are alike one by one; so the batch of a number
is alike with the batch of that number.
-/

namespace LazySeq

/-! ## States that are alike -/

section States

variable {σ σ' α α' : Type} {s t : σ → σ' → Prop} {v u : α → α' → Prop}

structure Batching.Alike (s : σ → σ' → Prop) (v : α → α' → Prop) (c : Batching σ α)
    (c' : Batching σ' α') : Prop where
  reader : s c.reader c'.reader
  quota : c.quota = c'.quota
  size : c.shelves.size = c'.shelves.size
  shelf (k : Nat) : List.Forall₂ v (c.shelf k) (c'.shelf k)

namespace Batching.Alike

variable {c : Batching σ α} {c' : Batching σ' α'}

theorem imp (hs : ∀ {x x'}, s x x' → t x x') (hv : ∀ {a a'}, v a a' → u a a')
    (h : c.Alike s v c') : c.Alike t u c' :=
  ⟨hs h.reader, h.quota, h.size, fun k => (h.shelf k).imp fun _ _ => hv⟩

theorem fresh {x : σ} {x' : σ'} (hx : s x x') :
    (Batching.fresh x : Batching σ α).Alike s v (Batching.fresh x' : Batching σ' α') :=
  ⟨hx, rfl, rfl, fun _ => .nil⟩

theorem isNewest_eq (h : c.Alike s v c') (k : Nat) : c.isNewest k = c'.isNewest k := by
  rw [isNewest, isNewest, h.size]

variable {x : σ} {x' : σ'} {quota : Nat}

/-- The cursors below were called, the shelves were not touched. -/
theorem read (h : c.Alike s v c') (hx : s x x') :
    Batching.Alike s v ⟨x, quota, c.shelves⟩ ⟨x', quota, c'.shelves⟩ :=
  ⟨hx, rfl, h.size, h.shelf⟩

theorem setAside (h : c.Alike s v c') (hx : s x x') {rest : List α} {rest' : List α'}
    (hrest : List.Forall₂ v rest rest') :
    Batching.Alike s v ⟨x, quota, c.shelves.modify (c.shelves.size - 1) (· ++ rest)⟩
      ⟨x', quota, c'.shelves.modify (c'.shelves.size - 1) (· ++ rest')⟩ where
  reader := hx
  quota := rfl
  size := by rw [Array.size_modify, Array.size_modify, h.size]
  shelf k := by
    rw [shelf_setAside, shelf_setAside, h.isNewest_eq]
    cases c'.isNewest k with
    | true => exact List.rel_append (h.shelf k) hrest
    | false => simpa using h.shelf k

theorem push (h : c.Alike s v c') (hx : s x x') :
    Batching.Alike s v ⟨x, quota, c.shelves.push []⟩ ⟨x', quota, c'.shelves.push []⟩ where
  reader := hx
  quota := rfl
  size := by rw [Array.size_push, Array.size_push, h.size]
  shelf k := by
    rw [shelf_push, shelf_push]
    exact h.shelf k

theorem unshelve (h : c.Alike s v c') {k : Nat} {rest : List α} {rest' : List α'}
    (hk : k < c.shelves.size) (hrest : List.Forall₂ v rest rest') :
    Batching.Alike s v ⟨c.reader, c.quota, c.shelves.setIfInBounds k rest⟩
      ⟨c'.reader, c'.quota, c'.shelves.setIfInBounds k rest'⟩ where
  reader := h.reader
  quota := h.quota
  size := by rw [Array.size_setIfInBounds, Array.size_setIfInBounds, h.size]
  shelf j := by
    rw [shelf_setIfInBounds hk, shelf_setIfInBounds (h.size ▸ hk)]
    by_cases hj : j = k
    · rw [if_pos hj, if_pos hj]
      exact hrest
    · rw [if_neg hj, if_neg hj]
      exact h.shelf j

end Batching.Alike

end States

namespace Comparison

variable {ω ω' σ σ' α α' : Type} {C : Comparison ω ω'} {S : C.Rel σ σ'} {V : C.Rel α α'}

namespace Rel

def batching (S : C.Rel σ σ') (V : C.Rel α α') : C.Rel (Batching σ α) (Batching σ' α') :=
  ⟨fun b => Batching.Alike (S b) (V b), fun hle h => h.imp (S.mono hle) (V.mono hle)⟩

end Rel

variable {m : Machine ω σ α} {m' : Machine ω' σ' α'}

/-! ## The batching cursor -/

theorem Mimics.setAside (h : C.Mimics S V m m') :
    C.Carries (S.batching V) (S.batching V) m.setAside m'.setAside := by
  rintro b ⟨s, quota, shelves⟩ ⟨s', _, shelves'⟩ hc
  obtain rfl : quota = _ := hc.quota
  refine (h.collect hc.reader).bind ?_
  rintro b' ⟨rest, s⟩ ⟨rest', s'⟩ hle ⟨hrest, hs⟩
  have hc := (S.batching V).mono hle hc
  exact follows_pure (hc.setAside hs hrest)

theorem Mimics.batchesHasNext (h : C.Mimics S V m m') :
    C.Carries (S.batching V) (Rel.eq.prod (S.batching V)) m.batchesHasNext m'.batchesHasNext := by
  intro b c c' hc
  refine (h.setAside hc).bind ?_
  rintro b' ⟨s, quota, shelves⟩ ⟨s', _, shelves'⟩ hle hc
  obtain rfl : quota = _ := hc.quota
  refine (h.hasNext hc.reader).bind ?_
  rintro b'' ⟨more, s⟩ ⟨_, s'⟩ hle' ⟨rfl, hs⟩
  have hc := (S.batching V).mono hle' hc
  exact follows_pure ⟨rfl, hc.read hs⟩

theorem Mimics.batches (h : C.Mimics S V m m') (size : Nat) :
    C.Mimics (S.batching V) Rel.eq (m.batches size) (m'.batches size) where
  hasNext := h.batchesHasNext
  next b c c' hc := by
    refine (h.batchesHasNext hc).bind ?_
    rintro b' ⟨more, c⟩ ⟨_, c'⟩ hle ⟨rfl, hc⟩
    exact follows_ite (follows_pure ⟨.ok hc.size, hc.push hc.reader⟩)
      (follows_pure ⟨.error _, hc⟩)

/-! ## One batch -/

theorem isEmpty_eq_of_forall₂ {v : α → α' → Prop} {xs : List α} {ys : List α'}
    (h : List.Forall₂ v xs ys) : xs.isEmpty = ys.isEmpty := by
  cases h <;> rfl

theorem Mimics.batchHasNext (h : C.Mimics S V m m') (k : Nat) :
    C.Carries (S.batching V) (Rel.eq.prod (S.batching V)) (m.batchHasNext k)
      (m'.batchHasNext k) := by
  intro b c c' hc
  have hshelf := isEmpty_eq_of_forall₂ (hc.shelf k)
  obtain ⟨s, quota, shelves⟩ := c
  obtain ⟨s', _, shelves'⟩ := c'
  obtain rfl : quota = _ := hc.quota
  unfold Machine.batchHasNext
  rw [hshelf, hc.isNewest_eq]
  refine follows_ite (follows_pure ⟨rfl, hc⟩) (follows_ite ?_ (follows_pure ⟨rfl, hc⟩))
  refine (h.hasNext hc.reader).bind ?_
  rintro b' ⟨more, s⟩ ⟨_, s'⟩ hle ⟨rfl, hs⟩
  have hc := (S.batching V).mono hle hc
  exact follows_pure ⟨rfl, hc.read hs⟩

theorem Mimics.batch (h : C.Mimics S V m m') (k : Nat) :
    C.Mimics (S.batching V) V (m.batch k) (m'.batch k) where
  hasNext := h.batchHasNext k
  next b c c' hc := by
    have hshelves := hc.shelf k
    cases hshelf : c.shelf k with
    | cons a rest =>
      rw [hshelf] at hshelves
      obtain ⟨a', rest', ha, hrest, hshelf'⟩ := List.forall₂_cons_left_iff.mp hshelves
      have hk : k < c.shelves.size := Batching.lt_size_of_shelf (by simp [hshelf])
      simp only [Machine.batch, hshelf, hshelf']
      exact follows_pure ⟨.ok ha, hc.unshelve hk hrest⟩
    | nil =>
      rw [hshelf] at hshelves
      simp only [Machine.batch, hshelf, List.forall₂_nil_left_iff.mp hshelves]
      refine (h.batchHasNext k hc).bind ?_
      rintro b' ⟨more, s, quota, shelves⟩ ⟨_, s', _, shelves'⟩ hle ⟨rfl, hc⟩
      obtain rfl : quota = _ := hc.quota
      refine follows_ite ?_ (follows_pure ⟨.error _, hc⟩)
      refine (h.next hc.reader).bind ?_
      rintro b'' ⟨answer, s⟩ ⟨answer', s'⟩ hle' ⟨ha, hs⟩
      have hc := (S.batching V).mono hle' hc
      exact follows_pure ⟨ha, hc.read hs⟩

end Comparison

end LazySeq
