import LazySeq.Stage.Batch

/-!
# Shelves

The shelf of every batch after each of the changes that are made to the shelves: setting aside what
the newest batch left unread, handing out another batch, and taking from one shelf.
-/

namespace LazySeq

namespace Batching

variable {σ α : Type} {b : Batching σ α} {s : σ} {quota : Nat}

theorem shelf_of_size_le {k : Nat} (hk : b.shelves.size ≤ k) : b.shelf k = [] := by
  rw [shelf, Array.getD_eq_getD_getElem?, Array.getElem?_eq_none hk]
  rfl

theorem lt_size_of_shelf {k : Nat} (h : b.shelf k ≠ []) : k < b.shelves.size :=
  Nat.lt_of_not_le fun hk => h (shelf_of_size_le hk)

theorem shelf_setAside {rest : List α} (j : Nat) :
    (⟨s, quota, b.shelves.modify (b.shelves.size - 1) (· ++ rest)⟩ : Batching σ α).shelf j =
      b.shelf j ++ if b.isNewest j then rest else [] := by
  simp only [shelf, Array.getD_eq_getD_getElem?, Array.getElem?_modify, isNewest, beq_iff_eq]
  cases hj : b.shelves[j]? with
  | none =>
    have hle : b.shelves.size ≤ j := Array.getElem?_eq_none_iff.mp hj
    have hne : ¬ j + 1 = b.shelves.size := by omega
    simp [hne]
  | some l =>
    have hlt : j < b.shelves.size := (Array.getElem?_eq_some_iff.mp hj).1
    by_cases hnew : j + 1 = b.shelves.size
    · have heq : b.shelves.size - 1 = j := by omega
      simp [hnew, heq]
    · have hne : ¬ b.shelves.size - 1 = j := by omega
      simp [hnew, hne]

theorem shelf_push (j : Nat) :
    (⟨s, quota, b.shelves.push []⟩ : Batching σ α).shelf j = b.shelf j := by
  simp only [shelf, Array.getD_eq_getD_getElem?, Array.getElem?_push]
  by_cases hj : j = b.shelves.size
  · have hnone : b.shelves[j]? = none := Array.getElem?_eq_none (by omega)
    rw [if_pos hj, hnone]
    rfl
  · rw [if_neg hj]

theorem shelf_setIfInBounds {k : Nat} {l : List α} (hk : k < b.shelves.size) (j : Nat) :
    (⟨s, quota, b.shelves.setIfInBounds k l⟩ : Batching σ α).shelf j =
      if j = k then l else b.shelf j := by
  simp only [shelf, Array.getD_eq_getD_getElem?]
  by_cases hj : k = j
  · subst hj
    rw [Array.getElem?_setIfInBounds_self_of_lt hk]
    simp
  · rw [Array.getElem?_setIfInBounds_ne hj, if_neg (Ne.symm hj)]

end Batching

end LazySeq
