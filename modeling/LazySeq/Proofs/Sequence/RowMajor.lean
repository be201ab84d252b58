import LazySeq.Proofs.Sequence.Rows
import Mathlib.Algebra.GroupWithZero.Nat
import Mathlib.Data.List.Sort

/-!
# Row-major order

What it is for rows over several lists to come in row-major order, said by positions: the rows read
the lists at all vectors of positions, which come in lexicographic order and so without repetition.
`Sequence.allRows` is the one list of rows for which it holds (`Sequence.RowMajor.eq_allRows`).
-/

namespace LazySeq

namespace Sequence

variable {α : Type} {lists : List (List α)}

/-- A vector of positions, one in each of the lists. -/
def Within (lists : List (List α)) (position : List Nat) : Prop :=
  List.Forall₂ (fun i xs => i < xs.length) position lists

/-- What the lists have at a vector of positions. -/
def readAt (lists : List (List α)) (position : List Nat) : List (Option α) :=
  List.zipWith (fun xs i => xs[i]?) lists position

/-- The rows take one element of each list in every way, the last list varying fastest. -/
structure RowMajor (lists rows : List (List α)) : Prop where
  length_eq : rows.length = (lists.map List.length).prod
  /-- the rows stand at all positions, in lexicographic order -/
  positions : ∃ positions : List (List Nat), positions.Pairwise (· < ·) ∧
    (∀ p, p ∈ positions ↔ Within lists p) ∧
    rows.map (List.map some) = positions.map (readAt lists)

theorem length_allRows (lists : List (List α)) :
    (allRows lists).length = (lists.map List.length).prod := by
  induction lists with
  | nil => rfl
  | cons xs rest ih => simp [allRows, ih]

/-- The vectors of positions, in order. -/
def positionsIn (lists : List (List α)) : List (List Nat) :=
  allRows (lists.map fun xs => List.range xs.length)

theorem positionsIn_cons (xs : List α) (rest : List (List α)) :
    positionsIn (xs :: rest) =
      (List.range xs.length).flatMap fun i => (positionsIn rest).map (i :: ·) := rfl

theorem mem_positionsIn {p : List Nat} : p ∈ positionsIn lists ↔ Within lists p := by
  induction lists generalizing p with
  | nil => simp [positionsIn, allRows, Within]
  | cons xs rest ih =>
    rw [positionsIn_cons, Within, List.forall₂_cons_right_iff]
    simp only [List.mem_flatMap, List.mem_range, List.mem_map, ih]
    constructor
    · rintro ⟨i, hi, q, hq, rfl⟩
      exact ⟨i, q, hi, hq, rfl⟩
    · rintro ⟨i, q, hi, hq, rfl⟩
      exact ⟨i, hi, q, hq, rfl⟩

theorem pairwise_positionsIn (lists : List (List α)) :
    (positionsIn lists).Pairwise (· < ·) := by
  induction lists with
  | nil => exact List.pairwise_singleton _ _
  | cons xs rest ih =>
    rw [positionsIn_cons, List.pairwise_flatMap]
    constructor
    · -- with one element in front the order is that of the rest
      intro i _
      rw [List.pairwise_map]
      exact ih.imp fun hlt => List.cons_lt_cons_iff.mpr (.inr ⟨rfl, hlt⟩)
    · refine List.pairwise_lt_range.imp fun hij p hp q hq => ?_
      obtain ⟨p, -, rfl⟩ := List.mem_map.mp hp
      obtain ⟨q, -, rfl⟩ := List.mem_map.mp hq
      exact List.cons_lt_cons_iff.mpr (.inl hij)

theorem map_some_eq_map_range (xs : List α) :
    xs.map some = (List.range xs.length).map fun i => xs[i]? := by
  refine List.ext_getElem (by simp) fun i h _ => ?_
  rw [List.length_map] at h
  simp [h]

theorem map_allRows (lists : List (List α)) :
    (allRows lists).map (List.map some) = (positionsIn lists).map (readAt lists) := by
  induction lists with
  | nil => rfl
  | cons xs rest ih =>
    calc (allRows (xs :: rest)).map (List.map some)
      _ = (xs.map some).flatMap fun o => ((allRows rest).map (List.map some)).map (o :: ·) := by
        simp [allRows, List.map_flatMap, List.flatMap_map, Function.comp_def]
      _ = ((List.range xs.length).map fun i => xs[i]?).flatMap fun o =>
          ((positionsIn rest).map (readAt rest)).map (o :: ·) := by
        rw [map_some_eq_map_range, ih]
      _ = (positionsIn (xs :: rest)).map (readAt (xs :: rest)) := by
        simp [positionsIn_cons, List.map_flatMap, List.flatMap_map, readAt, Function.comp_def]

theorem rowMajor_allRows (lists : List (List α)) : RowMajor lists (allRows lists) where
  length_eq := length_allRows lists
  positions := ⟨positionsIn lists, pairwise_positionsIn lists, fun _ => mem_positionsIn,
    map_allRows lists⟩

/-- The order settles the rows. -/
theorem RowMajor.eq_allRows {rows : List (List α)} (h : RowMajor lists rows) :
    rows = allRows lists := by
  obtain ⟨positions, hsorted, hmem, hrows⟩ := h.positions
  have hpositions : positions = positionsIn lists := by
    apply hsorted.eq_of_mem_iff (pairwise_positionsIn lists)
    intro p
    rw [hmem, mem_positionsIn]
  rw [hpositions, ← map_allRows] at hrows
  have hsome : Function.Injective (List.map (some : α → Option α)) :=
    List.map_injective_iff.mpr (Option.some_injective α)
  exact List.map_injective_iff.mpr hsome hrows

end Sequence

end LazySeq
