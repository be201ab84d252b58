import LazySeq.Proofs.Cursor.Concat
import Mathlib.Data.List.TakeWhile

/-!
# Every element handed out is backed

A stage hands out nothing that does not follow from what it took from the cursor below. For an
account of the stage this is a matter of lengths (`Frame.Backed`): what it has left, with what the
elements taken so far amount to, makes up for all that there is. Every account of a stage over one
cursor has this property.

That the stages take no more than they need is another matter, and follows from the accounts alone:
unless the end is known, nothing is asked for beyond what is known.
-/

namespace LazySeq

namespace Frame

open Machine

variable {ω ρ σ α β : Type} {fr : Frame ω} {U : fr.Account α σ} {all : List α} {p : α → Bool}

/-- Over a cursor that began with `all` and has some of it left, a stage that makes `f all` of it
has handed out no more than `f` of what was taken. -/
def Backed (f : List α → List β) (all : List α) (U : fr.Account α σ) (V : fr.Account β ρ) : Prop :=
  ∀ ys r F w, V ys r F w → ∃ xs s F', U xs s F' w ∧
    ∀ taken, taken ++ xs = all → (f all).length ≤ ys.length + (f taken).length

theorem backed_map (g : α → β) : Backed (List.map g) all U (MapLeft g U) := by
  intro ys s F w ⟨xs, hs, hys⟩
  refine ⟨xs, s, F, hs, ?_⟩
  rintro taken rfl
  rw [show ys = xs.map g from hys]
  simp only [List.length_map, List.length_append]
  omega

/-- A slot holds at most one element more than is still to be fetched, and that is left too. -/
theorem backed_peek {f : List α → List β} {Rep : ω → ρ → β → Prop} {τ : Type} (src : τ → σ)
    {Stands : List α → List β → τ → Prop} {Ended : List α → τ → Prop}
    (hstands : ∀ taken xs ys s, taken ++ xs = all → Stands xs ys s →
      (f all).length ≤ ys.length + (f taken).length)
    (hended : ∀ taken xs s, taken ++ xs = all → Ended xs s → (f all).length ≤ (f taken).length) :
    Backed f all U (Over (fun q => src q.source) (PeekReads Rep Stands Ended) U) := by
  intro ys ⟨s, slot⟩ F w ⟨xs, hs, hread⟩
  refine ⟨xs, src s, F, hs, fun taken htaken => ?_⟩
  cases slot with
  | empty => exact hstands taken xs ys s htaken hread
  | held b =>
    obtain ⟨a, rest, hys, _, hrest⟩ := hread
    have hlength := hstands taken xs rest s htaken hrest
    rw [hys, List.length_cons]
    omega
  | closed =>
    have hlength := hended taken xs s htaken hread.2
    omega

theorem backed_filter : Backed (List.filter p) all U (FilterLeft p all U) := by
  have hstands : ∀ taken xs ys (s : σ), taken ++ xs = all → FilterStands p all xs ys s →
      (all.filter p).length ≤ ys.length + (taken.filter p).length := by
    intro taken xs ys s htaken ⟨_, hys⟩
    rw [← htaken, hys, List.filter_append, List.length_append]
    omega
  refine backed_peek id hstands ?_
  intro taken xs s htaken hended
  have hlength := hstands taken xs [] s htaken hended
  rw [List.length_nil] at hlength
  omega

theorem backed_takeWhile : Backed (List.takeWhile p) all U (TakeWhileLeft p all U) := by
  refine backed_peek id ?_ ?_
  · -- the run is not over, so all that was taken passed the test
    intro taken xs ys s htaken ⟨pre, hpre, hrun, hys⟩
    have hsame : taken = pre := List.append_cancel_right (htaken.trans hpre.symm)
    rw [← htaken, hys, hsame, List.takeWhile_append_of_pos hrun, List.length_append,
      List.takeWhile_eq_self_iff.mpr hrun]
    omega
  · intro taken xs s htaken ⟨pre, hpre, hrun⟩
    have hsame : taken = pre := List.append_cancel_right (htaken.trans hpre.symm)
    have hlength := congrArg List.length hrun
    rw [hsame]
    omega

theorem backed_dropWhile : Backed (List.dropWhile p) all U (DropWhileLeft p all U) := by
  have hstands : ∀ taken xs ys (d : Dropping σ), taken ++ xs = all → DropStands p all xs ys d →
      (all.dropWhile p).length ≤ ys.length + (taken.dropWhile p).length := by
    intro taken xs ys d htaken ⟨pre, hpre, hd⟩
    have hsame : taken = pre := List.append_cancel_right (htaken.trans hpre.symm)
    subst hsame
    rw [← htaken, List.dropWhile_append]
    split at hd
    · -- still dropping: nothing was handed out yet
      obtain ⟨hrun, hys⟩ := hd
      have hnil : taken.dropWhile p = [] := List.dropWhile_eq_nil_iff.mpr hrun
      rw [hys, hnil]
      exact Nat.le_add_right _ _
    · rw [hd.2]
      split
      · have hle := (List.dropWhile_sublist (l := xs) p).length_le
        omega
      · rw [List.length_append]
        omega
  refine backed_peek Dropping.source hstands ?_
  intro taken xs d htaken hended
  have hlength := hstands taken xs [] d htaken hended
  rw [List.length_nil] at hlength
  omega

theorem backed_slice (win : Window) : Backed win.of all U (SliceLeft Exactly win all U) := by
  have hstands : ∀ taken xs ys (c : Counted σ), taken ++ xs = all → SliceStands win all xs ys c →
      (win.of all).length ≤ ys.length + (win.of taken).length := by
    intro taken xs ys c htaken ⟨pre, hpre, hindex, hys⟩
    have hsame : taken = pre := List.append_cancel_right (htaken.trans hpre.symm)
    rw [← htaken, hys, hsame, hindex, Window.of, Window.of, Window.ofFrom_append,
      List.length_append, Nat.zero_add]
    omega
  refine backed_peek Counted.source hstands ?_
  intro taken xs c htaken hended
  have hlength := hstands taken xs [] c htaken hended
  rw [List.length_nil] at hlength
  omega

end Frame

/-! ## Batches put together again -/

section Batches

open LazySeq.Frame World

variable {ω τ υ : Type} {watch : ω → υ} {F : (frame τ watch).Region} {w : World ω τ} {n r : Nat}
variable {U : (frame τ watch).Account Value (Cursor ω τ)} {all : List Value} {handed : Nat}
variable {left : Nat → List Value} {ks : List Nat}

/-- The runs that were not handed out make up the rest of the list. -/
theorem Bench.flatten_rest (hn : 0 < n) (h : Bench U n all r ⟨handed, left⟩ F w)
    (hks : ks = List.range' handed ((runs n all).length - handed)) :
    (ks.map left).flatten = all.drop (handed * n) := by
  obtain ⟨lefts, rest, hd, _⟩ := h
  have hleft : ks.map left = ks.map (Desk.lay n all).left := by
    refine List.map_congr_left fun j hj => ?_
    rw [hks] at hj
    exact hd.left_eq j (List.mem_range'_1.mp hj).1
  have hdrop : ks = (List.range (runs n all).length).drop handed := by
    rw [hks, List.range_eq_range', List.drop_range', Nat.zero_add, Nat.mul_one]
  rw [hleft, hdrop, List.map_drop, map_left_lay hn, flatten_drop_runs hn]

/-- What the cursor below has left is still to be handed out, but for what the newest batch may
still read. -/
theorem Bench.reading (hn : 0 < n) (h : Bench U n all r ⟨handed, left⟩ F w)
    (hks : ks = List.range' handed ((runs n all).length - handed)) :
    ∃ xs c F', U xs c F' w ∧ (xs.length ≤ (ks.map left).flatten.length ∨
      ∃ j, j ∉ ks ∧ xs.length ≤ (left j).length + (ks.map left).flatten.length) := by
  rw [h.flatten_rest hn hks]
  obtain ⟨lefts, rest, hd, b, _, F₂, _, _, _, xs, hxs, hstands⟩ := h
  have hrest : rest = all.drop (handed * n) := hd.rest_eq
  have hsplit : xs.length = (xs.take b.quota).length + rest.length := by
    rw [← List.length_append, hstands.rest_eq, List.take_append_drop]
  refine ⟨xs, b.reader, F₂, hxs, ?_⟩
  by_cases hquota : 0 < b.quota
  · -- the newest batch reads from the cursor, and what it may still read is what its run has left
    right
    obtain ⟨j, hnew, hshelf⟩ := hstands.shelf_eq hquota
    have hj : j + 1 = handed := by
      have hsize := hstands.size_eq.trans hd.length_eq
      rw [Batching.isNewest, beq_iff_eq] at hnew
      exact hnew.trans hsize
    have hread := (hstands.left_eq (hd.getElem?_of_lt (show j < handed by omega))).2
    rw [hshelf, hnew, if_pos rfl, List.nil_append] at hread
    refine ⟨j, ?_, ?_⟩
    · rw [hks]
      intro hmem
      have hle := (List.mem_range'_1.mp hmem).1
      omega
    · show xs.length ≤ (left j).length + _
      rw [show left j = xs.take b.quota from hread, ← hrest]
      omega
  · left
    have hnil : xs.take b.quota = [] := by
      rw [show b.quota = 0 by omega, List.take_zero]
    rw [hnil, List.length_nil] at hsplit
    rw [← hrest]
    omega

theorem backed_concat (hn : 0 < n) : Backed id all U (ConcatLeft U n all [] r) := by
  intro ys ⟨c, current⟩ F w h
  suffices hread : ∃ xs c F', U xs c F' w ∧ xs.length ≤ ys.length by
    obtain ⟨xs, c, F', hs, hle⟩ := hread
    refine ⟨xs, c, F', hs, ?_⟩
    rintro taken rfl
    simp only [id, List.length_append]
    omega
  cases current with
  | none =>
    obtain ⟨xss, rfl, _, left, ks, rfl, _, hleft, rfl, handed, hks, hbench⟩ := h
    obtain ⟨xs, c, F', hs, hle⟩ := hbench.reading hn hks
    refine ⟨xs, c, F', hs, ?_⟩
    rcases hle with hle | ⟨j, hj, hle⟩
    · exact hle
    · rw [hleft rfl j hj, List.length_nil] at hle
      omega
  | some t =>
    obtain ⟨ys, xss, rfl, _, left, k, ks, id, rfl, _, rfl, rfl, _, hleft, hc⟩ := h
    obtain ⟨rfl, handed, hks, hbench⟩ := hc
    obtain ⟨xs, c, F', hs, hle⟩ := hbench.reading hn hks
    refine ⟨xs, c, F', hs, ?_⟩
    rw [List.length_append]
    rcases hle with hle | ⟨j, hj, hle⟩
    · omega
    · -- either it is the batch that is walked, or it is through
      by_cases hjk : j = k
      · rw [hjk] at hle
        exact hle
      · rw [hleft rfl j fun hmem => (List.mem_cons.mp hmem).elim hjk hj, List.length_nil] at hle
        omega

end Batches

end LazySeq
