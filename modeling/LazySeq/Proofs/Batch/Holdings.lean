import LazySeq.Proofs.Batch.AnyOrder
import LazySeq.Proofs.Batch.Shelf
import Mathlib.Algebra.Order.BigOperators.Group.Finset

/-!
# How much is set aside

What the newest batch has left unread is set aside when the batching cursor is asked again, on a
shelf of that batch's own, and stays there until the batch is read or dropped. So the shelves of the
batches that are still in use hold what was left unread of those that are detached from the cursor
below, and nothing else (`Machine.Lawful.batchRun_held`).

That is at most one batch for each of them. It is not at most one batch in all: of batches that are
asked for one after the other and not read, all but the last are on their shelves whole
(`Machine.Lawful.batchRun_held_all`).
-/

namespace LazySeq

variable {ω σ α : Type}

/-! ## What a run delivers and what it leaves -/

namespace BatchReply

/-- What batch `k` of a list cut into batches of `n` has not delivered yet. -/
def unread (n : ℕ) (xs : List α) (replies : List (BatchReply α)) (k : ℕ) : List α :=
  ((xs.drop (k * n)).take n).drop (delivered k replies).length

variable {n : ℕ} {xs : List α} {replies : List (BatchReply α)} {k : ℕ}

theorem length_unread_le : (unread n xs replies k).length ≤ n := by
  rw [unread, List.length_drop, List.length_take]
  omega

end BatchReply

namespace Desk

open BatchReply

variable {n len : ℕ}

theorem left_after_lay (n len : ℕ) (xs : List α) (asks : List BatchAsk) (k : ℕ) :
    ((lay n xs).after n len asks).left k = unread n xs ((lay n xs).run n len asks) k := by
  have hlay : (xs.drop (k * n)).take n = (lay n xs).left k := rfl
  have hrun := left_run n len asks (lay n xs) k
  rw [unread, hlay, ← hrun, List.drop_left]

/-- Asking for batches hands out one after the other, for as long as elements are left, and reads
none of them. -/
theorem after_replicate_next {count : ℕ} {d : Desk α} (h : (d.handed + count) * n < len) :
    d.after n len (List.replicate (count + 1) (.outer .next)) =
      ⟨d.handed + (count + 1), d.left⟩ := by
  -- on the number of calls; the first of them moves the desk on by one
  induction count generalizing d with
  | zero =>
    have hlt : d.handed * n < len := h
    simp [after, call, hlt]
  | succ count ih =>
    have hlt : d.handed * n < len :=
      Nat.lt_of_le_of_lt (Nat.mul_le_mul_right n (Nat.le_add_right d.handed (count + 1))) h
    have hnext : (d.handed + 1 + count) * n < len := by rwa [Nat.add_right_comm]
    rw [List.replicate_succ, after, call, if_pos hlt, ih hnext]
    simp only [Nat.add_assoc, Nat.add_comm 1]

end Desk

/-! ## Shelves -/

namespace Batching

/-- Batch `k` was handed out and takes nothing from below any more. -/
def isDetached (b : Batching σ α) (k : ℕ) : Bool :=
  k < b.shelves.size && !(b.isNewest k && 0 < b.quota)

/-- How many elements are set aside for the batches that are still in use. -/
def held (b : Batching σ α) (inUse : Finset ℕ) : ℕ :=
  ∑ k ∈ inUse, (b.shelf k).length

variable {lefts : List (List α)} {rest xs : List α} {b : Batching σ α} {k : ℕ} {l : List α}

/-- The shelf of a batch has all that the batch has left, or nothing. -/
theorem Stands.shelf_eq_ite (h : b.Stands lefts rest xs) (hk : lefts[k]? = some l) :
    b.shelf k = if b.isDetached k then l else [] := by
  obtain ⟨hshelf, hleft⟩ := h.left_eq hk
  have hlt : k < b.shelves.size := (Array.getElem?_eq_some_iff.mp hshelf).1
  by_cases hnew : b.isNewest k ∧ 0 < b.quota
  · rw [h.shelf_newest hnew.1 hnew.2]
    simp [isDetached, hnew]
  · -- older than the newest, or the newest with its quota used up
    have hdet : b.isDetached k := by simpa [isDetached, hlt, imp_iff_not_or] using hnew
    rw [if_pos hdet, hleft]
    split
    · next hn => simp [show b.quota = 0 by have := not_and.mp hnew hn; omega]
    · rw [List.append_nil]

variable {f : ℕ → List α}

theorem held_eq (h : ∀ k, b.shelf k = if b.isDetached k then f k else []) (inUse : Finset ℕ) :
    b.held inUse = ∑ k ∈ inUse with b.isDetached k, (f k).length := by
  rw [held, Finset.sum_filter]
  refine Finset.sum_congr rfl fun k _ => ?_
  rw [h k]
  split <;> rfl

/-- Batches that have nothing left do not count. -/
theorem held_le {n : ℕ} (h : ∀ k, b.shelf k = if b.isDetached k then f k else [])
    (hle : ∀ k, (f k).length ≤ n) (inUse : Finset ℕ) :
    b.held inUse ≤ n * (inUse.filter fun k => b.isDetached k ∧ f k ≠ []).card := by
  have hnil : ∀ k, (f k).length ≠ 0 → f k ≠ [] := fun k hne hnil => hne (by rw [hnil]; rfl)
  calc
    b.held inUse = ∑ k ∈ inUse with b.isDetached k, (f k).length := held_eq h inUse
    _ = ∑ k ∈ inUse with b.isDetached k ∧ f k ≠ [], (f k).length := by
        rw [← Finset.sum_filter_of_ne fun k _ => hnil k, Finset.filter_filter]
    _ ≤ ∑ k ∈ inUse with b.isDetached k ∧ f k ≠ [], n := Finset.sum_le_sum fun k _ => hle k
    _ = n * (inUse.filter fun k => b.isDetached k ∧ f k ≠ []).card := by
        rw [Finset.sum_const_nat fun _ _ => rfl, Nat.mul_comm]

end Batching

/-! ## Any schedule -/

namespace Machine

open Batching BatchReply

variable {m : Machine ω σ α} {Left : List α → ω → σ → Prop} {n : ℕ} {xs : List α}

/-- The shelf of a batch holds what the batch has not delivered yet, if it is detached. -/
theorem Lawful.batchRun_shelf (h : m.Lawful Left) {w : ω} {s : σ} (hs : Left xs w s)
    (asks : List BatchAsk) :
    (m.batchRun n asks (.fresh s)).Returns w fun r _ => ∀ k,
      r.2.shelf k = if r.2.isDetached k then unread n xs r.1 k else [] := by
  refine (h.batchRun_account (Desk.agrees_lay n xs) ⟨xs, hs, stands_fresh xs s⟩).mono ?_
  rintro ⟨replies, b⟩ w' ⟨rfl, lefts, rest, hd, ys, -, hb⟩ k
  by_cases hk : k < b.shelves.size
  · rw [hb.size_eq, hd.length_eq] at hk
    rw [← Desk.left_after_lay]
    exact hb.shelf_eq_ite (hd.getElem?_of_lt hk)
  · rw [shelf_of_size_le (Nat.not_lt.mp hk)]
    simp [isDetached, hk]

/-- Over a lawful cursor, whatever calls were made: what is set aside for the batches in use is what
the detached ones among them have not delivered yet, and that is at most `n` elements for each of
those that have anything left. -/
theorem Lawful.batchRun_held (h : m.Lawful Left) {w : ω} {s : σ} (hs : Left xs w s)
    (asks : List BatchAsk) :
    (m.batchRun n asks (.fresh s)).Returns w fun r _ => ∀ inUse : Finset ℕ,
      r.2.held inUse = ∑ k ∈ inUse with r.2.isDetached k, (unread n xs r.1 k).length ∧
        r.2.held inUse ≤
          n * (inUse.filter fun k => r.2.isDetached k ∧ unread n xs r.1 k ≠ []).card := by
  refine (h.batchRun_shelf hs asks).mono ?_
  intro r w' hshelf inUse
  exact ⟨held_eq hshelf inUse, held_le hshelf (fun _ => length_unread_le) inUse⟩

/-- Of three elements in runs of two, the second is on the shelf of the first batch as soon as the
second batch is asked for. -/
theorem batchRun_held_one_left :
    ((peek (pullHead : List ℕ → Comp Unit _)).batchRun 2
      [.outer .next, .batch 0 .next, .outer .next] (.fresh (.fresh [1, 2, 3]))).Returns ()
      fun r _ => r.2.held {0, 1} = 1 ∧ ∀ inUse : Finset ℕ, r.2.held inUse ≤
        2 * (inUse.filter fun k => r.2.isDetached k ∧ unread 2 [1, 2, 3] r.1 k ≠ []).card := by
  have hone : ((peek (pullHead : List ℕ → Comp Unit _)).batchRun 2
      [.outer .next, .batch 0 .next, .outer .next] (.fresh (.fresh [1, 2, 3]))).Returns ()
      fun r _ => r.2.held {0, 1} = 1 := ⟨_, _, rfl, rfl⟩
  refine (hone.and_ensures (lawful_peek_pullHead.batchRun_held
    (show HeadLeft [1, 2, 3] () (.fresh [1, 2, 3]) from rfl) _).ensures).mono ?_
  rintro r w ⟨hheld, hbound⟩
  exact ⟨hheld, fun inUse => (hbound inUse).2⟩

/-- Six elements in runs of two: when the third batch is asked for, both batches handed out before
it are on their shelves whole. -/
theorem batchRun_held_two_batches :
    HeadLeft [0, 1, 2, 3, 4, 5] () (.fresh [0, 1, 2, 3, 4, 5]) ∧
      ((peek (pullHead : List ℕ → Comp Unit _)).batchRun 2
        [.outer .next, .outer .next, .outer .next] (.fresh (.fresh [0, 1, 2, 3, 4, 5]))).Returns ()
        fun r _ => r.1 = [.outer (.item (.ok 0)), .outer (.item (.ok 1)), .outer (.item (.ok 2))] ∧
          r.2.held {0, 1, 2} = 4 ∧ ¬ r.2.held {0, 1, 2} ≤ 2 :=
  ⟨rfl, _, _, rfl, rfl, rfl, by decide⟩

/-- The bound is reached for any number of batches: where one more is asked for and none is read,
all of those before it are set aside whole. -/
theorem Lawful.batchRun_held_all (h : m.Lawful Left) {w : ω} {s : σ} (hs : Left xs w s)
    {count : ℕ} (hcount : count * n < xs.length) :
    (m.batchRun n (List.replicate (count + 1) (.outer .next)) (.fresh s)).Returns w
      fun r _ => r.2.held (Finset.range count) = n * count := by
  have hlay : ((Desk.lay n xs).handed + count) * n < xs.length := by rwa [Desk.lay, Nat.zero_add]
  refine (h.batchRun_account (Desk.agrees_lay n xs) ⟨xs, hs, stands_fresh xs s⟩).mono ?_
  rintro ⟨replies, b⟩ w' ⟨-, lefts, rest, hd, ys, -, hb⟩
  rw [Desk.after_replicate_next hlay] at hd
  have hsize : b.shelves.size = count + 1 := by
    rw [hb.size_eq, hd.length_eq, Desk.lay, Nat.zero_add]
  have hshelf : ∀ k ∈ Finset.range count, (b.shelf k).length = n := by
    intro k hk
    have hlt : k < count := Finset.mem_range.mp hk
    have hdetached : b.isDetached k := by
      simp [isDetached, isNewest, hsize, hlt.ne, Nat.lt_succ_of_lt hlt]
    rw [hb.shelf_eq_ite (hd.getElem?_of_lt (by dsimp only; omega)), if_pos hdetached, Desk.lay,
      List.length_take, List.length_drop]
    -- the list goes on after run `k`, so this run is not the short one
    have hrun : (k + 1) * n ≤ count * n := Nat.mul_le_mul_right n hlt
    rw [Nat.succ_mul] at hrun
    omega
  rw [Batching.held, Finset.sum_const_nat hshelf, Finset.card_range, Nat.mul_comm]

end Machine

end LazySeq
