import LazySeq.Proofs.Batch.Schedule
import LazySeq.Proofs.Batch.Shelf
import LazySeq.Proofs.Recorded

/-!
# Batching loses and duplicates nothing

For a cursor below that keeps to no law at all: its `hasNext` may promise what `next` then fails to
bring, and it may go on after it said that nothing is left. Whatever it brought is with exactly one
batch, delivered or on the shelf, and the batches together hold it in the order in which it was
brought (`Batching.Conserves`). What one call may do to that is said for the four calls separately;
`Machine.batchRun_conserves` is about every schedule.
-/

namespace LazySeq

variable {ω σ α : Type}

/-! ## What was delivered -/

namespace BatchReply

variable {j k : Nat} {replies : List (BatchReply α)} {reply : Reply α}

@[simp]
theorem delivered_outer {reply : Reply Nat} :
    delivered k (replies ++ [outer reply]) = delivered k replies := by
  simp [delivered]

@[simp]
theorem delivered_absent : delivered k (replies ++ [absent]) = delivered k replies := by
  simp [delivered]

theorem delivered_self :
    delivered k (replies ++ [batch k reply]) = delivered k replies ++ Reply.items [reply] := by
  simp [delivered]

theorem delivered_ne (h : j ≠ k) :
    delivered k (replies ++ [batch j reply]) = delivered k replies := by
  simp [delivered, h]

end BatchReply

/-! ## The invariant -/

namespace Batching

open BatchReply

/-- Every element received is with one batch, and the batches are in bounds: `replies` are those
given so far and `received` is what the cursor below brought. -/
structure Conserves (n : Nat) (received : List α) (replies : List (BatchReply α))
    (b : Batching σ α) : Prop where
  received_eq : received =
    (List.range b.shelves.size).flatMap fun k => delivered k replies ++ b.shelf k
  length_le : ∀ k, k < b.shelves.size → (delivered k replies).length + (b.shelf k).length ≤ n
  /-- while the newest batch may take from below nothing is set aside for it -/
  quota_le : 0 < b.quota → ∃ k, b.isNewest k ∧ b.shelf k = [] ∧
    (delivered k replies).length + b.quota ≤ n
  /-- a batch that was not handed out delivered nothing -/
  delivered_eq : ∀ k, b.shelves.size ≤ k → delivered k replies = []

variable {n : Nat} {received : List α} {replies : List (BatchReply α)} {b : Batching σ α}

theorem conserves_fresh (s : σ) : (fresh s : Batching σ α).Conserves n [] [] where
  received_eq := rfl
  length_le k hk := absurd hk (Nat.not_lt_zero k)
  quota_le hq := absurd hq (Nat.lt_irrefl 0)
  delivered_eq _ _ := rfl

/-- What is received goes to the newest batch, which is the last in order. -/
theorem flatMap_range_newest {f g : Nat → List α} {k size : Nat} {new : List α}
    (hk : k + 1 = size) (hlt : ∀ j, j < k → g j = f j) (heq : g k = f k ++ new) :
    (List.range size).flatMap g = (List.range size).flatMap f ++ new := by
  subst hk
  have hinit : (List.range k).map g = (List.range k).map f :=
    List.map_congr_left fun j hj => hlt j (List.mem_range.mp hj)
  rw [List.range_succ, List.flatMap_append, List.flatMap_append, List.flatMap_def, hinit,
    ← List.flatMap_def]
  simp [heq]

/-! ### The invariant after each kind of change -/

theorem Conserves.of_eq {replies' : List (BatchReply α)} {b' : Batching σ α}
    (hb : b.Conserves n received replies) (hd : ∀ k, delivered k replies' = delivered k replies)
    (hs : b'.shelves = b.shelves) (hq : b'.quota = b.quota) : b'.Conserves n received replies' := by
  have hshelf : ∀ k, b'.shelf k = b.shelf k := fun k => by rw [shelf, shelf, hs]
  have hnew : ∀ k, b'.isNewest k = b.isNewest k := fun k => by rw [isNewest, isNewest, hs]
  refine ⟨?_, ?_, ?_, ?_⟩
  · simpa only [hd, hs, hshelf] using hb.received_eq
  · simpa only [hd, hs, hshelf] using hb.length_le
  · simpa only [hd, hq, hshelf, hnew] using hb.quota_le
  · simpa only [hd, hs] using hb.delivered_eq

/-- What is set aside was received just now, and goes on the shelf of the newest batch. -/
theorem Conserves.aside (hb : b.Conserves n received replies) {rest : List α}
    (hlen : rest.length ≤ b.quota) :
    (⟨s, 0, b.shelves.modify (b.shelves.size - 1) (· ++ rest)⟩ : Batching σ α).Conserves n
      (received ++ rest) replies := by
  rcases Nat.eq_zero_or_pos b.quota with hq | hq
  · -- nothing could be taken, so nothing was
    have hnil : rest = [] := List.length_eq_zero_iff.mp (by omega)
    subst hnil
    have hshelf : ∀ j, (⟨s, 0, b.shelves.modify (b.shelves.size - 1) (· ++ [])⟩ :
        Batching σ α).shelf j = b.shelf j := by
      intro j
      rw [shelf_setAside, ite_self, List.append_nil]
    rw [List.append_nil]
    refine ⟨?_, ?_, fun h => absurd h (Nat.lt_irrefl 0), ?_⟩
    · simpa only [Array.size_modify, hshelf] using hb.received_eq
    · simpa only [Array.size_modify, hshelf] using hb.length_le
    · simpa only [Array.size_modify] using hb.delivered_eq
  · obtain ⟨k, hnew, hshelf, hbound⟩ := hb.quota_le hq
    have hsize := isNewest_iff.mp hnew
    refine ⟨?_, ?_, fun h => absurd h (Nat.lt_irrefl 0), ?_⟩
    · rw [hb.received_eq, Array.size_modify]
      refine (flatMap_range_newest hsize ?_ ?_).symm
      · intro j hj
        have hne : b.isNewest j = false := by
          rw [Bool.eq_false_iff, Ne, isNewest_iff]
          omega
        rw [shelf_setAside, hne]
        simp
      · rw [shelf_setAside, hnew, if_pos rfl, List.append_assoc]
    · intro j hj
      rw [Array.size_modify] at hj
      rw [shelf_setAside, List.length_append]
      by_cases hjk : b.isNewest j
      · have heq : j = k := by
          have := isNewest_iff.mp hjk
          omega
        subst heq
        rw [if_pos hjk, hshelf, List.length_nil]
        omega
      · rw [if_neg hjk, List.length_nil]
        exact hb.length_le j hj
    · simpa only [Array.size_modify] using hb.delivered_eq

/-- A new batch has delivered nothing, and its whole quota is before it. -/
theorem Conserves.hand (hb : b.Conserves n received replies) :
    (⟨s, n, b.shelves.push []⟩ : Batching σ α).Conserves n received replies := by
  have hnone : delivered b.shelves.size replies = [] := hb.delivered_eq _ (Nat.le_refl _)
  have hshelf : b.shelf b.shelves.size = [] := by
    simp [shelf, Array.getD_eq_getD_getElem?]
  refine ⟨?_, ?_, ?_, ?_⟩
  · rw [Array.size_push, List.range_succ, List.flatMap_append, hb.received_eq]
    simp [shelf_push, hnone, hshelf]
  · intro k hk
    rw [Array.size_push] at hk
    rw [shelf_push]
    -- the new batch holds nothing, the others hold what they held
    by_cases hlast : k = b.shelves.size
    · rw [hlast, hnone, hshelf]
      exact Nat.zero_le n
    · exact hb.length_le k (by omega)
  · intro _
    refine ⟨b.shelves.size, ?_, ?_, ?_⟩
    · rw [isNewest_iff, Array.size_push]
    · rw [shelf_push, hshelf]
    · have hlen : (delivered b.shelves.size replies).length = 0 := by
        rw [hnone, List.length_nil]
      show _ + n ≤ n
      omega
  · intro k hk
    rw [Array.size_push] at hk
    exact hb.delivered_eq k (by omega)

/-- Delivering from the shelf moves an element from one side of a batch to the other. -/
theorem Conserves.unshelve (hb : b.Conserves n received replies) {k : Nat} {a : α} {rest : List α}
    (hk : k < b.shelves.size) (hshelf : b.shelf k = a :: rest) :
    (⟨s, b.quota, b.shelves.setIfInBounds k rest⟩ : Batching σ α).Conserves n received
      (replies ++ [.batch k (.item (.ok a))]) := by
  have hdeliver : delivered k (replies ++ [.batch k (.item (.ok a))]) =
      delivered k replies ++ [a] := delivered_self
  refine ⟨?_, ?_, ?_, ?_⟩
  · rw [hb.received_eq, Array.size_setIfInBounds, List.flatMap_def, List.flatMap_def]
    congr 1
    refine List.map_congr_left fun j _ => ?_
    rw [shelf_setIfInBounds hk]
    by_cases hj : j = k
    · subst hj
      rw [if_pos rfl, hdeliver, hshelf, List.append_assoc]
      rfl
    · rw [if_neg hj, delivered_ne (Ne.symm hj)]
  · intro j hj
    rw [Array.size_setIfInBounds] at hj
    have hle := hb.length_le j hj
    rw [shelf_setIfInBounds hk]
    by_cases hjk : j = k
    · subst hjk
      rw [hshelf, List.length_cons] at hle
      rw [if_pos rfl, hdeliver, List.length_append, List.length_singleton]
      omega
    · rw [if_neg hjk, delivered_ne (Ne.symm hjk)]
      exact hle
  · intro hq
    obtain ⟨j, hnew, hnil, hbound⟩ := hb.quota_le hq
    -- the newest batch has an empty shelf, so it is another one
    have hjk : j ≠ k := by
      rintro rfl
      rw [hshelf] at hnil
      cases hnil
    refine ⟨j, ?_, ?_, ?_⟩
    · rw [isNewest_iff, Array.size_setIfInBounds]
      exact isNewest_iff.mp hnew
    · rw [shelf_setIfInBounds hk, if_neg hjk]
      exact hnil
    · rw [delivered_ne (Ne.symm hjk)]
      exact hbound
  · intro j hj
    rw [Array.size_setIfInBounds] at hj
    rw [delivered_ne (show k ≠ j by omega)]
    exact hb.delivered_eq j hj

/-- The newest batch takes one element from below, or fails to and has used up a unit of its quota
all the same. -/
theorem Conserves.deliver (hb : b.Conserves n received replies) {k : Nat} (hnew : b.isNewest k)
    (hshelf : b.shelf k = []) (hq : 0 < b.quota) (answer : Except Error α) :
    (⟨s, b.quota - 1, b.shelves⟩ : Batching σ α).Conserves n (received ++ answer.toOption.toList)
      (replies ++ [.batch k (.item answer)]) := by
  have hsize := isNewest_iff.mp hnew
  have hdeliver : delivered k (replies ++ [.batch k (.item answer)]) =
      delivered k replies ++ answer.toOption.toList := by
    rw [delivered_self, Reply.items_item]
  have hone : answer.toOption.toList.length ≤ 1 := by
    cases answer.toOption <;> simp
  have hroom : (delivered k replies).length + b.quota ≤ n := by
    obtain ⟨j, hj, -, hbound⟩ := hb.quota_le hq
    have heq : j = k := by
      have := isNewest_iff.mp hj
      omega
    exact heq ▸ hbound
  refine ⟨?_, ?_, ?_, ?_⟩
  · rw [hb.received_eq]
    refine (flatMap_range_newest hsize ?_ ?_).symm
    · intro j hj
      rw [delivered_ne (show k ≠ j by omega)]
      rfl
    · show delivered k _ ++ b.shelf k = _
      rw [hdeliver, hshelf, List.append_nil, List.append_nil]
  · intro j hj
    show (delivered j _).length + (b.shelf j).length ≤ n
    by_cases hjk : k = j
    · subst hjk
      rw [hdeliver, hshelf, List.length_append, List.length_nil]
      omega
    · rw [delivered_ne hjk]
      exact hb.length_le j hj
  · intro hq'
    refine ⟨k, hnew, hshelf, ?_⟩
    show _ + (b.quota - 1) ≤ n
    rw [hdeliver, List.length_append]
    have hpos : 0 < b.quota - 1 := hq'
    omega
  · intro j hj
    have hlt : b.shelves.size ≤ j := hj
    rw [delivered_ne (show k ≠ j by omega)]
    exact hb.delivered_eq j hj

end Batching

/-! ## What each call does -/

namespace Machine

open Batching BatchReply

variable {m : Machine ω σ α} {n k : Nat} {v : Recorded ω α} {b : Batching σ α}
variable {replies : List (BatchReply α)}

theorem ensures_setAside (hb : b.Conserves n (Reply.items v.calls) replies) :
    (m.recorded.setAside b).Ensures v fun b' v' =>
      b'.Conserves n (Reply.items v'.calls) replies ∧
        Reply.pulls v'.calls ≤ Reply.pulls v.calls + b.quota := by
  refine ensures_recorded_collect.bind ?_
  intro ⟨rest, s⟩ v' ⟨hlen, hitems, hpulls⟩
  refine Comp.ensures_pure.mpr ⟨?_, hpulls⟩
  rw [hitems]
  exact hb.aside hlen

theorem ensures_batchesHasNext (hb : b.Conserves n (Reply.items v.calls) replies) :
    (m.recorded.batchesHasNext b).Ensures v fun r v' =>
      r.2.Conserves n (Reply.items v'.calls) replies ∧
        Reply.pulls v'.calls ≤ Reply.pulls v.calls + b.quota := by
  refine (ensures_setAside hb).bind ?_
  intro b' v' ⟨hb', hpulls⟩
  refine ensures_recorded_hasNext.bind ?_
  intro ⟨more, s⟩ v'' hv
  refine Comp.ensures_pure.mpr ⟨?_, ?_⟩
  · rw [hv, Reply.items_append, Reply.items_more, List.append_nil]
    exact hb'.of_eq (fun _ => rfl) rfl rfl
  · rw [hv, Reply.pulls_append, Reply.pulls_more]
    exact hpulls

/-- A call on the batching cursor takes from below at most what the newest batch might still have
taken. -/
theorem ensures_batches_call (hb : b.Conserves n (Reply.items v.calls) replies) (ask : Ask) :
    ((m.recorded.batches n).call ask b).Ensures v fun r v' =>
      r.2.Conserves n (Reply.items v'.calls) replies ∧
        Reply.pulls v'.calls ≤ Reply.pulls v.calls + b.quota := by
  refine ensures_call (fun _ => ensures_batchesHasNext hb) fun _ => ?_
  refine (ensures_batchesHasNext hb).bind ?_
  intro ⟨more, b'⟩ v' ⟨hb', hpulls⟩
  cases more with
  | true => exact Comp.ensures_pure.mpr ⟨hb'.hand, hpulls⟩
  | false => exact Comp.ensures_pure.mpr ⟨hb', hpulls⟩

/-- Asking a batch receives nothing and changes no batch; only the newest asks below. -/
theorem ensures_batchHasNext :
    (m.recorded.batchHasNext k b).Ensures v fun r v' =>
      r.2.shelves = b.shelves ∧ r.2.quota = b.quota ∧
        Reply.items v'.calls = Reply.items v.calls ∧ Reply.pulls v'.calls = Reply.pulls v.calls ∧
        (b.isNewest k = false → v' = v) ∧
        (r.1 = true → b.shelf k = [] → b.isNewest k ∧ 0 < b.quota) := by
  unfold Machine.batchHasNext
  by_cases hshelf : b.shelf k = []
  · rw [hshelf, List.isEmpty_nil, Bool.not_true, if_neg Bool.false_ne_true]
    by_cases hguard : (b.isNewest k && decide (0 < b.quota)) = true
    · rw [if_pos hguard]
      have hboth : b.isNewest k = true ∧ 0 < b.quota := by simpa using hguard
      refine ensures_recorded_hasNext.bind ?_
      intro ⟨more, s⟩ v' hv
      refine Comp.ensures_pure.mpr ⟨rfl, rfl, ?_, ?_, ?_, fun _ _ => hboth⟩
      · rw [hv, Reply.items_append, Reply.items_more, List.append_nil]
      · rw [hv, Reply.pulls_append, Reply.pulls_more, Nat.add_zero]
      · intro hnew
        rw [hnew] at hboth
        exact absurd hboth.1 Bool.false_ne_true
    · rw [if_neg hguard]
      refine Comp.ensures_pure.mpr ⟨rfl, rfl, rfl, rfl, fun _ => rfl, ?_⟩
      intro h
      exact absurd h Bool.false_ne_true
  · have hne : (!(b.shelf k).isEmpty) = true := by simpa using hshelf
    rw [if_pos hne]
    exact Comp.ensures_pure.mpr ⟨rfl, rfl, rfl, rfl, fun _ => rfl, fun _ h => absurd h hshelf⟩

/-- What a call on batch `k` may do: `reply` is its reply, `b'` and `v'` what it leaves. What it
takes from below and what is left of the quota add up to the quota there was, so the quota is never
taken from when it is zero. -/
def KeepsBatch (n k : Nat) (replies : List (BatchReply α)) (b : Batching σ α) (v : Recorded ω α)
    (reply : Reply α) (b' : Batching σ α) (v' : Recorded ω α) : Prop :=
  b'.Conserves n (Reply.items v'.calls) (replies ++ [.batch k reply]) ∧
    Reply.pulls v'.calls + b'.quota = Reply.pulls v.calls + b.quota ∧
    (b.isNewest k = false → v' = v)

theorem ensures_batch_next (hb : b.Conserves n (Reply.items v.calls) replies)
    (hk : k < b.shelves.size) :
    ((m.recorded.batch k).next b).Ensures v fun r v' =>
      KeepsBatch n k replies b v (.item r.1) r.2 v' := by
  cases hshelf : b.shelf k with
  | cons a rest =>
    simp only [Machine.batch, hshelf]
    exact Comp.ensures_pure.mpr ⟨hb.unshelve hk hshelf, rfl, fun _ => rfl⟩
  | nil =>
    simp only [Machine.batch, hshelf]
    refine ensures_batchHasNext.bind ?_
    rintro ⟨more, b'⟩ v' ⟨hs, hq, hitems, hpulls, hsame, hguard⟩
    dsimp only at hs hq hguard
    have hb' : b'.Conserves n (Reply.items v'.calls) replies :=
      hitems ▸ hb.of_eq (fun _ => rfl) hs hq
    have hshelf' : b'.shelf k = [] := by
      rw [Batching.shelf, hs]
      exact hshelf
    cases more with
    | true =>
      -- the batch is the newest, so it is the cursor below that answers
      obtain ⟨hnew, hpos⟩ := hguard rfl hshelf
      have hnew' : b'.isNewest k = true := by
        rw [Batching.isNewest, hs]
        exact hnew
      refine ensures_recorded_next.bind ?_
      rintro ⟨answer, s⟩ v'' hv
      dsimp only at hv
      refine Comp.ensures_pure.mpr ⟨?_, ?_, ?_⟩
      · rw [hv, Reply.items_append, Reply.items_item]
        exact hb'.deliver hnew' hshelf' (hq ▸ hpos) answer
      · show Reply.pulls v''.calls + (b'.quota - 1) = _
        rw [hv, Reply.pulls_append, Reply.pulls_item, hpulls, hq]
        omega
      · intro h
        rw [hnew] at h
        cases h
    | false =>
      refine Comp.ensures_pure.mpr ⟨?_, by rw [hq, hpulls], hsame⟩
      refine hb'.of_eq (fun j => ?_) rfl rfl
      by_cases hj : k = j
      · subst hj
        rw [delivered_self, Reply.items_item]
        exact List.append_nil _
      · exact delivered_ne hj

/-- A call on a batch that was handed out. -/
theorem ensures_batch_call (hb : b.Conserves n (Reply.items v.calls) replies)
    (hk : k < b.shelves.size) (ask : Ask) :
    ((m.recorded.batch k).call ask b).Ensures v fun r v' =>
      KeepsBatch n k replies b v r.1 r.2 v' := by
  cases ask with
  | hasNext =>
    refine ensures_batchHasNext.bind ?_
    rintro ⟨more, b'⟩ v' ⟨hs, hq, hitems, hpulls, hsame, -⟩
    dsimp only at hs hq
    refine Comp.ensures_pure.mpr ⟨?_, by rw [hq, hpulls], hsame⟩
    rw [hitems]
    refine hb.of_eq (fun j => ?_) hs hq
    by_cases hj : k = j
    · rw [hj, delivered_self, Reply.items_more, List.append_nil]
    · exact delivered_ne hj
  | next =>
    refine (ensures_batch_next hb hk).bind ?_
    intro ⟨answer, b'⟩ v' h
    exact Comp.ensures_pure.mpr h

/-! ## Every schedule -/

theorem ensures_batchCall (hb : b.Conserves n (Reply.items v.calls) replies) (ask : BatchAsk) :
    (m.recorded.batchCall n ask b).Ensures v fun r v' =>
      r.2.Conserves n (Reply.items v'.calls) (replies ++ [r.1]) := by
  cases ask with
  | outer ask =>
    refine (ensures_batches_call hb ask).bind ?_
    rintro ⟨reply, b'⟩ v' ⟨hb', -⟩
    exact Comp.ensures_pure.mpr (hb'.of_eq (fun _ => delivered_outer) rfl rfl)
  | batch k ask =>
    rw [Machine.batchCall]
    split
    · next hk =>
      refine (ensures_batch_call hb hk ask).bind ?_
      rintro ⟨reply, b'⟩ v' ⟨hb', -, -⟩
      exact Comp.ensures_pure.mpr hb'
    · exact Comp.ensures_pure.mpr (hb.of_eq (fun _ => delivered_absent) rfl rfl)

theorem ensures_batchRun {asks : List BatchAsk}
    (hb : b.Conserves n (Reply.items v.calls) replies) :
    (m.recorded.batchRun n asks b).Ensures v fun r v' =>
      r.2.Conserves n (Reply.items v'.calls) (replies ++ r.1) := by
  -- on the schedule; the replies given so far go with the state
  induction asks generalizing replies v b with
  | nil =>
    refine Comp.ensures_pure.mpr ?_
    rw [List.append_nil]
    exact hb
  | cons ask asks ih =>
    refine (ensures_batchCall hb ask).bind ?_
    intro ⟨reply, b'⟩ v' hb'
    refine (ih hb').bind ?_
    intro ⟨rest, b''⟩ v'' hb''
    refine Comp.ensures_pure.mpr ?_
    rw [List.append_assoc] at hb''
    exact hb''

/-- Whatever the cursor below does and whatever calls are made, in the state that they lead to
nothing was lost or duplicated; a further call on a batch takes no more than the quota, and nothing
at all if a newer batch was handed out; a further call on the batching cursor takes no more than the
quota either. -/
theorem batchRun_conserves (m : Machine ω σ α) (n : Nat) (asks : List BatchAsk) (w : ω) (s : σ) :
    (m.recorded.batchRun n asks (.fresh s)).Ensures ⟨w, []⟩ fun r v =>
      r.2.Conserves n (Reply.items v.calls) r.1 ∧
        (∀ k ask, k < r.2.shelves.size →
          ((m.recorded.batch k).call ask r.2).Ensures v fun r' v' =>
            Reply.pulls v'.calls + r'.2.quota = Reply.pulls v.calls + r.2.quota ∧
              (r.2.isNewest k = false → v' = v)) ∧
        ∀ ask, ((m.recorded.batches n).call ask r.2).Ensures v fun _ v' =>
          Reply.pulls v'.calls ≤ Reply.pulls v.calls + r.2.quota := by
  have hfresh : (fresh s : Batching σ α).Conserves n (Reply.items []) [] := conserves_fresh s
  refine Comp.Ensures.mono (ensures_batchRun (v := ⟨w, []⟩) hfresh) ?_
  intro ⟨replies, b⟩ v hb
  refine ⟨hb, fun k ask hk => ?_, fun ask => ?_⟩
  · refine (ensures_batch_call hb hk ask).mono ?_
    rintro r v' ⟨-, hpulls, hsame⟩
    exact ⟨hpulls, hsame⟩
  · refine (ensures_batches_call hb ask).mono ?_
    rintro r v' ⟨-, hpulls⟩
    exact hpulls

end Machine

end LazySeq
