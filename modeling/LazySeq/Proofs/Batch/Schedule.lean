import LazySeq.Proofs.Schedule
import LazySeq.Stage.Batch

/-!
# Schedules over a batching cursor and its batches

A caller that cuts a cursor into batches holds several handles at once: the batching cursor and
every batch it handed out. `Machine.batchRun` makes calls on them in any order. A batch that was not
handed out yet cannot be called; such a call is skipped and its reply is `absent`.
-/

namespace LazySeq

/-- A call on the batching cursor or on one of the batches it handed out. -/
inductive BatchAsk where
  | outer (ask : Ask)
  | batch (k : Nat) (ask : Ask)

/-- The reply to such a call. -/
inductive BatchReply (α : Type) where
  | outer (reply : Reply Nat)
  | batch (k : Nat) (reply : Reply α)
  | absent

/-- What batch `k` handed out, in order. -/
def BatchReply.delivered {α : Type} (k : Nat) (replies : List (BatchReply α)) : List α :=
  replies.flatMap fun
    | .batch j reply => if j = k then Reply.items [reply] else []
    | _ => []

theorem BatchReply.delivered_cons {α : Type} {k : Nat} {reply : BatchReply α}
    {replies : List (BatchReply α)} :
    delivered k (reply :: replies) = delivered k [reply] ++ delivered k replies := by
  simp only [delivered, List.flatMap_cons, List.flatMap_nil, List.append_nil]

namespace Machine

variable {ω σ α : Type}

/-- Makes one call. -/
def batchCall (n : Nat) (m : Machine ω σ α) :
    BatchAsk → Batching σ α → Comp ω (BatchReply α × Batching σ α)
  | .outer ask, b => do
    let (reply, b) ← (m.batches n).call ask b
    return (.outer reply, b)
  | .batch k ask, b =>
    if k < b.shelves.size then do
      let (reply, b) ← (m.batch k).call ask b
      return (.batch k reply, b)
    else
      return (.absent, b)

/-- Makes the calls of a schedule, in order. -/
def batchRun (n : Nat) (m : Machine ω σ α) :
    List BatchAsk → Batching σ α → Comp ω (List (BatchReply α) × Batching σ α)
  | [], b => return ([], b)
  | ask :: asks, b => do
    let (reply, b) ← m.batchCall n ask b
    let (replies, b) ← m.batchRun n asks b
    return (reply :: replies, b)

end Machine

end LazySeq
