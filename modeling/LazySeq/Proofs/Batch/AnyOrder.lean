import LazySeq.Proofs.Batch.Account
import LazySeq.Proofs.Batch.Schedule
import LazySeq.Proofs.Stage.Peek

/-!
# Batches can be read in any order

The reference for a batching cursor and its batches is a `Desk`: the runs of the list lie side by
side, each under a list cursor of its own, and handing out a batch only uncovers the next of them.
Nothing is shared on a desk, so a call on one batch cannot touch another.

`Machine.Lawful.batchRun_fresh` says that a lawful cursor cut into batches cannot be told from the
desk over its list, by any schedule.
-/

namespace LazySeq

variable {ω σ α : Type}

/-! ## The desk -/

/-- Runs that are read independently of each other, and how many of them were handed out. -/
structure Desk (α : Type) where
  handed : Nat
  /-- what is left of run `k`, handed out or not -/
  left : Nat → List α

namespace Desk

/-- The desk on which nothing was handed out: run `k` is what lies between the positions `k * n`
and `(k + 1) * n`. -/
def lay (n : Nat) (xs : List α) : Desk α :=
  ⟨0, fun k => (xs.drop (k * n)).take n⟩

/-- The reply of a desk over `len` elements in runs of `n`. -/
def call (n len : Nat) : BatchAsk → Desk α → BatchReply α × Desk α
  | .outer .hasNext, d => (.outer (.more (d.handed * n < len)), d)
  | .outer .next, d =>
    if d.handed * n < len then
      (.outer (.item (.ok d.handed)), ⟨d.handed + 1, d.left⟩)
    else
      (.outer (.item (.error .exhausted)), d)
  | .batch k ask, d =>
    if k < d.handed then
      let (reply, rest) := ListCursor.call ask (d.left k)
      (.batch k reply, ⟨d.handed, fun j => if j = k then rest else d.left j⟩)
    else
      (.absent, d)

/-- The replies to a schedule. -/
def run (n len : Nat) : List BatchAsk → Desk α → List (BatchReply α)
  | [], _ => []
  | ask :: asks, d => (d.call n len ask).1 :: run n len asks (d.call n len ask).2

/-- The desk after a schedule. -/
def after (n len : Nat) : List BatchAsk → Desk α → Desk α
  | [], d => d
  | ask :: asks, d => after n len asks (d.call n len ask).2

/-- What was handed out stays handed out. -/
theorem handed_le_call (n len : Nat) (ask : BatchAsk) (d : Desk α) :
    d.handed ≤ (d.call n len ask).2.handed := by
  cases ask with
  | outer ask =>
    cases ask with
    | hasNext => exact Nat.le_refl _
    | next =>
      simp only [call]
      split
      · exact Nat.le_succ _
      · exact Nat.le_refl _
  | batch k ask =>
    simp only [call]
    split
    · exact Nat.le_refl _
    · exact Nat.le_refl _

/-- A number that was handed out is one of those that were handed out. -/
theorem lt_handed_of_call {n len : Nat} {ask : Ask} {d : Desk α} {k : Nat}
    (h : (d.call n len (.outer ask)).1 = .outer (.item (.ok k))) :
    k < (d.call n len (.outer ask)).2.handed := by
  cases ask with
  | hasNext => cases h
  | next =>
    simp only [call] at h ⊢
    split at h
    · cases h
      simp only [*, if_true]
      exact Nat.lt_succ_self _
    · cases h

/-! ### What is delivered -/

theorem left_call (n len : Nat) (ask : BatchAsk) (d : Desk α) (k : Nat) :
    BatchReply.delivered k [(d.call n len ask).1] ++ (d.call n len ask).2.left k = d.left k := by
  cases ask with
  | outer ask =>
    cases ask with
    | hasNext => rfl
    | next =>
      simp only [call]
      split <;> rfl
  | batch j ask =>
    simp only [call]
    split
    · by_cases hj : k = j
      · subst hj
        simpa [BatchReply.delivered] using ListCursor.items_call_append ask (d.left k)
      · simp [BatchReply.delivered, hj, Ne.symm hj]
    · rfl

/-- What a run has left before a schedule is what it delivers and what it has left afterwards. -/
theorem left_run (n len : Nat) (asks : List BatchAsk) (d : Desk α) (k : Nat) :
    BatchReply.delivered k (d.run n len asks) ++ (d.after n len asks).left k = d.left k := by
  induction asks generalizing d with
  | nil => rfl
  | cons ask asks ih =>
    have hrest := ih (d.call n len ask).2
    rw [run, after, BatchReply.delivered_cons, List.append_assoc, hrest, left_call]

/-! ## A desk and an account -/

/-- The account `lefts` and `rest` of a batching cursor over `xs` says what the desk says. -/
structure Agrees (n : Nat) (xs : List α) (lefts : List (List α)) (rest : List α) (d : Desk α) :
    Prop where
  lefts_eq : ∀ k : Nat, lefts[k]? = if k < d.handed then some (d.left k) else none
  rest_eq : rest = xs.drop (d.handed * n)
  /-- what was not handed out was not read -/
  left_eq : ∀ k, d.handed ≤ k → d.left k = (xs.drop (k * n)).take n

variable {n : Nat} {xs rest : List α} {lefts : List (List α)} {d : Desk α}

theorem agrees_lay (n : Nat) (xs : List α) : (lay n xs).Agrees n xs [] xs where
  lefts_eq k := by simp [lay]
  rest_eq := by simp [lay]
  left_eq _ _ := rfl

theorem Agrees.length_eq (h : d.Agrees n xs lefts rest) : lefts.length = d.handed := by
  have hnone : ∀ k, lefts.length ≤ k ↔ d.handed ≤ k := fun k => by
    rw [← List.getElem?_eq_none_iff, h.lefts_eq k]
    simp
  have h₁ := (hnone lefts.length).mp (Nat.le_refl _)
  have h₂ := (hnone d.handed).mpr (Nat.le_refl _)
  omega

theorem Agrees.isEmpty_rest (h : d.Agrees n xs lefts rest) :
    (!rest.isEmpty) = decide (d.handed * n < xs.length) := by
  rw [h.rest_eq, Bool.eq_iff_iff]
  simp

theorem Agrees.getElem?_of_lt (h : d.Agrees n xs lefts rest) {k : Nat} (hk : k < d.handed) :
    lefts[k]? = some (d.left k) := by
  rw [h.lefts_eq k, if_pos hk]

/-- Handing out the next run uncovers it. -/
theorem Agrees.hand (h : d.Agrees n xs lefts rest) :
    (⟨d.handed + 1, d.left⟩ : Desk α).Agrees n xs (lefts ++ [rest.take n]) (rest.drop n) where
  lefts_eq k := by
    have hlen := h.length_eq
    rcases Nat.lt_trichotomy k d.handed with hlt | rfl | hgt
    · rw [List.getElem?_append_left (by omega), h.getElem?_of_lt hlt, if_pos (by dsimp only; omega)]
    · rw [if_pos (by dsimp only; omega), ← hlen, List.getElem?_concat_length, h.rest_eq, hlen,
        h.left_eq d.handed (Nat.le_refl _)]
    · rw [if_neg (by dsimp only; omega), List.getElem?_eq_none (by simp; omega)]
  rest_eq := by rw [h.rest_eq, List.drop_drop, Nat.succ_mul]
  left_eq k hk := h.left_eq k (by dsimp only at hk; omega)

/-- Reading a run that was handed out changes that run alone. -/
theorem Agrees.read (h : d.Agrees n xs lefts rest) {k : Nat} (hk : k < d.handed) (l : List α) :
    (⟨d.handed, fun j => if j = k then l else d.left j⟩ : Desk α).Agrees n xs (lefts.set k l)
      rest where
  lefts_eq j := by
    have hlen := h.length_eq
    by_cases hj : k = j
    · subst hj
      rw [List.getElem?_set_self (by omega)]
      simp [hk]
    · rw [List.getElem?_set_ne hj, h.lefts_eq j]
      simp [Ne.symm hj]
  rest_eq := h.rest_eq
  left_eq j hj := by
    have hne : j ≠ k := by dsimp only at hj; omega
    simp only [hne, if_false]
    exact h.left_eq j hj

end Desk

/-! ## One call and a schedule -/

namespace Machine

open Batching

variable {m : Machine ω σ α} {Left : List α → ω → σ → Prop} {n : Nat} {xs : List α}
variable {d : Desk α} {lefts : List (List α)} {rest : List α} {w : ω} {b : Batching σ α}

/-- The reply `r` of a call is that of the desk, and the account afterwards says what the desk
says. -/
def AnsweredAs (Left : List α → ω → σ → Prop) (n : Nat) (xs : List α) (onDesk : BatchReply α × Desk α)
    (r : BatchReply α × Batching σ α) (w' : ω) : Prop :=
  r.1 = onDesk.1 ∧ ∃ lefts rest, onDesk.2.Agrees n xs lefts rest ∧ Account Left lefts rest w' r.2

theorem Lawful.batchCall_outer (h : m.Lawful Left) (hd : d.Agrees n xs lefts rest)
    (hb : Account Left lefts rest w b) (ask : Ask) :
    (m.batchCall n (.outer ask) b).Returns w
      (AnsweredAs Left n xs (d.call n xs.length (.outer ask))) := by
  have hm := h.supplies
  cases ask with
  | hasNext =>
    rw [Machine.batchCall, Machine.call, Comp.returns_bind, Comp.returns_bind]
    refine (hm.batchesHasNext (fun _ => trivial) hb).mono ?_
    rintro ⟨more, b⟩ w ⟨rfl, -, hs, hb⟩
    simp only [Comp.returns_pure]
    refine ⟨?_, lefts, rest, hd, rest, hs, hb⟩
    rw [hd.isEmpty_rest, Desk.call]
  | next =>
    rw [Machine.batchCall, Machine.call, Comp.returns_bind, Comp.returns_bind]
    have hempty := hd.isEmpty_rest
    by_cases hlt : d.handed * n < xs.length
    · have hrest : rest ≠ [] := by simpa [hlt] using hempty
      refine (hm.batches_next_cons hrest hb).mono ?_
      rintro ⟨answer, b⟩ w ⟨rfl, hb⟩
      simp only [Comp.returns_pure, Desk.call, hlt, if_true, hd.length_eq]
      exact ⟨rfl, _, _, hd.hand, hb⟩
    · have hrest : rest = [] := by simpa [hlt] using hempty
      subst hrest
      refine (hm.batches_next_nil trivial hb).mono ?_
      rintro ⟨answer, b⟩ w ⟨rfl, hb⟩
      simp only [Comp.returns_pure, Desk.call, hlt, if_false]
      exact ⟨rfl, _, _, hd, hb⟩

/-- Only the newest batch can reach the cursor below; the account covers both kinds. -/
theorem Lawful.batchCall_batch (h : m.Lawful Left) (hd : d.Agrees n xs lefts rest)
    (hb : Account Left lefts rest w b) {k : Nat} (hk : k < d.handed) (ask : Ask) :
    (do
      let (reply, b) ← (m.batch k).call ask b
      return (BatchReply.batch k reply, b)).Returns w
      (AnsweredAs Left n xs (d.call n xs.length (.batch k ask))) := by
  simp only [hk, if_true, Desk.call]
  refine (h.supplies.batch_call (hd.getElem?_of_lt hk) hb ask).bind ?_
  rintro ⟨reply, b⟩ w ⟨rfl, hb⟩
  exact Comp.returns_pure.mpr ⟨rfl, _, rest, hd.read hk _, hb⟩

/-- A call on any of the handles is answered as on the desk and leaves what the desk leaves. -/
theorem Lawful.batchCall (h : m.Lawful Left) (hd : d.Agrees n xs lefts rest)
    (hb : Account Left lefts rest w b) (ask : BatchAsk) :
    (m.batchCall n ask b).Returns w (AnsweredAs Left n xs (d.call n xs.length ask)) := by
  cases ask with
  | outer ask => exact h.batchCall_outer hd hb ask
  | batch k ask =>
    have hsize : b.shelves.size = d.handed := by
      obtain ⟨ys, -, hst⟩ := hb
      rw [hst.size_eq, hd.length_eq]
    rw [Machine.batchCall, hsize]
    by_cases hk : k < d.handed
    · rw [if_pos hk]
      exact h.batchCall_batch hd hb hk ask
    · rw [if_neg hk, Comp.returns_pure, Desk.call, if_neg hk]
      exact ⟨rfl, lefts, rest, hd, hb⟩

/-- A schedule is answered as on the desk and leaves what the desk leaves. -/
theorem Lawful.batchRun_account (h : m.Lawful Left) {asks : List BatchAsk}
    (hd : d.Agrees n xs lefts rest) (hb : Account Left lefts rest w b) :
    (m.batchRun n asks b).Returns w fun r w' => r.1 = d.run n xs.length asks ∧
      ∃ lefts rest, (d.after n xs.length asks).Agrees n xs lefts rest ∧
        Account Left lefts rest w' r.2 := by
  -- on the schedule; that the desk and the account agree is what every call keeps
  induction asks generalizing d lefts rest w b with
  | nil => exact Comp.returns_pure.mpr ⟨rfl, lefts, rest, hd, hb⟩
  | cons ask asks ih =>
    refine (h.batchCall hd hb ask).bind ?_
    rintro ⟨reply, b⟩ w ⟨rfl, lefts, rest, hd, hb⟩
    refine (ih hd hb).bind ?_
    rintro ⟨replies, b⟩ w ⟨rfl, hafter⟩
    exact Comp.returns_pure.mpr ⟨rfl, hafter⟩

theorem Lawful.batchRun (h : m.Lawful Left) {asks : List BatchAsk}
    (hd : d.Agrees n xs lefts rest) (hb : Account Left lefts rest w b) :
    (m.batchRun n asks b).Returns w fun r _ => r.1 = d.run n xs.length asks :=
  (h.batchRun_account hd hb).mono fun _ _ hr => hr.1

/-- A cursor with the elements `xs` left, cut into batches of `n`, cannot be told from the desk
over `xs`: whatever calls are made on the batching cursor and on the batches it handed out, in
whatever order, every one of them returns, and with the reply of the desk. -/
theorem Lawful.batchRun_fresh (h : m.Lawful Left) {w : ω} {s : σ} (hs : Left xs w s)
    (asks : List BatchAsk) :
    (m.batchRun n asks (.fresh s)).Returns w fun r _ =>
      r.1 = (Desk.lay n xs).run n xs.length asks :=
  h.batchRun (Desk.agrees_lay n xs) ⟨xs, hs, stands_fresh xs s⟩

/-- Three elements in runs of two: the first batch is left half read, the second is read to its end,
and then the first again. -/
theorem batchRun_fresh_three :
    ((peek (pullHead : List Nat → Comp Unit _)).batchRun 2
      [.outer .next, .batch 0 .next, .outer .next, .batch 1 .next, .batch 1 .next, .batch 0 .next,
        .batch 0 .hasNext, .outer .hasNext, .outer .next]
      (.fresh (.fresh [1, 2, 3]))).Returns () fun r _ =>
      r.1 = [.outer (.item (.ok 0)), .batch 0 (.item (.ok 1)), .outer (.item (.ok 1)),
        .batch 1 (.item (.ok 3)), .batch 1 (.item (.error .exhausted)), .batch 0 (.item (.ok 2)),
        .batch 0 (.more false), .outer (.more false), .outer (.item (.error .exhausted))] :=
  lawful_peek_pullHead.batchRun_fresh (show HeadLeft [1, 2, 3] () (.fresh [1, 2, 3]) from rfl) _

end Machine

end LazySeq
