import LazySeq.Proofs.Batch.AnyOrder
import Mathlib.Algebra.Order.Floor.Div

/-!
# Racks

A batching cursor over a batching cursor hands out batches of batches, and a caller may hold any
number of both and read them in any order, while the outer cursor is still being asked. The
reference is a `Rack`, on which nothing is shared: the chunks of the list lie side by side, each
under a list cursor of its own, and the numbers of the chunks are dealt out in order.

A rack is a desk of numbers (`Rack.Fits`) above chunks that are read independently: what a call on
the upper level does to a rack it does to the desk, and a read chunk leaves the desk alone.
-/

namespace LazySeq

variable {α : Type}

/-- A call on the outer cursor, on outer batch `i`, or on the `j`-th inner batch that outer batch
`i` has handed out. -/
inductive NestedAsk where
  | outer (ask : Ask)
  | batch (i : Nat) (ask : Ask)
  | inner (i j : Nat) (ask : Ask)

/-- The reply to such a call. Of a batch that was handed out the reply says no more than that it
was; which one it is shows in the replies to the calls on it. -/
inductive NestedReply (α : Type) where
  | outer (reply : Reply Unit)
  | batch (i : Nat) (reply : Reply Unit)
  | inner (i j : Nat) (reply : Reply α)
  | absent

/-- Chunks that are read independently of each other, and how far they were handed out. -/
structure Rack (α : Type) where
  /-- how many outer batches were handed out -/
  handed : Nat
  /-- how many inner batches outer batch `i` has handed out -/
  taken : Nat → Nat
  /-- what is left of chunk `k`, handed out or not -/
  left : Nat → List α

namespace Rack

/-- The rack on which nothing was handed out. -/
def lay (chunks : List (List α)) : Rack α :=
  ⟨0, fun _ => 0, fun k => chunks.getD k []⟩

/-- The reply of a rack of `count` chunks, `n` to an outer batch: outer batch `i` hands out the
chunks from number `i * n` up to `min ((i + 1) * n) count`, and there are as many outer batches as
it takes for all chunks. -/
def call (n count : Nat) : NestedAsk → Rack α → NestedReply α × Rack α
  | .outer .hasNext, r => (.outer (.more (r.handed < count ⌈/⌉ n)), r)
  | .outer .next, r =>
    if r.handed < count ⌈/⌉ n then
      (.outer (.item (.ok ())), ⟨r.handed + 1, r.taken, r.left⟩)
    else
      (.outer (.item (.error .exhausted)), r)
  | .batch i ask, r =>
    if i < r.handed then
      let more := i * n + r.taken i < min ((i + 1) * n) count
      match ask with
      | .hasNext => (.batch i (.more more), r)
      | .next =>
        if more then
          (.batch i (.item (.ok ())),
            ⟨r.handed, fun j => if j = i then r.taken i + 1 else r.taken j, r.left⟩)
        else
          (.batch i (.item (.error .exhausted)), r)
    else
      (.absent, r)
  | .inner i j ask, r =>
    if j < r.taken i then
      let (reply, rest) := ListCursor.call ask (r.left (i * n + j))
      (.inner i j reply, ⟨r.handed, r.taken, fun k => if k = i * n + j then rest else r.left k⟩)
    else
      (.absent, r)

/-- The replies to a schedule. -/
def run (n count : Nat) : List NestedAsk → Rack α → List (NestedReply α)
  | [], _ => []
  | ask :: asks, r => (r.call n count ask).1 :: run n count asks (r.call n count ask).2

/-! ## The upper level is a desk of numbers -/

/-- The numbers of the first `taken` chunks that outer batch `i` hands out. -/
def issued (n i taken : Nat) : List Nat :=
  List.range' (i * n) taken

/-- The numbers that outer batch `i` has still to hand out, after the first `taken`. -/
def numbers (n count i taken : Nat) : List Nat :=
  List.range' (i * n + taken) (min ((i + 1) * n) count - (i * n + taken))

theorem drop_take_range (n count i : Nat) :
    ((List.range count).drop (i * n)).take n = numbers n count i 0 := by
  rw [numbers, List.take_drop, List.take_range, List.range_eq_range', List.drop_range',
    Nat.succ_mul]
  congr 1
  omega

theorem numbers_eq_nil_iff {n count i taken : Nat} :
    numbers n count i taken = [] ↔ ¬ i * n + taken < min ((i + 1) * n) count := by
  rw [numbers, List.range'_eq_nil_iff]
  omega

theorem numbers_of_lt {n count i taken : Nat} (h : i * n + taken < min ((i + 1) * n) count) :
    numbers n count i taken = (i * n + taken) :: numbers n count i (taken + 1) := by
  obtain ⟨d, hd⟩ : ∃ d, min ((i + 1) * n) count - (i * n + taken) = d + 1 :=
    Nat.exists_eq_add_one.mpr (by omega)
  rw [numbers, hd, List.range'_succ, numbers, show i * n + (taken + 1) = i * n + taken + 1 by omega,
    show min ((i + 1) * n) count - (i * n + taken + 1) = d by omega]

/-- The rack `r` and the desk `d` have handed out the same numbers. -/
structure Fits (n count : Nat) (r : Rack α) (d : Desk Nat) : Prop where
  handed_eq : d.handed = r.handed
  left_eq : ∀ i, d.left i = numbers n count i (r.taken i)

variable {n count : Nat} {r : Rack α} {d : Desk Nat}

theorem fits_lay (n count : Nat) (chunks : List (List α)) :
    (lay chunks).Fits n count (.lay n (List.range count)) where
  handed_eq := rfl
  left_eq i := drop_take_range n count i

/-- The outer cursor replies as the desk but for the number, which is the next. -/
theorem Fits.outer (hn : 0 < n) (h : r.Fits n count d) (ask : Ask) :
    ∃ (reply : Reply Nat) (handed : Nat), (d.call n count (.outer ask)).1 = .outer reply ∧
      r.call n count (.outer ask) = (.outer reply.plain, ⟨handed, r.taken, r.left⟩) ∧
      Fits n count ⟨handed, r.taken, r.left⟩ (d.call n count (.outer ask)).2 ∧
      List.range handed = List.range r.handed ++ Reply.items [reply] := by
  obtain ⟨handed, left⟩ := d
  obtain rfl : handed = r.handed := h.handed_eq
  have hmore : r.handed * n < count ↔ r.handed < count ⌈/⌉ n := by
    rw [← Nat.not_le, ← Nat.not_le, ceilDiv_le_iff_le_mul hn, Nat.mul_comm]
  cases ask with
  | hasNext =>
    refine ⟨_, r.handed, rfl, ?_, h, (List.append_nil _).symm⟩
    simp only [call, Reply.plain, hmore]
  | next =>
    by_cases hlt : r.handed < count ⌈/⌉ n
    · refine ⟨.item (.ok r.handed), r.handed + 1, ?_, ?_, ?_, List.range_succ⟩
      · simp only [Desk.call, hmore, hlt, if_true]
      · simp only [call, hlt, if_true]
        rfl
      · simp only [Desk.call, hmore, hlt, if_true]
        exact ⟨rfl, h.left_eq⟩
    · refine ⟨.item (.error .exhausted), r.handed, ?_, ?_, ?_, (List.append_nil _).symm⟩
      · simp only [Desk.call, hmore, hlt, if_false]
      · simp only [call, hlt, if_false]
        rfl
      · simp only [Desk.call, hmore, hlt, if_false]
        exact h

/-- An outer batch replies as the desk but for the number, which is its next. -/
theorem Fits.batch (h : r.Fits n count d) {i : Nat} (hi : i < r.handed) (ask : Ask) :
    ∃ (reply : Reply Nat) (taken : Nat → Nat), (d.call n count (.batch i ask)).1 = .batch i reply ∧
      r.call n count (.batch i ask) = (.batch i reply.plain, ⟨r.handed, taken, r.left⟩) ∧
      Fits n count ⟨r.handed, taken, r.left⟩ (d.call n count (.batch i ask)).2 ∧
      ∀ j, issued n j (taken j) =
        issued n j (r.taken j) ++ if j = i then Reply.items [reply] else [] := by
  have hid : i < d.handed := h.handed_eq ▸ hi
  have hstay : Fits n count r ⟨d.handed, fun j => if j = i then d.left i else d.left j⟩ := by
    refine ⟨h.handed_eq, fun j => ?_⟩
    by_cases hj : j = i
    · simp [hj, h.left_eq]
    · simp [hj, h.left_eq]
  cases ask with
  | hasNext =>
    refine ⟨.more (!(d.left i).isEmpty), r.taken, ?_, ?_, ?_, by simp⟩
    · simp only [Desk.call, hid, if_true, ListCursor.call]
    · have hmore :
          (!(d.left i).isEmpty) = decide (i * n + r.taken i < min ((i + 1) * n) count) := by
        rw [Bool.eq_iff_iff, decide_eq_true_iff, ← not_iff_not, ← numbers_eq_nil_iff, h.left_eq]
        simp
      simp only [call, hi, if_true, hmore]
      rfl
    · simp only [Desk.call, hid, if_true, ListCursor.call]
      exact hstay
  | next =>
    by_cases hlt : i * n + r.taken i < min ((i + 1) * n) count
    · have hleft := (h.left_eq i).trans (numbers_of_lt hlt)
      refine ⟨.item (.ok (i * n + r.taken i)), fun j => if j = i then r.taken i + 1 else r.taken j,
        ?_, ?_, ?_, fun j => ?_⟩
      · simp only [Desk.call, hid, if_true, hleft, ListCursor.call]
      · simp only [call, hi, if_true, hlt]
        rfl
      · simp only [Desk.call, hid, if_true, hleft, ListCursor.call]
        refine ⟨h.handed_eq, fun j => ?_⟩
        by_cases hj : j = i
        · simp [hj]
        · simp [hj, h.left_eq]
      · by_cases hj : j = i
        · subst hj
          simp [issued, List.range'_concat, Except.toOption]
        · simp [hj]
    · have hleft := (h.left_eq i).trans (numbers_eq_nil_iff.mpr hlt)
      refine ⟨.item (.error .exhausted), r.taken, ?_, ?_, ?_, by simp [Except.toOption]⟩
      · simp only [Desk.call, hid, if_true, hleft, ListCursor.call]
      · simp only [call, hi, if_true, hlt, if_false]
        rfl
      · rw [hleft] at hstay
        simp only [Desk.call, hid, if_true, hleft, ListCursor.call]
        exact hstay

end Rack

end LazySeq
