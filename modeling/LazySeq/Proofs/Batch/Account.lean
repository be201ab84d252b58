import LazySeq.Proofs.Lawful
import LazySeq.Stage.Batch

/-!
# What every batch has left

The account of a cursor that is being cut into batches, for a cursor below that supplies a list.
`Batching.Stands lefts rest xs b` reads the state `b` together with what the cursor below has left:
`lefts` is what each of the batches handed out has left, in the order of handing out, and `rest` is
what no batch handed out so far may take. The batch handed out last still has a part of its
elements below; all others have theirs on the shelf.

Each of the four calls moves this account as the calls of independent list cursors would: asking
the batching cursor changes nothing, its `next` appends the next run to `lefts`, and a call on one
batch touches the entry of that batch alone.
-/

namespace LazySeq

variable {ω σ α : Type}

/-! ## Runs of a list -/

/-- The list cut into runs of `n` elements; the last may be shorter. -/
def runs (n : Nat) : List α → List (List α)
  | [] => []
  | x :: xs => (x :: xs.take (n - 1)) :: runs n (xs.drop (n - 1))
termination_by xs => xs.length
decreasing_by simp only [List.length_drop, List.length_cons]; omega

@[simp]
theorem runs_nil (n : Nat) : runs n ([] : List α) = [] := by
  rw [runs]

theorem runs_of_ne_nil {n : Nat} (hn : 0 < n) {xs : List α} (hx : xs ≠ []) :
    runs n xs = xs.take n :: runs n (xs.drop n) := by
  obtain ⟨m, rfl⟩ := Nat.exists_eq_add_one.mpr hn
  cases xs with
  | nil => exact absurd rfl hx
  | cons x xs => rw [runs]; simp

@[simp]
theorem runs_eq_nil_iff {n : Nat} {xs : List α} : runs n xs = [] ↔ xs = [] := by
  cases xs with
  | nil => simp
  | cons x xs => rw [runs]; simp

/-- Cutting loses nothing. -/
theorem flatten_runs (n : Nat) (xs : List α) : (runs n xs).flatten = xs := by
  fun_induction runs n xs with
  | case1 => rfl
  | case2 x xs ih => simp [ih]

/-- The runs after the first `k` are the elements after the first `k * n`. -/
theorem flatten_drop_runs {n : Nat} (hn : 0 < n) (k : Nat) (xs : List α) :
    ((runs n xs).drop k).flatten = xs.drop (k * n) := by
  induction k generalizing xs with
  | zero => rw [List.drop_zero, Nat.zero_mul, List.drop_zero, flatten_runs]
  | succ k ih =>
    by_cases hx : xs = []
    · rw [hx, runs_nil, List.drop_nil, List.drop_nil, List.flatten_nil]
    · rw [runs_of_ne_nil hn hx, List.drop_succ_cons, ih, List.drop_drop, Nat.succ_mul, Nat.add_comm]

theorem length_runs_le (n : Nat) (xs : List α) : (runs n xs).length ≤ xs.length := by
  fun_induction runs n xs with
  | case1 => simp
  | case2 x xs ih =>
    simp only [List.length_drop, List.length_cons] at ih ⊢
    omega

/-- Run `k` begins `k * n` elements in. -/
theorem getElem?_runs {n : Nat} (hn : 0 < n) (xs : List α) (k : Nat) :
    (runs n xs)[k]? = if k * n < xs.length then some ((xs.drop (k * n)).take n) else none := by
  induction k generalizing xs with
  | zero =>
    by_cases hx : xs = []
    · simp [hx]
    · simp [runs_of_ne_nil hn hx, List.length_pos_iff.mpr hx]
  | succ k ih =>
    by_cases hx : xs = []
    · simp [hx]
    · have hmul : (k + 1) * n = n + k * n := by rw [Nat.succ_mul, Nat.add_comm]
      rw [runs_of_ne_nil hn hx, List.getElem?_cons_succ, ih, List.length_drop, List.drop_drop, hmul]
      have hlen : k * n < xs.length - n ↔ n + k * n < xs.length := by omega
      simp only [hlen]

/-- Beyond the last run there is nothing. -/
theorem getD_runs {n : Nat} (hn : 0 < n) (xs : List α) (k : Nat) :
    (runs n xs).getD k [] = (xs.drop (k * n)).take n := by
  rw [List.getD_eq_getElem?_getD, getElem?_runs hn]
  split
  · rfl
  · next hlt => rw [List.drop_eq_nil_of_le (Nat.not_lt.mp hlt), List.take_nil, Option.getD_none]

/-- How many runs a list has. -/
theorem lt_length_runs {n : Nat} (hn : 0 < n) (xs : List α) (k : Nat) :
    k < (runs n xs).length ↔ k * n < xs.length := by
  rw [← Nat.not_le, ← List.getElem?_eq_none_iff, getElem?_runs hn]
  simp

/-- The runs after the first `handed` are none when these cover the list. -/
theorem range'_runs_eq_nil {n : Nat} (hn : 0 < n) (xs : List α) (handed : Nat) :
    List.range' handed ((runs n xs).length - handed) = [] ↔ xs.length ≤ handed * n := by
  rw [List.range'_eq_nil_iff, Nat.sub_eq_zero_iff_le, ← Nat.not_lt, ← Nat.not_lt,
    lt_length_runs hn]

/-- The first of them comes right after those that were handed out. -/
theorem range'_runs_eq_cons {n : Nat} (hn : 0 < n) {xs : List α} {handed k : Nat}
    {ks : List Nat} (h : k :: ks = List.range' handed ((runs n xs).length - handed)) :
    k = handed ∧ k * n < xs.length ∧ ks = List.range' (k + 1) ((runs n xs).length - (k + 1)) := by
  obtain ⟨count, hcount⟩ : ∃ count, (runs n xs).length - handed = count + 1 := by
    refine Nat.exists_eq_add_one.mpr (Nat.pos_of_ne_zero fun hzero => ?_)
    rw [hzero] at h
    cases h
  rw [hcount, List.range'_succ] at h
  obtain ⟨rfl, rfl⟩ := List.cons.inj h
  refine ⟨rfl, (lt_length_runs hn xs k).mp (by omega), ?_⟩
  rw [show (runs n xs).length - (k + 1) = count by omega]

/-! ## The account -/

namespace Batching

/-- The batches handed out have `lefts` left and `rest` is beyond them, where the cursor below has
`xs` left. -/
structure Stands (lefts : List (List α)) (rest xs : List α) (b : Batching σ α) : Prop where
  lefts_eq : ∀ k : Nat,
    lefts[k]? = b.shelves[k]?.map (· ++ if b.isNewest k then xs.take b.quota else [])
  rest_eq : rest = xs.drop b.quota
  /-- a batch that may still take from below has nothing set aside -/
  shelf_eq : 0 < b.quota → ∃ k, b.isNewest k ∧ b.shelf k = []

/-- The account of a batching cursor, from an account of the cursors below. -/
def Account (Left : List α → ω → σ → Prop) (lefts : List (List α)) (rest : List α) (w : ω)
    (b : Batching σ α) : Prop :=
  ∃ xs, Left xs w b.reader ∧ b.Stands lefts rest xs

variable {lefts : List (List α)} {rest xs : List α} {b : Batching σ α}

theorem stands_fresh (xs : List α) (s : σ) : (fresh s : Batching σ α).Stands [] xs xs where
  lefts_eq k := by simp [fresh]
  rest_eq := rfl
  shelf_eq h := absurd h (Nat.lt_irrefl 0)

theorem Stands.size_eq (h : b.Stands lefts rest xs) : b.shelves.size = lefts.length := by
  have hnone : ∀ k, b.shelves.size ≤ k ↔ lefts.length ≤ k := fun k => by
    rw [← Array.getElem?_eq_none_iff, ← List.getElem?_eq_none_iff, h.lefts_eq k]
    simp
  have h₁ := (hnone b.shelves.size).mp (Nat.le_refl _)
  have h₂ := (hnone lefts.length).mpr (Nat.le_refl _)
  omega

theorem shelf_eq_of_getElem? {k : Nat} {l : List α} (h : b.shelves[k]? = some l) :
    b.shelf k = l := by
  simp [shelf, Array.getD_eq_getD_getElem?, h]

/-- What a batch that was handed out has left: what is set aside for it and, for the newest, what
it may still take. -/
theorem Stands.left_eq (h : b.Stands lefts rest xs) {k : Nat} {l : List α}
    (hk : lefts[k]? = some l) :
    b.shelves[k]? = some (b.shelf k) ∧
      l = b.shelf k ++ if b.isNewest k then xs.take b.quota else [] := by
  rw [h.lefts_eq k] at hk
  obtain ⟨s, hs, rfl⟩ := Option.map_eq_some_iff.mp hk
  rw [shelf_eq_of_getElem? hs]
  exact ⟨hs, rfl⟩

/-- A batch that may still take from below is the newest, which has nothing set aside. -/
theorem Stands.shelf_newest (h : b.Stands lefts rest xs) {k : Nat} (hnew : b.isNewest k)
    (hq : 0 < b.quota) : b.shelf k = [] := by
  obtain ⟨j, hj, hnil⟩ := h.shelf_eq hq
  rw [isNewest_iff] at hj hnew
  rwa [show k = j by omega]

/-- A batch with something set aside takes nothing from below any more. -/
theorem Stands.left_eq_shelf (h : b.Stands lefts rest xs) {k : Nat} {l : List α}
    (hk : lefts[k]? = some l) (hs : b.shelf k ≠ []) : l = b.shelf k := by
  obtain ⟨-, rfl⟩ := h.left_eq hk
  by_cases hq : 0 < b.quota
  · have hnew : b.isNewest k = false :=
      Bool.eq_false_iff.mpr fun hnew => hs (h.shelf_newest hnew hq)
    simp [hnew]
  · simp [show b.quota = 0 by omega]

/-! ### What each kind of change does to it -/

variable {s : σ} {n k : Nat}

/-- Setting aside: what the newest batch might still have taken is on its shelf afterwards. -/
theorem Stands.aside (h : b.Stands lefts rest xs) :
    (⟨s, 0, b.shelves.modify (b.shelves.size - 1) (· ++ xs.take b.quota)⟩ :
      Batching σ α).Stands lefts rest rest := by
  refine ⟨?_, by simp, fun hq => absurd hq (Nat.lt_irrefl 0)⟩
  intro k
  have hk := h.lefts_eq k
  by_cases hnew : b.isNewest k
  · have hk' : b.shelves.size - 1 = k := by
      have hsize := isNewest_iff.mp hnew
      omega
    simp [hk, hnew, hk', Array.getElem?_modify, Function.comp_def]
  · have hk' : ∀ l, b.shelves[k]? = some l → b.shelves.size - 1 ≠ k := by
      intro l hl
      have hlt := (Array.getElem?_eq_some_iff.mp hl).1
      rw [isNewest_iff] at hnew
      omega
    cases hl : b.shelves[k]? with
    | none => simp [hk, hl, Array.getElem?_modify]
    | some l => simp [hk, hnew, hl, Array.getElem?_modify, hk' l hl]

/-- Handing out: the new batch has the next run before it, all of it still below. -/
theorem Stands.hand (h : b.Stands lefts rest rest) (hq : b.quota = 0) :
    (⟨s, n, b.shelves.push []⟩ : Batching σ α).Stands (lefts ++ [rest.take n]) (rest.drop n)
      rest := by
  have hsize := h.size_eq
  refine ⟨?_, rfl, ?_⟩
  · intro k
    have hk := h.lefts_eq k
    simp only [hq, List.take_zero, ite_self, List.append_nil, Option.map_id'] at hk
    rcases Nat.lt_trichotomy k lefts.length with hlt | rfl | hgt
    · have hne : k ≠ b.shelves.size := by omega
      simp [List.getElem?_append_left hlt, hk, Array.getElem?_push, isNewest, hne]
    · simp [← hsize, isNewest]
    · have hne : k ≠ b.shelves.size := by omega
      have hnone : b.shelves[k]? = none := Array.getElem?_eq_none (by omega)
      rw [List.getElem?_eq_none (by simp; omega)]
      simp [Array.getElem?_push, hne, hnone]
  · intro _
    refine ⟨b.shelves.size, by simp [isNewest], ?_⟩
    exact shelf_eq_of_getElem? (by simp)

/-- Delivering from the shelf changes the entry of that batch, which takes nothing from below. -/
theorem Stands.unshelve (h : b.Stands lefts rest xs) {a : α} {l : List α} (hk : k < lefts.length)
    (hshelf : b.shelf k = a :: l) :
    (⟨s, b.quota, b.shelves.setIfInBounds k l⟩ : Batching σ α).Stands (lefts.set k l) rest xs := by
  have hsize := h.size_eq
  have hdry : b.isNewest k → b.quota = 0 := by
    intro hnew
    refine Nat.eq_zero_of_not_pos fun hq => ?_
    have hnil := h.shelf_newest hnew hq
    rw [hshelf] at hnil
    cases hnil
  refine ⟨?_, h.rest_eq, ?_⟩
  · intro j
    by_cases hj : k = j
    · subst hj
      have hset : (b.shelves.setIfInBounds k l)[k]? = some l := by
        rw [Array.getElem?_setIfInBounds_self_of_lt (by omega)]
      by_cases hnew : b.isNewest k
      · simp [hk, hset, hdry hnew]
      · have hnew' : ¬ k + 1 = b.shelves.size := by simpa [isNewest] using hnew
        simp [hk, hset, isNewest, hnew']
    · have hset : (b.shelves.setIfInBounds k l)[j]? = b.shelves[j]? :=
        Array.getElem?_setIfInBounds_ne hj
      rw [List.getElem?_set_ne hj, h.lefts_eq j]
      simp [hset, isNewest]
  · intro hq
    obtain ⟨j, hj, hnil⟩ := h.shelf_eq hq
    refine ⟨j, by simpa [isNewest] using hj, ?_⟩
    have hkj : k ≠ j := by
      rintro rfl
      rw [hshelf] at hnil
      cases hnil
    simpa [shelf, Array.getD_eq_getD_getElem?, Array.getElem?_setIfInBounds_ne hkj] using hnil

/-- Delivering from below: one element less is there, and one less may be taken. -/
theorem Stands.deliver {x : α} (h : b.Stands lefts rest (x :: xs)) (hk : k < lefts.length)
    (hnew : b.isNewest k) (hq : 0 < b.quota) (hshelf : b.shelf k = []) :
    lefts[k]? = some (x :: xs.take (b.quota - 1)) ∧ ∀ s : σ,
      (⟨s, b.quota - 1, b.shelves⟩ : Batching σ α).Stands (lefts.set k (xs.take (b.quota - 1)))
        rest xs := by
  obtain ⟨q, hquota⟩ := Nat.exists_eq_add_one.mpr hq
  have hlast := isNewest_iff.mp hnew
  obtain ⟨hshelves, hleft⟩ := h.left_eq (List.getElem?_eq_getElem hk)
  rw [hshelf, hnew, if_pos rfl, List.nil_append, hquota, List.take_succ_cons] at hleft
  rw [hquota, Nat.add_sub_cancel]
  refine ⟨by rw [List.getElem?_eq_getElem hk, hleft], fun s => ⟨?_, ?_, ?_⟩⟩
  · intro j
    by_cases hj : k = j
    · subst hj
      simp [hk, hshelves, hshelf, isNewest, hlast]
    · have hj' : ¬ j + 1 = b.shelves.size := by omega
      rw [List.getElem?_set_ne hj, h.lefts_eq j]
      simp [isNewest, hj']
  · rw [h.rest_eq, hquota, List.drop_succ_cons]
  · intro _
    exact ⟨k, hnew, hshelf⟩

end Batching

/-! ## What each call does to it -/

namespace Machine

open Batching

variable {m : Machine ω σ α} {ends : Prop} {Left : List α → ω → σ → Prop}
variable {lefts : List (List α)} {rest : List α} {w : ω} {b : Batching σ α}

/-- Setting aside moves no element from one batch to another. Afterwards the cursor below stands at
`rest`. -/
theorem Supplies.setAside (h : m.Supplies ends Exactly Left) (hrest : rest = [] → ends)
    (hb : Account Left lefts rest w b) :
    (m.setAside b).Returns w fun b' w' =>
      b'.quota = 0 ∧ Left rest w' b'.reader ∧ b'.Stands lefts rest rest := by
  obtain ⟨xs, hs, hb⟩ := hb
  have hends : xs.length < b.quota → ends := fun hlt =>
    hrest (by rw [hb.rest_eq, List.drop_eq_nil_of_le (Nat.le_of_lt hlt)])
  refine (h.collect hends hs).bind ?_
  rintro ⟨taken, s⟩ w ⟨rfl, hs⟩
  exact Comp.returns_pure.mpr ⟨rfl, hb.rest_eq ▸ hs, hb.aside⟩

/-- More batches can be had exactly when something is beyond those handed out. -/
theorem Supplies.batchesHasNext (h : m.Supplies ends Exactly Left) (hrest : rest = [] → ends)
    (hb : Account Left lefts rest w b) :
    (m.batchesHasNext b).Returns w fun r w' => r.1 = !rest.isEmpty ∧
      r.2.quota = 0 ∧ Left rest w' r.2.reader ∧ r.2.Stands lefts rest rest := by
  refine (h.setAside hrest hb).bind ?_
  intro b w ⟨hq, hs, hb⟩
  refine (h.hasNext hrest hs).bind ?_
  rintro ⟨more, s⟩ w ⟨rfl, hs⟩
  exact Comp.returns_pure.mpr ⟨rfl, hq, hs, hb.lefts_eq, hb.rest_eq, hb.shelf_eq⟩

/-- The next batch has the next run of elements. -/
theorem Supplies.batches_next_cons (h : m.Supplies ends Exactly Left) {n : Nat}
    (hrest : rest ≠ []) (hb : Account Left lefts rest w b) :
    ((m.batches n).next b).Returns w fun r w' => r.1 = .ok lefts.length ∧
      Account Left (lefts ++ [rest.take n]) (rest.drop n) w' r.2 := by
  refine (h.batchesHasNext (fun hnil => absurd hnil hrest) hb).bind ?_
  rintro ⟨more, b⟩ w ⟨rfl, hq, hs, hb⟩
  rw [show (!rest.isEmpty) = true by simpa using hrest]
  exact Comp.returns_pure.mpr ⟨by rw [hb.size_eq], rest, hs, hb.hand hq⟩

theorem Supplies.batches_next_nil (h : m.Supplies ends Exactly Left) {n : Nat} (he : ends)
    (hb : Account Left lefts [] w b) :
    ((m.batches n).next b).Returns w fun r w' => r.1 = .error .exhausted ∧
      Account Left lefts [] w' r.2 := by
  refine (h.batchesHasNext (fun _ => he) hb).bind ?_
  rintro ⟨more, b⟩ w ⟨rfl, _, hs, hb⟩
  exact Comp.returns_pure.mpr ⟨rfl, [], hs, hb⟩

/-- A batch that was handed out says whether it has anything left. Where it is the newest and may
be the last, this is known only if the list ends. -/
theorem Supplies.batchHasNext (h : m.Supplies ends Exactly Left) {k : Nat} {l : List α}
    (hk : lefts[k]? = some l) (hl : l = [] → rest = [] → ends) (hb : Account Left lefts rest w b) :
    (m.batchHasNext k b).Returns w fun r w' => r.1 = !l.isEmpty ∧
      (b.shelf k = [] → r.1 → 0 < r.2.quota ∧ r.2.isNewest k) ∧ r.2.shelf k = b.shelf k ∧
      Account Left lefts rest w' r.2 := by
  obtain ⟨xs, hs, hb⟩ := hb
  obtain ⟨-, hleft⟩ := hb.left_eq hk
  unfold Machine.batchHasNext
  by_cases hshelf : b.shelf k = []
  · simp only [hshelf, List.isEmpty_nil, Bool.not_true, Bool.false_eq_true, if_false]
    rw [hshelf, List.nil_append] at hleft
    by_cases hnew : b.isNewest k ∧ 0 < b.quota
    · simp only [hnew, decide_true, Bool.and_self, if_true]
      simp only [hnew.1, if_true] at hleft
      have hxs : xs = [] ↔ l = [] := by
        rw [hleft, List.take_eq_nil_iff]
        have := hnew.2
        grind
      have hends : xs = [] → ends := fun hnil =>
        hl (hxs.mp hnil) (by rw [hb.rest_eq, hnil, List.drop_nil])
      refine (h.hasNext hends hs).bind ?_
      rintro ⟨more, s⟩ w ⟨rfl, hs⟩
      refine Comp.returns_pure.mpr ⟨?_, fun _ _ => ⟨hnew.2, hnew.1⟩, hshelf, xs, hs,
        hb.lefts_eq, hb.rest_eq, hb.shelf_eq⟩
      rw [Bool.eq_iff_iff]
      simp [hxs]
    · have hnil : l = [] := by
        rw [hleft]
        split
        · next hn => simp [show b.quota = 0 by have := not_and.mp hnew hn; omega]
        · rfl
      have hguard : (b.isNewest k && decide (0 < b.quota)) = false := by
        rw [Bool.eq_false_iff]
        simpa using hnew
      simp only [hguard, Bool.false_eq_true, if_false]
      exact Comp.returns_pure.mpr ⟨by simp [hnil], by simp, hshelf, xs, hs, hb⟩
  · have hl' := hb.left_eq_shelf hk hshelf
    have hguard : (!(b.shelf k).isEmpty) = true := by simpa using hshelf
    simp only [hguard, if_true]
    exact Comp.returns_pure.mpr ⟨by simp [hl', hshelf], fun hnil => absurd hnil hshelf, rfl, xs, hs,
      hb⟩

/-- A batch that was handed out hands on its first element; no other batch notices. -/
theorem Supplies.batch_next_cons (h : m.Supplies ends Exactly Left) {k : Nat} {a : α} {l : List α}
    (hk : lefts[k]? = some (a :: l)) (hb : Account Left lefts rest w b) :
    ((m.batch k).next b).Returns w fun r w' =>
      r.1 = .ok a ∧ Account Left (lefts.set k l) rest w' r.2 := by
  have hlt : k < lefts.length := (List.getElem?_eq_some_iff.mp hk).1
  cases hshelf : b.shelf k with
  | cons a' l' =>
    obtain ⟨xs, hs, hb⟩ := hb
    have hleft := hb.left_eq_shelf hk (by simp [hshelf])
    rw [hshelf] at hleft
    obtain ⟨rfl, rfl⟩ := List.cons.inj hleft
    simp only [Machine.batch, hshelf]
    exact Comp.returns_pure.mpr ⟨rfl, xs, hs, hb.unshelve hlt hshelf⟩
  | nil =>
    simp only [Machine.batch, hshelf]
    refine (h.batchHasNext hk (by simp) hb).bind ?_
    rintro ⟨more, b'⟩ w ⟨rfl, hquota, hsame, xs, hs, hb⟩
    -- the batch has something left and an empty shelf, so it may take from below
    obtain ⟨hq, hnew⟩ := hquota hshelf rfl
    dsimp only at hq hnew hsame hs hb
    have hshelf' := hsame.trans hshelf
    cases xs with
    | nil =>
      obtain ⟨-, hleft⟩ := hb.left_eq hk
      rw [hshelf', List.take_nil, ite_self, List.append_nil] at hleft
      cases hleft
    | cons x xs =>
      obtain ⟨hentry, hrest⟩ := hb.deliver hlt hnew hq hshelf'
      obtain ⟨rfl, rfl⟩ := List.cons.inj (Option.some.inj (hk.symm.trans hentry))
      refine (h.next_cons hs).bind ?_
      rintro ⟨answer, s⟩ w ⟨⟨_, rfl, rfl⟩, hl⟩
      exact Comp.returns_pure.mpr ⟨rfl, xs, hl, hrest s⟩

/-- A batch that has nothing left is exhausted. -/
theorem Supplies.batch_next_nil (h : m.Supplies ends Exactly Left) {k : Nat}
    (hk : lefts[k]? = some []) (hl : rest = [] → ends) (hb : Account Left lefts rest w b) :
    ((m.batch k).next b).Returns w fun r w' =>
      r.1 = .error .exhausted ∧ Account Left lefts rest w' r.2 := by
  have hshelf : b.shelf k = [] := by
    obtain ⟨xs, -, hb⟩ := hb
    obtain ⟨-, hleft⟩ := hb.left_eq hk
    exact (List.append_eq_nil_iff.mp hleft.symm).1
  simp only [Machine.batch, hshelf]
  refine (h.batchHasNext hk (fun _ => hl) hb).bind ?_
  rintro ⟨more, b⟩ w ⟨rfl, -, -, hb⟩
  exact Comp.returns_pure.mpr ⟨rfl, hb⟩

/-- A call on a batch is replied to as by the cursor over what the batch has left. -/
theorem Supplies.batch_call (h : m.Supplies True Exactly Left) {k : Nat} {l : List α}
    (hk : lefts[k]? = some l) (hb : Account Left lefts rest w b) (ask : Ask) :
    ((m.batch k).call ask b).Returns w fun r w' => r.1 = (ListCursor.call ask l).1 ∧
      Account Left (lefts.set k (ListCursor.call ask l).2) rest w' r.2 := by
  have hset : lefts.set k l = lefts := by
    obtain ⟨hlt, rfl⟩ := List.getElem?_eq_some_iff.mp hk
    rw [List.set_getElem_self]
  cases ask with
  | hasNext =>
    refine (h.batchHasNext hk (fun _ _ => trivial) hb).bind ?_
    rintro ⟨more, b⟩ w ⟨rfl, -, -, hb⟩
    exact Comp.returns_pure.mpr ⟨rfl, hset.symm ▸ hb⟩
  | next =>
    cases l with
    | nil =>
      refine (h.batch_next_nil hk (fun _ => trivial) hb).bind ?_
      rintro ⟨answer, b⟩ w ⟨rfl, hb⟩
      exact Comp.returns_pure.mpr ⟨rfl, hset.symm ▸ hb⟩
    | cons a l =>
      refine (h.batch_next_cons hk hb).bind ?_
      rintro ⟨answer, b⟩ w ⟨rfl, hb⟩
      exact Comp.returns_pure.mpr ⟨rfl, hb⟩

end Machine

end LazySeq
