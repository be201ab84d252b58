import LazySeq.Proofs.Sequence.Rows
import LazySeq.Proofs.Sequence.Watched
import LazySeq.Proofs.Simulation.Cursor
import LazySeq.Proofs.Simulation.Join
import LazySeq.Proofs.Simulation.Restart

/-!
# The two products are one

`Sequence.product` nests pairs and makes them flat at the outside; `Sequence.productAll?` puts one
element in front of a row at every level. Over any sources they do the same to the sources, call for
call, and reply alike (`Sequence.product_replies_iff`).

`Sequence.Repeats` says of two sequences that a cursor of the second does what a cursor of the first
does. Both act on one world, so what is done to the sources is the same without being mentioned.
A map that touches nothing costs a unit of fuel and can stand on either side (`Repeats.map_left`,
`Repeats.map_right`); so the levels of the two products are compared one by one.
-/

namespace LazySeq

open Comparison

/-! ## Sequences that do the same -/

namespace Sequence

variable {ω τ ι : Type}

/-- Replies to the schedule `asks` of a new cursor in `w`, which leaves `w'` behind. -/
def Replies (s : Sequence ω τ) (asks : List Ask) (w : World ω τ) (replies : List (Reply Value))
    (w' : World ω τ) : Prop :=
  ∃ fuel c, (do (Cursor.machine fuel).run asks (← s.start)) w = .ok (replies, c) w'

/-- Values that are known to be related by `V`, in one world. -/
def related (V : Value → Value → Prop) : (same (World ω τ)).Rel Value Value :=
  ⟨fun _ => V, fun _ h => h⟩

/-- A cursor of `s'` does what a cursor of `s` does, with `d` more units of fuel; what they hand out
is related by `V`. -/
def Repeats (d : Nat) (V : Value → Value → Prop) (s s' : Sequence ω τ) : Prop :=
  ∃ R : (same (World ω τ)).Rel (Cursor ω τ) (Cursor ω τ),
    (∀ b, (same (World ω τ)).Follows b s.start s'.start R) ∧
      ∀ n n', n + d ≤ n' →
        (same (World ω τ)).Mimics R (related V) (Cursor.machine n) (Cursor.machine n')

variable {V W : Value → Value → Prop} {d e : Nat} {s s' t t' : Sequence ω τ}

theorem Repeats.mono (h : s.Repeats d V s') (hde : d ≤ e) : s.Repeats e V s' := by
  obtain ⟨R, hstart, hcall⟩ := h
  exact ⟨R, hstart, fun n n' hn => hcall n n' (by omega)⟩

/-- Whatever the one replies, and whatever world it leaves behind, so does the other. -/
theorem Repeats.replies (h : s.Repeats d Eq s') {asks : List Ask} {w w' : World ω τ}
    {replies : List (Reply Value)} (hs : s.Replies asks w replies w') :
    s'.Replies asks w replies w' := by
  obtain ⟨R, hstart, hcall⟩ := h
  obtain ⟨n, c, hrun⟩ := hs
  have hfollows : (same (World ω τ)).Follows () (do (Cursor.machine n).run asks (← s.start))
      (do (Cursor.machine (n + d)).run asks (← s'.start)) ((related Eq).reply.list.prod R) :=
    (hstart ()).bind fun _ hc => (hcall n (n + d) (Nat.le_refl _)).run asks hc
  obtain ⟨_, ⟨replies', c'⟩, _, -, hrun', rfl, hreplies, -⟩ := hfollows w w' w _ rfl hrun
  obtain rfl : replies = replies' := by
    rw [← List.forall₂_eq_eq_eq]
    exact List.Forall₂.imp (fun _ _ => Rel.eq_of_replies) hreplies
  exact ⟨n + d, c', hrun'⟩

/-! ## Sources and pairs -/

theorem repeats_given (start : Comp ω τ) (m : Machine ω τ Value) :
    (given start m).Repeats 0 Eq (given start m : Sequence ω τ) := by
  refine ⟨Rel.eq.image (.given m) (.given m), fun b => ?_, fun n n' hn => ?_⟩
  · refine (follows_same (World.onOuter start)).bind ?_
    rintro b' c _ hle rfl
    exact follows_pure ⟨c, rfl, c, rfl, rfl⟩
  · cases n with
    | zero => exact mimics_zero
    | succ n =>
      obtain ⟨n', rfl⟩ := Nat.exists_eq_add_one.mpr (Nat.lt_of_lt_of_le (Nat.succ_pos n) hn)
      have hview : Cursor.Runs (Cursor.given m : τ → Cursor ω τ) fun _ => World.ofOuter m :=
        fun _ _ => rfl
      exact (mimics_same (World.ofOuter m)).machine hview hview

theorem Repeats.pairs (hs : s.Repeats d Eq s') (ht : t.Repeats d V t')
    (hvw : ∀ {a v v'}, V v v' → W (.list [a, v]) (.list [a, v'])) :
    (s.pairs t).Repeats d W (s'.pairs t') := by
  obtain ⟨R, hstart, hcall⟩ := hs
  obtain ⟨R', hstart', hcall'⟩ := ht
  refine ⟨(R.rowed (related Eq) R').image (.pairs t) (.pairs t'), fun b => ?_, fun n n' hn => ?_⟩
  · refine (hstart b).bind ?_
    intro b' c c' hle hc
    exact follows_pure ⟨_, rfl, _, rfl, hc, .none⟩
  · cases n with
    | zero => exact mimics_zero
    | succ n =>
      obtain ⟨n', rfl⟩ := Nat.exists_eq_add_one.mpr (show 0 < n' by omega)
      have hpairs := (hcall n n' (by omega)).pairs (hcall' n n' (by omega)) hstart'
        (show n ≤ n' by omega)
      refine (hpairs.map (W := related W) ?_).machine (fun _ _ => rfl) fun _ _ => rfl
      rintro b ⟨a, v⟩ ⟨_, v'⟩ ⟨rfl, hv⟩
      exact follows_pure (hvw hv)

/-! ## Maps that touch nothing -/

variable {f : Value → Value}

theorem Repeats.map_left (h : s.Repeats d V s') (hf : ∀ {v v'}, V v v' → W (f v) v') :
    (s.map (.pure f)).Repeats d W s' := by
  obtain ⟨R, hstart, hcall⟩ := h
  refine ⟨R.left (.map (.pure f)), fun b => ?_, fun n n' hn => ?_⟩
  · refine (hstart b).bind_left ?_
    intro b' c c' hle hc
    exact follows_pure ⟨c, rfl, hc⟩
  · cases n with
    | zero => exact mimics_zero
    | succ n =>
      have hmap : (same (World ω τ)).Mimics R (related W)
          ((Cursor.machine n).map fun v => World.onOuter (pure (f v))) (Cursor.machine n') :=
        (hcall n n' (by omega)).map_left fun b v v' hv => follows_pure (hf hv)
      exact hmap.machine_left fun _ _ => rfl

theorem Repeats.map_right (h : s.Repeats d V s') (hf : ∀ {v v'}, V v v' → W v (f v')) :
    s.Repeats (d + 1) W (s'.map (.pure f)) := by
  obtain ⟨R, hstart, hcall⟩ := h
  refine ⟨R.right (.map (.pure f)), fun b => ?_, fun n n' hn => ?_⟩
  · refine (hstart b).bind_right ?_
    intro b' c c' hle hc
    exact follows_pure ⟨c', rfl, hc⟩
  · obtain ⟨n', rfl⟩ := Nat.exists_eq_add_one.mpr (show 0 < n' by omega)
    have hmap : (same (World ω τ)).Mimics R (related W) (Cursor.machine n)
        ((Cursor.machine n').map fun v => World.onOuter (pure (f v))) :=
      (hcall n n' (by omega)).map_right fun b v v' hv => follows_pure (hf hv)
    exact hmap.machine_right fun _ _ => rfl

/-! ## The levels of the products -/

/-- The product with a map at every level, over a tuple. -/
def rowsOver : Tuple (Sequence ω τ) → Sequence ω τ
  | .pair a b => pairs a b
  | .cons a rest => map (.pure prependRow) (pairs a (rowsOver rest))

theorem productOf_eq_rowsOver (sources : Tuple (Sequence ω τ)) : ∃ a b others,
    sources.toList = a :: b :: others ∧ productOf a b others = rowsOver sources := by
  induction sources with
  | pair a b => exact ⟨a, b, [], rfl, rfl⟩
  | cons a rest ih =>
    obtain ⟨b, c, others, hlist, hproduct⟩ := ih
    refine ⟨a, b, c :: others, by rw [Tuple.toList, hlist], ?_⟩
    rw [productOf, hproduct, rowsOver]

theorem productAll?_toList (sources : Tuple (Sequence ω τ)) :
    productAll? sources.toList = .ok (rowsOver sources) := by
  obtain ⟨a, b, others, hlist, hproduct⟩ := productOf_eq_rowsOver sources
  rw [hlist, productAll?, hproduct]

/-- Nested pairs stand for the row of what is in them. -/
def Flattens (k : Nat) (v row : Value) : Prop := row = .list (spread k v)

/-- Pairs with the same thing in front and things related by `V` after it. -/
inductive Paired (V : Value → Value → Prop) : Value → Value → Prop where
  | mk (a : Value) {v v' : Value} (h : V v v') : Paired V (.list [a, v]) (.list [a, v'])

theorem flattens_pair (a b : Value) : Flattens 1 (.list [a, b]) (.list [a, b]) := by
  rw [Flattens, spread, spread_zero]

theorem Paired.flattens {k : Nat} {v row : Value} (h : Paired (Flattens k) v row) :
    Flattens (k + 1) v (prependRow row) := by
  obtain ⟨a, hv⟩ := h
  rw [hv, Flattens, spread, prependRow]

theorem exists_size_eq (sources : Tuple (Sequence ω τ)) : ∃ k, sources.size = k + 1 :=
  Nat.exists_eq_add_one.mpr (Nat.lt_of_lt_of_le Nat.two_pos sources.two_le_size)

variable {sources : Tuple (Sequence ω τ)}

/-- What the nested pairs do is done level by level with the rows put together at once. -/
theorem nestedPairs_repeats (h : ∀ s ∈ sources.toList, s.Repeats 0 Eq s) {k : Nat}
    (hk : sources.size = k + 1) :
    (nestedPairs sources).Repeats sources.size (Flattens k) (rowsOver sources) := by
  induction sources generalizing k with
  | pair a b =>
    obtain rfl : 1 = k := Nat.succ.inj hk
    have hpairs : (pairs a b).Repeats 0 (Flattens 1) (pairs a b) :=
      (h a (by simp [Tuple.toList])).pairs (h b (by simp [Tuple.toList])) fun hv =>
        hv ▸ flattens_pair _ _
    exact hpairs.mono (Nat.zero_le 2)
  | cons a rest ih =>
    obtain ⟨j, hj⟩ := exists_size_eq rest
    obtain rfl : j + 1 = k := hj.symm.trans (Nat.succ.inj hk)
    have hrest := ih (fun s hs => h s (List.mem_cons_of_mem a hs)) hj
    have ha := (h a List.mem_cons_self).mono (Nat.zero_le rest.size)
    exact (ha.pairs hrest fun hv => Paired.mk _ hv).map_right fun hv => hv.flattens

theorem rowsOver_repeats (h : ∀ s ∈ sources.toList, s.Repeats 0 Eq s) {k : Nat}
    (hk : sources.size = k + 1) :
    (rowsOver sources).Repeats 0 (flip (Flattens k)) (nestedPairs sources) := by
  induction sources generalizing k with
  | pair a b =>
    obtain rfl : 1 = k := Nat.succ.inj hk
    exact (h a (by simp [Tuple.toList])).pairs (h b (by simp [Tuple.toList])) fun hv =>
      hv ▸ flattens_pair _ _
  | cons a rest ih =>
    obtain ⟨j, hj⟩ := exists_size_eq rest
    obtain rfl : j + 1 = k := hj.symm.trans (Nat.succ.inj hk)
    have hrest := ih (fun s hs => h s (List.mem_cons_of_mem a hs)) hj
    have hpairs : (pairs a (rowsOver rest)).Repeats 0 (flip (Paired (Flattens j)))
        (pairs a (nestedPairs rest)) :=
      (h a List.mem_cons_self).pairs hrest fun hv => Paired.mk _ hv
    exact hpairs.map_left fun hv => Paired.flattens hv

/-- The two products do the same, whatever the sources do. -/
theorem product_repeats (h : ∀ s ∈ sources.toList, s.Repeats 0 Eq s) :
    (product sources).Repeats sources.size Eq (rowsOver sources) ∧
      (rowsOver sources).Repeats 1 Eq (product sources) := by
  cases sources with
  | pair a b =>
    have hpairs : (pairs a b).Repeats 0 Eq (pairs a b) :=
      (h a (by simp [Tuple.toList])).pairs (h b (by simp [Tuple.toList])) fun hv => by rw [hv]
    exact ⟨hpairs.mono (Nat.zero_le 2), hpairs.mono (Nat.zero_le 1)⟩
  | cons a rest =>
    obtain ⟨j, hj⟩ := exists_size_eq rest
    have hsize : (Tuple.cons a rest).size = rest.size + 1 := rfl
    constructor
    · exact (nestedPairs_repeats h hsize).map_left fun hv => hv.symm
    · exact (rowsOver_repeats h hsize).map_right fun hv => hv

/-- Over any named sources, `product` and `productAll?` give the same replies to every schedule of
calls on a new cursor, or none, and leave the same world behind: every source was started and called
at the same points with the same replies, as the notes say. -/
theorem product_replies_iff (sources : Tuple (ι × Origin ω τ)) :
    ∃ s, productAll? (Origin.watchAll sources).toList = .ok s ∧
      ∀ asks w replies w',
        (product (Origin.watchAll sources)).Replies asks w replies w' ↔
          s.Replies asks w replies w' := by
  refine ⟨_, productAll?_toList _, fun asks w replies w' => ?_⟩
  have hsources : ∀ s ∈ (Origin.watchAll sources).toList, s.Repeats 0 Eq s := by
    intro s hs
    rw [Origin.watchAll, Tuple.toList_map] at hs
    obtain ⟨⟨i, o⟩, -, rfl⟩ := List.mem_map.mp hs
    exact repeats_given _ _
  obtain ⟨hforth, hback⟩ := product_repeats hsources
  exact ⟨hforth.replies, hback.replies⟩

end Sequence

end LazySeq
