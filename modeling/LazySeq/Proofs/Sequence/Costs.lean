import LazySeq.Proofs.Sequence.Rows

/-!
# What a walk over a sequence costs

`Sequence.Costs` is `Sequence.Means` with the cost of a walk to the end, the start of the cursor
included. A product costs a walk of its first sequence and, for each element of it, a walk of the
product of the others (`Sequence.Costs.productOf`); this is also what it costs where there is no row
at all, because a later sequence has no element.
-/

namespace LazySeq

open LazySeq.Frame

variable {ω τ σ : Type} {fr : Frame (World ω τ)}

namespace Cursor

theorem bills_wrapped {bill : World ω τ → Nat} {wrap : σ → Cursor ω τ}
    {stage : Nat → Machine (World ω τ) σ Value} (hrun : Runs wrap stage)
    {U : Nat → fr.Account Value σ} {n : Nat}
    (h : fr.Bills bill (stage n) U) :
    fr.Bills bill (machine (n + 1)) fun owed => Wrapped wrap (U owed) where
  keeps owed xs c := by
    refine .of_follows ?_
    intro F w ⟨s, hc, hs⟩
    exact ⟨_, h.keeps owed xs s, hs, fun _ hs' => ⟨s, hc, hs'⟩⟩
  hasNext := by
    rintro owed F xs w _ ⟨s, rfl, hs⟩
    rw [machine_hasNext wrap (hrun n s)]
    refine (h.hasNext hs).bind ?_
    intro ⟨more, s⟩ w' ⟨hmore, hspends⟩
    exact Comp.returns_pure.mpr
      ⟨hmore, hspends.mono fun o F' ⟨hzero, hs⟩ => ⟨hzero, s, rfl, hs⟩⟩
  next_cons := by
    rintro owed F a xs w _ ⟨s, rfl, hs⟩
    rw [machine_next wrap (hrun n s)]
    refine (h.next_cons hs).bind ?_
    intro ⟨answer, s⟩ w' ⟨hanswer, hspends⟩
    exact Comp.returns_pure.mpr ⟨hanswer, hspends.mono fun o F' hs => ⟨s, rfl, hs⟩⟩
  next_nil := by
    rintro owed F w _ ⟨s, rfl, hs⟩
    rw [machine_next wrap (hrun n s)]
    refine (h.next_nil hs).bind ?_
    intro ⟨answer, s⟩ w' ⟨hanswer, hspends⟩
    exact Comp.returns_pure.mpr
      ⟨hanswer, hspends.mono fun o F' ⟨hzero, hs⟩ => ⟨hzero, s, rfl, hs⟩⟩

end Cursor

namespace Sequence

variable {κ : Type} {bill : κ → World ω τ → Nat}

/-- Every cursor on the sequence has `xs` left; its start and its calls together add the price to
the bill until it reports its end. This is said of many bills at once, with one bound on fuel. -/
def Costs (fr : Frame (World ω τ)) (bill : κ → World ω τ → Nat) (price : κ → Nat)
    (s : Sequence ω τ) (xs : List Value) : Prop :=
  ∃ N, ∀ k, ∃ U : Nat → fr.Account Value (Cursor ω τ),
    (∀ n, N ≤ n → fr.Bills (bill k) (Cursor.machine n) U) ∧ ∀ w, s.start.Returns w fun c w' =>
      Spends (bill k) (fun o => U o xs c) (price k) Region.none w w'

variable {s t : Sequence ω τ} {xs ys : List Value} {p q : κ → Nat}

/-- A sequence of one stage, whose cursors begin with one on `s`. -/
theorem Costs.of_stage {s' : Sequence ω τ} (wrap : σ → Cursor ω τ) (fresh : Cursor ω τ → σ)
    {stage : Nat → Machine (World ω τ) σ Value} (hrun : Cursor.Runs wrap stage)
    (hs : s'.start = do return wrap (fresh (← s.start))) {N : Nat}
    (h : ∀ k, ∃ U : Nat → fr.Account Value σ,
      (∀ n, N ≤ n → fr.Bills (bill k) (stage n) U) ∧ ∀ w, s.start.Returns w fun c w' =>
        Spends (bill k) (fun o => U o ys (fresh c)) (p k) Region.none w w') :
    s'.Costs fr bill p ys := by
  refine ⟨N + 1, fun k => ?_⟩
  obtain ⟨U, hU, hstart⟩ := h k
  refine ⟨fun o => Cursor.Wrapped wrap (U o), fun n hn => ?_, fun w => ?_⟩
  · obtain ⟨n, rfl⟩ := Nat.exists_eq_add_one.mpr (Nat.lt_of_lt_of_le (Nat.succ_pos N) hn)
    exact Cursor.bills_wrapped hrun (hU n (Nat.le_of_succ_le_succ hn))
  · rw [hs]
    refine (hstart w).bind ?_
    intro c w' hspends
    exact Comp.returns_pure.mpr (hspends.mono fun o F' hc => ⟨_, rfl, hc⟩)

theorem Costs.map {f : Value → Value} (h : s.Costs fr bill p xs) :
    (s.map (.pure f)).Costs fr bill p (xs.map f) := by
  obtain ⟨N, h⟩ := h
  refine .of_stage (.map (.pure f)) id (fun _ _ => rfl) rfl (N := N) fun k => ?_
  obtain ⟨U, hU, hstart⟩ := h k
  refine ⟨MapOwes f U, fun n hn => (hU n hn).map fun _ => rfl, fun w => ?_⟩
  exact (hstart w).mono fun c w' hspends => hspends.mono fun o F' hc => ⟨xs, rfl, hc⟩

theorem Costs.pairs (hs : s.Costs fr bill p xs) (ht : t.Costs fr bill q ys) :
    (s.pairs t).Costs fr bill (fun k => p k + xs.length * q k)
      ((allPairs xs ys).map Cursor.pairValue) := by
  obtain ⟨N, hs⟩ := hs
  obtain ⟨N', ht⟩ := ht
  refine .of_stage (.pairs t) (fun c => ⟨c, none⟩) (fun _ _ => rfl) rfl
    (N := max (max N N') (xs.length + 1)) fun k => ?_
  obtain ⟨U, hU, hstart⟩ := hs k
  obtain ⟨V, hV, hstart'⟩ := ht k
  refine ⟨MapOwes Cursor.pairValue (RowsLeft xs.length ys (q k) U V), fun n hn => ?_, fun w => ?_⟩
  · have hpairs := (hU n (by omega)).pairs hstart' (hV n (by omega)) (show xs.length < n by omega)
    exact hpairs.map fun _ => rfl
  · refine (hstart w).mono ?_
    intro c w' ⟨o, hbill, hreach⟩
    -- the rows are paid for one by one, and none of them has been begun
    refine ⟨o + xs.length * q k, by omega, hreach.mono fun F' hc => ?_⟩
    exact ⟨allPairs xs ys, rfl, xs, o, rfl, rfl, Nat.le_refl _, hc⟩

/-- A new cursor answers a schedule as the cursor over the list, and once it refused a call the
whole price is on every bill. -/
theorem Costs.run [hκ : Nonempty κ] (h : s.Costs fr bill p xs) : ∃ N, ∀ n, N ≤ n → ∀ asks w,
    (do (Cursor.machine n).run asks (← s.start)).Returns w fun r w' =>
      r.1 = ListCursor.run asks xs ∧
        ((∃ reply ∈ r.1, reply.Refuses) → ∀ k, bill k w' = bill k w + p k) := by
  obtain ⟨N, h⟩ := h
  refine ⟨N, fun n hn asks w => ?_⟩
  have hevery : ∀ k, (do (Cursor.machine n).run asks (← s.start)).Returns w fun r w' =>
      r.1 = ListCursor.run asks xs ∧
        ((∃ reply ∈ r.1, reply.Refuses) → bill k w' = bill k w + p k) := by
    intro k
    obtain ⟨U, hU, hstart⟩ := h k
    refine (hstart w).bind ?_
    intro c w' ⟨o, hbill, F, hstep, hc⟩
    refine ((hU n hn).run asks hc).mono ?_
    rintro ⟨replies, c⟩ w'' ⟨rfl, o', hbill', F', hstep', hzero, -⟩
    refine ⟨rfl, fun hrefuses => ?_⟩
    obtain rfl := hzero (.inr hrefuses)
    omega
  have ⟨k₀⟩ := hκ
  refine (Comp.Returns.forall hevery).mono ?_
  exact fun r w' hr => ⟨(hr k₀).1, fun hrefuses k => (hr k).2 hrefuses⟩

/-! ## Products -/

/-- What a walk over the product of sequences costs, given what a walk over each of them costs and
how long it is. -/
def productPrice : List ((κ → Nat) × List Value) → κ → Nat
  | [], _ => 0
  | (price, xs) :: rest, k => price k + xs.length * productPrice rest k

/-- The sequences cost the prices and mean the lists. -/
def CostAll (fr : Frame (World ω τ)) (bill : κ → World ω τ → Nat) :
    List (Sequence ω τ) → List ((κ → Nat) × List Value) → Prop :=
  List.Forall₂ fun s e => s.Costs fr bill e.1 e.2

theorem Costs.productOf {ss : List (Sequence ω τ)} {es : List ((κ → Nat) × List Value)}
    (hs : s.Costs fr bill p xs) (ht : t.Costs fr bill q ys) (h : CostAll fr bill ss es) :
    (productOf s t ss).Costs fr bill (productPrice ((p, xs) :: (q, ys) :: es))
      ((allRows (xs :: ys :: es.map Prod.snd)).map .list) := by
  induction h generalizing s t p q xs ys with
  | nil =>
    rw [List.map_nil, allRows_pair]
    exact hs.pairs ht
  | cons hc _ ih =>
    rw [allRows, ← map_prependRow]
    exact (hs.pairs (ih ht hc)).map

end Sequence

end LazySeq
