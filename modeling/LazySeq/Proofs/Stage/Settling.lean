import LazySeq.Proofs.Schedule
import LazySeq.Proofs.Stage.Peek
import LazySeq.Stage.Join
import LazySeq.Stage.Product
import LazySeq.Stage.Replay
import Mathlib.Logic.Relation
import Mathlib.Order.WellFounded

/-!
# Where a concatenation comes to an end

`Machine.settle` has no measure of its own. A round of it ends the search if the current inner cursor
has an element or the outer cursor says that there is no further one; otherwise the outer cursor
was asked for one, and the search goes on even if it failed.

So a search that hands on finitely many inner cursors can go on for ever in one way only: from some
point on the outer cursor says that more is left and fails, again and again (`Machine.FailsForEver`).
`Machine.flatten_finishes_iff` is that statement, and `Machine.flatten_cycle_never_finishes` is a
concatenation that does go on for ever.
-/

namespace LazySeq

variable {ω σ τ α β : Type}

/-! ## Answers that take fuel -/

namespace Comp

variable {w : ω}

/-- From some amount of fuel on, `act` answers, and always the same. -/
def Finishes (act : ℕ → Comp ω α) (w : ω) : Prop :=
  ∃ n a w', ∀ fuel, n ≤ fuel → act fuel w = .ok a w'

/-- No amount of fuel is enough for `act`. -/
def RunsDry (act : ℕ → Comp ω α) (w : ω) : Prop :=
  ∀ fuel, ∃ w', act fuel w = .error .outOfFuel w'

theorem RunsDry.not_finishes {act : ℕ → Comp ω α} (h : RunsDry act w) : ¬ Finishes act w := by
  rintro ⟨n, a, w', hok⟩
  obtain ⟨v, herror⟩ := h n
  rw [hok n (Nat.le_refl n)] at herror
  cases herror

theorem RunsDry.bind {act : ℕ → Comp ω α} (h : RunsDry act w) (f : α → Comp ω β) :
    RunsDry (fun fuel => act fuel >>= f) w := by
  intro fuel
  obtain ⟨w', herror⟩ := h fuel
  exact ⟨w', bind_of_error herror⟩

theorem Finishes.bind {act : ℕ → Comp ω α} {f : α → Comp ω β} {P : α → ω → Prop}
    (h : Finishes act w) (hact : ∀ fuel, (act fuel).Ensures w P)
    (hf : ∀ a w', P a w' → (f a).Returns w' fun _ _ => True) :
    Finishes (fun fuel => act fuel >>= f) w := by
  obtain ⟨n, a, w', hok⟩ := h
  obtain ⟨b, w'', hrun, -⟩ := hf a w' (hact n a w' (hok n (Nat.le_refl n)))
  exact ⟨n, b, w'', fun fuel hfuel => (bind_of_ok (hok fuel hfuel)).trans hrun⟩

end Comp

namespace Machine

/-! ## One round -/

/-- Asks whether an element is left and, if so, for the element. -/
def offer (m : Machine ω σ α) (s : σ) : Comp ω (Option (Except Error α) × σ) := do
  let (more, s) ← m.hasNext s
  if more then
    let (answer, s) ← m.next s
    return (some answer, s)
  else
    return (none, s)

/-- One round of the search for an inner cursor with an element: the answer, if it is settled. -/
def goOn (m : Machine ω σ τ) (k : Machine ω τ α) (c : Nested σ τ) :
    Comp ω (Option Bool × Nested σ τ) := do
  let (more, current) ← k.currentHasNext c.current
  if more then
    return (some true, ⟨c.outer, current⟩)
  else
    match ← m.offer c.outer with
    | (none, outer) => return (some false, ⟨outer, none⟩)
    | (some answer, outer) => return (none, ⟨outer, answer.toOption⟩)

variable {m : Machine ω σ τ} {k : Machine ω τ α}

/-- The search is one round after the other. -/
theorem settle_succ (n : Nat) (c : Nested σ τ) :
    settle m k (n + 1) c = (do
      match ← m.goOn k c with
      | (some more, c) => pure (more, c)
      | (none, c) => settle m k n c) := by
  simp only [settle, goOn, offer, bind_assoc]
  refine bind_congr ?_
  rintro ⟨more, current⟩
  cases more with
  | true => rfl
  | false =>
    simp only [Bool.false_eq_true, if_false, bind_assoc]
    refine bind_congr ?_
    rintro ⟨more, outer⟩
    cases more with
    | false => rfl
    | true => simp only [if_true, bind_assoc, pure_bind]

/-- A round from `x` settles nothing and leads to `x'`. -/
def GoesOn (m : Machine ω σ τ) (k : Machine ω τ α) (x x' : Nested σ τ × ω) : Prop :=
  m.goOn k x.1 x.2 = .ok (none, x'.1) x'.2

/-- The cursor says that more is left and fails. -/
def Fails (m : Machine ω σ τ) (x x' : σ × ω) : Prop :=
  ∃ e, m.offer x.1 x.2 = .ok (some (.error e), x'.1) x'.2

/-- The cursor says that more is left and fails, again and again without end. -/
def FailsForEver (m : Machine ω σ τ) (s : σ) (w : ω) : Prop :=
  ∃ f : ℕ → σ × ω, f 0 = (s, w) ∧ ∀ i, m.Fails (f i) (f (i + 1))

/-- The search from `c` comes to a point from where the outer cursor fails for ever. -/
def GetsStuck (m : Machine ω σ τ) (k : Machine ω τ α) (c : Nested σ τ) (w : ω) : Prop :=
  ∃ s w', Relation.ReflTransGen (m.GoesOn k) (c, w) (⟨s, none⟩, w') ∧ m.FailsForEver s w'

variable {c c' : Nested σ τ} {s s' : σ} {w w' : ω}

theorem settle_of_settled {more : Bool} (h : m.goOn k c w = .ok (some more, c') w') (n : Nat) :
    settle m k (n + 1) c w = .ok (more, c') w' := by
  rw [settle_succ, Comp.bind_of_ok h]
  rfl

theorem GoesOn.settle (h : m.GoesOn k (c, w) (c', w')) (n : Nat) :
    Machine.settle m k (n + 1) c w = Machine.settle m k n c' w' := by
  rw [settle_succ, Comp.bind_of_ok h]

/-- Where no inner cursor is current, a round that leaves none is a failure of the outer cursor. -/
theorem goesOn_iff_fails :
    m.GoesOn k (⟨s, none⟩, w) (⟨s', none⟩, w') ↔ m.Fails (s, w) (s', w') := by
  have hround : m.goOn k ⟨s, none⟩ w = (m.offer s >>= fun
      | (none, outer) => pure (some false, ⟨outer, none⟩)
      | (some answer, outer) => pure (none, ⟨outer, answer.toOption⟩)) w := rfl
  rw [GoesOn, Fails, hround]
  cases hoffer : m.offer s w with
  | error halt v => rw [Comp.bind_of_error hoffer]; simp
  | ok r v =>
    rw [Comp.bind_of_ok hoffer]
    obtain ⟨offered, outer⟩ := r
    rcases offered with _ | answer
    · simp [pure, EStateM.pure]
    · cases answer <;> simp [pure, EStateM.pure, Except.toOption]

theorem reaches_of_goesOn {f : ℕ → Nested σ τ × ω} (h : ∀ i, m.GoesOn k (f i) (f (i + 1)))
    (N : ℕ) : Relation.ReflTransGen (m.GoesOn k) (f 0) (f N) := by
  induction N with
  | zero => exact .refl
  | succ i ih => exact ih.tail (h i)

/-- What a call does with the outcome of the search. -/
def replyOf (k : Machine ω τ α) : Ask → Bool × Nested σ τ → Comp ω (Reply α × Nested σ τ)
  | .hasNext, (more, c) => return (.more more, c)
  | .next, (true, ⟨outer, some t⟩) => do
    let (answer, t) ← k.next t
    return (.item answer, ⟨outer, some t⟩)
  | .next, (_, c) => return (.item (.error .exhausted), c)

theorem call_flatten (fuel : ℕ) (ask : Ask) (c : Nested σ τ) :
    (m.flatten fuel k).call ask c = settle m k fuel c >>= replyOf k ask := by
  cases ask with
  | hasNext => rfl
  | next =>
    simp only [call_next, flatten, bind_assoc]
    refine bind_congr ?_
    rintro ⟨more, outer, current⟩
    cases more with
    | false => rfl
    | true =>
      cases current with
      | none => rfl
      | some t => simp only [replyOf, bind_assoc, pure_bind]

/-! ## Stuck for ever -/

theorem FailsForEver.step (h : m.FailsForEver s w) :
    ∃ s' w', m.Fails (s, w) (s', w') ∧ m.FailsForEver s' w' := by
  obtain ⟨f, hzero, hfails⟩ := h
  exact ⟨(f 1).1, (f 1).2, hzero ▸ hfails 0, fun i => f (i + 1), rfl, fun i => hfails (i + 1)⟩

theorem FailsForEver.runsDry (h : m.FailsForEver s w) (k : Machine ω τ α) :
    Comp.RunsDry (fun fuel => settle m k fuel ⟨s, none⟩) w := by
  intro fuel
  induction fuel generalizing s w with
  | zero => exact ⟨w, rfl⟩
  | succ n ih =>
    obtain ⟨s', w', hfails, h⟩ := h.step
    obtain ⟨v, hv⟩ := ih h
    have hround : m.GoesOn k (⟨s, none⟩, w) (⟨s', none⟩, w') := goesOn_iff_fails.mpr hfails
    exact ⟨v, (hround.settle n).trans hv⟩

theorem GetsStuck.runsDry (h : m.GetsStuck k c w) :
    Comp.RunsDry (fun fuel => settle m k fuel c) w := by
  obtain ⟨s, w', hreach, hfails⟩ := h
  -- on the rounds up to the point where it is stuck
  generalize hx : (c, w) = x at hreach
  induction hreach using Relation.ReflTransGen.head_induction_on generalizing c w with
  | refl =>
    obtain ⟨rfl, rfl⟩ := Prod.mk.inj hx
    exact hfails.runsDry k
  | head hround _ ih =>
    subst hx
    intro fuel
    cases fuel with
    | zero => exact ⟨w, rfl⟩
    | succ n =>
      obtain ⟨v, hv⟩ := ih rfl n
      exact ⟨v, (GoesOn.settle hround n).trans hv⟩

/-! ## Finitely many inner cursors -/

/-- The calls of the outer cursor and of the inner cursors that it hands out return, whatever they
answer, and it does not hand out inner cursors without end. `Idle d w s` where none is being walked,
`Busy d w s t` where `t` is; `d` is a bound on those still to come, which each of them lowers. -/
structure HandsOut {δ : Type} [LT δ] (m : Machine ω σ τ) (k : Machine ω τ α)
    (Idle : δ → ω → σ → Prop) (Busy : δ → ω → σ → τ → Prop) : Prop where
  outer_hasNext {d : δ} {w : ω} {s : σ} : Idle d w s →
    (m.hasNext s).Returns w fun r w' => Idle d w' r.2
  outer_next {d : δ} {w : ω} {s : σ} : Idle d w s → (m.next s).Returns w fun r w' =>
    match r.1 with
    | .ok t => ∃ d', d' < d ∧ Busy d' w' r.2 t
    | .error _ => Idle d w' r.2
  /-- an inner cursor that says that nothing is left is given up -/
  inner_hasNext {d : δ} {w : ω} {s : σ} {t : τ} : Busy d w s t →
    (k.hasNext t).Returns w fun r w' => Busy d w' s r.2 ∧ (r.1 = false → Idle d w' s)
  inner_next {d : δ} {w : ω} {s : σ} {t : τ} : Busy d w s t →
    (k.next t).Returns w fun r w' => Busy d w' s r.2

variable {δ : Type} {Idle : δ → ω → σ → Prop} {Busy : δ → ω → σ → τ → Prop} {d : δ}

/-- At most `d` inner cursors are still to come. -/
def ToCome (Idle : δ → ω → σ → Prop) (Busy : δ → ω → σ → τ → Prop) (d : δ) (x : Nested σ τ × ω) :
    Prop :=
  match x.1.current with
  | none => Idle d x.2 x.1.outer
  | some t => Busy d x.2 x.1.outer t

section Account

variable [Preorder δ] (h : HandsOut m k Idle Busy)
include h

theorem HandsOut.offer (hs : Idle d w s) :
    (m.offer s).Returns w fun r w' =>
      match r.1 with
      | some (.ok t) => ∃ d', d' < d ∧ Busy d' w' r.2 t
      | _ => Idle d w' r.2 := by
  refine (h.outer_hasNext hs).bind ?_
  rintro ⟨more, s⟩ w' hs
  cases more with
  | false => exact Comp.returns_pure.mpr hs
  | true =>
    refine (h.outer_next hs).bind ?_
    rintro ⟨answer, s⟩ w'' hs
    cases answer with
    | error e => exact Comp.returns_pure.mpr hs
    | ok t => exact Comp.returns_pure.mpr hs

/-- Every round returns. One that goes on with a new inner cursor has lowered the bound. -/
theorem HandsOut.goOn (hc : ToCome Idle Busy d (c, w)) :
    (m.goOn k c).Returns w fun r w' => ∃ d', d' ≤ d ∧ ToCome Idle Busy d' (r.2, w') ∧
      (r.1 = none → r.2.current ≠ none → d' < d) := by
  have hask : (k.currentHasNext c.current).Returns w fun r w' =>
      ToCome Idle Busy d (⟨c.outer, r.2⟩, w') ∧ (r.1 = false → Idle d w' c.outer) := by
    obtain ⟨s, current⟩ := c
    cases current with
    | none => exact Comp.returns_pure.mpr ⟨hc, fun _ => hc⟩
    | some t => exact (h.inner_hasNext hc).bind fun _ _ ht => Comp.returns_pure.mpr ht
  refine hask.bind ?_
  rintro ⟨more, current⟩ w₁ ⟨hc, hidle⟩
  cases more with
  | true => exact Comp.returns_pure.mpr ⟨d, le_refl d, hc, nofun⟩
  | false =>
    refine (h.offer (hidle rfl)).bind ?_
    rintro ⟨offered, s⟩ w₂ hs
    match offered, hs with
    | none, hs => exact Comp.returns_pure.mpr ⟨d, le_refl d, hs, nofun⟩
    | some (.error e), hs =>
      exact Comp.returns_pure.mpr ⟨d, le_refl d, hs, fun _ hne => (hne rfl).elim⟩
    | some (.ok t), ⟨d', hlt, hs⟩ =>
      exact Comp.returns_pure.mpr ⟨d', hlt.le, hs, fun _ _ => hlt⟩

theorem HandsOut.of_goesOn {x x' : Nested σ τ × ω} (hx : ToCome Idle Busy d x)
    (hround : m.GoesOn k x x') :
    ∃ d', d' ≤ d ∧ ToCome Idle Busy d' x' ∧ (x'.1.current ≠ none → d' < d) := by
  obtain ⟨d', hle, hx', hlt⟩ := (h.goOn hx).ensures _ _ hround
  exact ⟨d', hle, hx', hlt rfl⟩

/-- A search answers or goes from round to round for ever. -/
theorem HandsOut.finishes_or_goesOn (hc : ToCome Idle Busy d (c, w)) :
    Comp.Finishes (fun fuel => settle m k fuel c) w ∨
      ∃ f : ℕ → Nested σ τ × ω, f 0 = (c, w) ∧ ∀ i, m.GoesOn k (f i) (f (i + 1)) := by
  by_cases hacc : Acc (flip (m.GoesOn k)) (c, w)
  · refine .inl ?_
    generalize hx : (c, w) = x at hacc
    induction hacc generalizing c w d with
    | intro x _ ih =>
      subst hx
      obtain ⟨⟨answer, c'⟩, w', hround, d', -, hc', -⟩ := h.goOn hc
      cases answer with
      | some more =>
        refine ⟨1, (more, c'), w', fun fuel hfuel => ?_⟩
        obtain ⟨n, rfl⟩ := Nat.exists_eq_add_one.mpr hfuel
        exact settle_of_settled hround n
      | none =>
        have hgoes : m.GoesOn k (c, w) (c', w') := hround
        obtain ⟨n, r, w'', hok⟩ := ih (c', w') hgoes hc' rfl
        refine ⟨n + 1, r, w'', fun fuel hfuel => ?_⟩
        obtain ⟨fuel, rfl⟩ := Nat.exists_eq_add_one.mpr (Nat.zero_lt_of_lt hfuel)
        exact (hgoes.settle fuel).trans (hok fuel (Nat.le_of_succ_le_succ hfuel))
  · exact .inr (not_acc_iff_exists_descending_chain.mp hacc)

/-- As many rounds as one likes leave the bound or lower it. -/
theorem HandsOut.toCome_of_rounds {f : ℕ → Nested σ τ × ω} (hc : ToCome Idle Busy d (f 0))
    (hrounds : ∀ i, m.GoesOn k (f i) (f (i + 1))) (i : ℕ) :
    ∃ d', d' ≤ d ∧ ToCome Idle Busy d' (f i) := by
  induction i with
  | zero => exact ⟨d, le_refl d, hc⟩
  | succ i ih =>
    obtain ⟨d', hle, hi⟩ := ih
    obtain ⟨d'', hle', hi', -⟩ := h.of_goesOn hi (hrounds i)
    exact ⟨d'', hle'.trans hle, hi'⟩

/-- A search that goes on for ever is handed an inner cursor for the last time at some point. -/
theorem HandsOut.eventually_none [WellFoundedLT δ] {f : ℕ → Nested σ τ × ω}
    (hc : ToCome Idle Busy d (f 0)) (hrounds : ∀ i, m.GoesOn k (f i) (f (i + 1))) :
    ∃ N, ∀ i, (f (N + i)).1.current = none := by
  -- on the bound, which is lower after each inner cursor
  induction d using WellFoundedLT.induction generalizing f with
  | ind d ih =>
    by_cases hnone : ∀ i, (f (1 + i)).1.current = none
    · exact ⟨1, hnone⟩
    · obtain ⟨i, hi⟩ := not_forall.mp hnone
      obtain ⟨d', hle, hd'⟩ := h.toCome_of_rounds hc hrounds i
      obtain ⟨d'', -, hd'', hlt⟩ := h.of_goesOn hd' (hrounds i)
      rw [Nat.add_comm] at hi
      obtain ⟨N, hN⟩ := ih d'' ((hlt hi).trans_le hle) (f := fun j => f (i + 1 + j)) hd''
        fun j => hrounds (i + 1 + j)
      exact ⟨i + 1 + N, fun j => by rw [Nat.add_assoc]; exact hN j⟩

/-- The search ends unless it gets stuck. -/
theorem HandsOut.finishes_settle [WellFoundedLT δ] (hc : ToCome Idle Busy d (c, w))
    (hstuck : ¬ m.GetsStuck k c w) : Comp.Finishes (fun fuel => settle m k fuel c) w := by
  refine (h.finishes_or_goesOn hc).resolve_right ?_
  rintro ⟨f, hzero, hrounds⟩
  have hbegin : ToCome Idle Busy d (f 0) := by rwa [hzero]
  obtain ⟨N, hnone⟩ := h.eventually_none hbegin hrounds
  have hplace : ∀ i, f (N + i) = (⟨(f (N + i)).1.outer, none⟩, (f (N + i)).2) := fun i => by
    rw [← hnone i]
  -- from there on all rounds are failures
  have hfails : ∀ i, m.GoesOn k (f (N + i)) (f (N + (i + 1))) := fun i => hrounds (N + i)
  refine hstuck ⟨(f (N + 0)).1.outer, (f (N + 0)).2, ?_,
    fun i => ((f (N + i)).1.outer, (f (N + i)).2), rfl, fun i => ?_⟩
  · rw [← hzero, ← hplace 0]
    exact reaches_of_goesOn hrounds N
  · have hround := hfails i
    rw [hplace i, hplace (i + 1)] at hround
    exact goesOn_iff_fails.mp hround

/-! ## Calls -/

theorem HandsOut.ensures_settle (fuel : ℕ) (hc : ToCome Idle Busy d (c, w)) :
    (settle m k fuel c).Ensures w fun r w' => ∃ d, ToCome Idle Busy d (r.2, w') := by
  induction fuel generalizing c w d with
  | zero => exact nofun
  | succ n ih =>
    rw [settle_succ]
    refine (h.goOn hc).ensures.bind ?_
    rintro ⟨answer, c⟩ w' ⟨d', -, hc, -⟩
    cases answer with
    | some more => exact Comp.ensures_pure.mpr ⟨d', hc⟩
    | none => exact ih hc

theorem HandsOut.replyOf (ask : Ask) {r : Bool × Nested σ τ} (hc : ToCome Idle Busy d (r.2, w)) :
    (replyOf k ask r).Returns w fun r w' => ToCome Idle Busy d (r.2, w') := by
  obtain ⟨more, s, current⟩ := r
  match ask, more, current, hc with
  | .hasNext, _, _, hc => exact Comp.returns_pure.mpr hc
  | .next, false, _, hc => exact Comp.returns_pure.mpr hc
  | .next, true, none, hc => exact Comp.returns_pure.mpr hc
  | .next, true, some t, hc =>
    refine (h.inner_next hc).bind ?_
    rintro ⟨answer, t⟩ w' ht
    exact Comp.returns_pure.mpr ht

theorem HandsOut.ensures_call (fuel : ℕ) (ask : Ask) (hc : ∃ d, ToCome Idle Busy d (c, w)) :
    ((m.flatten fuel k).call ask c).Ensures w fun r w' => ∃ d, ToCome Idle Busy d (r.2, w') := by
  obtain ⟨d, hc⟩ := hc
  rw [call_flatten]
  refine (h.ensures_settle fuel hc).bind ?_
  rintro r w' ⟨d', hc⟩
  exact (h.replyOf ask hc).ensures.mono fun _ _ hr => ⟨d', hr⟩

/-- A call ends exactly where its search does not get stuck. -/
theorem HandsOut.finishes_call_iff [WellFoundedLT δ] (hc : ToCome Idle Busy d (c, w))
    (ask : Ask) :
    Comp.Finishes (fun fuel => (m.flatten fuel k).call ask c) w ↔ ¬ m.GetsStuck k c w := by
  simp only [call_flatten]
  constructor
  · intro hends hstuck
    exact (hstuck.runsDry.bind (Machine.replyOf k ask)).not_finishes hends
  · intro hstuck
    refine (h.finishes_settle hc hstuck).bind (fun fuel => h.ensures_settle fuel hc) ?_
    rintro r w' ⟨d', hr⟩
    exact (h.replyOf ask hr).mono fun _ _ _ => trivial

end Account

/-! ## Outer cursors that fail -/

/-- Hands out what is listed, which may be failures; it says that more is left until the list is
used up. -/
def listed : Machine ω (List (Except Error α)) α where
  hasNext answers := return (!answers.isEmpty, answers)
  next
    | [] => return (.error .exhausted, [])
    | answer :: answers => return (answer, answers)

/-- A failure uses up one of the listed answers. -/
theorem not_failsForEver_listed (answers : List (Except Error α)) :
    ¬ (listed : Machine ω _ α).FailsForEver answers w := by
  rintro ⟨f, -, hfails⟩
  have hlength : ∀ i, (f i).1.length + i ≤ (f 0).1.length := by
    intro i
    induction i with
    | zero => exact le_refl _
    | succ i ih =>
      obtain ⟨e, hoffer⟩ := hfails i
      generalize f i = x at ih hoffer
      obtain ⟨_ | ⟨answer, rest⟩, v⟩ := x
      · cases hoffer
      · obtain ⟨hanswer, -⟩ := EStateM.Result.ok.inj hoffer
        obtain rfl : rest = (f (i + 1)).1 := (Prod.mk.inj hanswer).2
        rw [List.length_cons] at ih
        omega
  have hend := hlength ((f 0).1.length + 1)
  omega

theorem handsOut_listed :
    HandsOut (listed : Machine Unit _ (Peeked (List ℕ) ℕ)) (peek pullHead)
      (fun d _ answers => answers.length ≤ d) (fun d _ answers _ => answers.length ≤ d) where
  outer_hasNext hs := Comp.returns_pure.mpr hs
  outer_next {d _ answers} hs := by
    match answers, hs with
    | [], hs => exact Comp.returns_pure.mpr hs
    | .error e :: rest, hs => exact Comp.returns_pure.mpr (Nat.le_of_succ_le hs)
    | .ok t :: rest, hs =>
      exact Comp.returns_pure.mpr ⟨rest.length, hs, le_refl _⟩
  inner_hasNext {_ _ _ t} hs := by
    obtain ⟨xs, slot⟩ := t
    cases slot <;> cases xs <;> exact ⟨_, _, rfl, hs, fun _ => hs⟩
  inner_next {_ _ _ t} hs := by
    obtain ⟨xs, slot⟩ := t
    cases slot <;> cases xs <;> exact ⟨_, _, rfl, hs⟩

/-- Says that an element is left until it is asked for it, and has none. -/
def promising : Machine ω Bool α where
  hasNext promised := return (promised, promised)
  next _ := return (.error .exhausted, false)

theorem handsOut_replay_promising :
    HandsOut ((promising : Machine Unit Bool (Peeked (List ℕ) ℕ)).replay (pure true))
      (peek pullHead) (fun d _ _ => d = 0) (fun _ _ _ _ => False) where
  outer_hasNext {_ _ r} hs := by
    rcases r with (_ | _ | _) | ⟨(_ | _), (_ | _), (_ | _ | _)⟩ | _ <;> exact ⟨_, _, rfl, hs⟩
  outer_next {_ _ r} hs := by
    rcases r with (_ | _ | _) | ⟨(_ | _), (_ | _), (_ | _ | _)⟩ | _ <;> exact ⟨_, _, rfl, hs⟩
  inner_hasNext hs := hs.elim
  inner_next hs := hs.elim

/-- Every pass of it says that an element is left, and fails. -/
theorem failsForEver_replay_promising :
    ((promising : Machine Unit Bool α).replay (pure true)).FailsForEver (.fresh none) () := by
  refine ⟨fun i => (if i = 0 then .fresh none else .running false true none, ()), rfl, ?_⟩
  intro i
  cases i with
  | zero => exact ⟨.exhausted, rfl⟩
  | succ i => exact ⟨.exhausted, rfl⟩

/-! ## Every call -/

/-- Where the outer cursor hands out finitely many inner cursors, every call of a concatenation
answers after finitely many rounds, whatever the cursors answer and wherever the calls made before
have led to, unless the outer cursor comes to say for ever that more is left and to fail; then it
never answers. -/
theorem flatten_finishes_iff [Preorder δ] [WellFoundedLT δ] (h : HandsOut m k Idle Busy)
    (hs : Idle d w s) (fuel : ℕ) (asks : List Ask) :
    ((m.flatten fuel k).run asks ⟨s, none⟩).Ensures w fun r w' => ∀ ask,
      Comp.Finishes (fun fuel' => (m.flatten fuel' k).call ask r.2) w' ↔
        ¬ m.GetsStuck k r.2 w' := by
  have hstart : ToCome Idle Busy d (⟨s, none⟩, w) := hs
  refine (ensures_run (fun _ w c => ∃ d, ToCome Idle Busy d (c, w))
    (fun ask _ _ _ hc => h.ensures_call fuel ask hc) asks ⟨d, hstart⟩).mono ?_
  rintro ⟨replies, c⟩ w' ⟨d', hc⟩ ask
  exact h.finishes_call_iff hc ask

/-- Two inner cursors with a failure before each: any call after the first element answers. -/
theorem flatten_finishes_between_failures :
    ((listed.flatten 9 (peek pullHead)).run [.next]
      ⟨[.error .exhausted, .ok (.fresh [7]), .error .noSuchElement, .ok (.fresh [8])],
        none⟩).Returns () fun r w => r.1 = [.item (.ok 7)] ∧ ∀ ask,
      Comp.Finishes (fun fuel => (listed.flatten fuel (peek pullHead)).call ask r.2) w := by
  have hrun : ((listed.flatten 9 (peek pullHead)).run [.next]
      ⟨[.error .exhausted, .ok (.fresh [7]), .error .noSuchElement, .ok (.fresh [8])],
        none⟩).Returns () fun r _ => r.1 = [.item (.ok 7)] := ⟨_, _, rfl, rfl⟩
  refine (hrun.and_ensures
    (flatten_finishes_iff (d := 4) handsOut_listed (le_refl 4) 9 [.next])).mono ?_
  rintro r w ⟨hreplies, hiff⟩
  refine ⟨hreplies, fun ask => (hiff ask).mpr ?_⟩
  rintro ⟨answers, w', -, hfails⟩
  exact not_failsForEver_listed answers hfails

/-- The endless walk over such cursors hands out no inner cursor at all, and its calls return. Those
of the concatenation over it do not, however much fuel they are given. -/
theorem flatten_cycle_never_finishes :
    let cycle := (promising : Machine Unit Bool (Peeked (List ℕ) ℕ)).replay (pure true)
    HandsOut cycle (peek pullHead) (fun d _ _ => d = 0) (fun _ _ _ _ => False) ∧
      ∀ ask fuel, (cycle.flatten fuel (peek pullHead)).call ask ⟨.fresh none, none⟩ () =
        .error .outOfFuel () := by
  refine ⟨handsOut_replay_promising, fun ask fuel => ?_⟩
  obtain ⟨_, hdry⟩ := failsForEver_replay_promising.runsDry (peek pullHead) fuel
  rw [call_flatten]
  exact Comp.bind_of_error hdry

/-- The pairs over such a walk take its first failure for the end. -/
example :
    let cycle := (promising : Machine Unit Bool ℕ).replay (pure true)
    ∃ c, (cycle.pairs 1 (pure (.fresh [7])) (peek pullHead)).hasNext
      (⟨.fresh none, none⟩ : Rowed _ (Peeked (List ℕ) ℕ) ℕ) () = .ok (false, c) () :=
  ⟨_, rfl⟩

end Machine

end LazySeq
