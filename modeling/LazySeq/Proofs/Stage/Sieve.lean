import LazySeq.Proofs.Simulation.Walk

/-!
# Sieves

The stages that select elements all go about it in one way: they look whether they are through
already, pull an element, and judge it, with something to remember from one element to the next. A
`Sieve` is what they differ in, and `Machine.sift` the search that they have in common; that they
search as their sieves do is said by `Sieve.sift_byTest_skipped`, `Sieve.sift_byTest_ends` and
`Sieve.sift_slice`.

Two sieves one over the other are a single one (`Sieve.andThen`). Where there were two slots for an
element ahead there is one, so the states do not correspond at all times. They do whenever nothing
is held below, and this is so at every end of a search that found something
(`Machine.follows_sift_sift`, `Machine.follows_sift_andThen`). A search that found nothing closes the
slot, and how things stand below it no longer matters (`Rel.ahead`).
-/

namespace LazySeq

open Comparison

/-- What becomes of an element. -/
inductive Fate where
  | kept
  | skipped
  /-- it is not kept, and no other will be -/
  | ends

/-- How elements are selected, with something in `μ` to remember from one to the next. -/
structure Sieve (ω α μ : Type) where
  fresh : μ
  /-- no element will be kept any more -/
  through : μ → Bool
  judge : α → μ → Comp ω (Fate × μ)

/-- A source and what is remembered of the elements taken from it. -/
structure Sifted (σ μ : Type) where
  source : σ
  memory : μ

variable {ω σ α μ ν : Type}

/-- What is remembered, seen through `g`. -/
def Sifted.mapMemory (g : μ → ν) (x : Sifted σ μ) : Sifted σ ν := ⟨x.source, g x.memory⟩

/-- A number that is remembered, as the count of a slice. -/
def Sifted.counted (x : Sifted σ Nat) : Counted σ := ⟨x.source, x.memory⟩

/-- The next element that is kept. When it is through, nothing below is asked. -/
def Machine.sift (m : Machine ω σ α) (sv : Sieve ω α μ) :
    Nat → Sifted σ μ → Comp ω (Option α × Sifted σ μ)
  | 0, _ => throw .outOfFuel
  | n + 1, x => do
    if sv.through x.memory then
      return (none, x)
    else
      match ← m.pull? x.source with
      | (none, s) => return (none, ⟨s, x.memory⟩)
      | (some a, s) =>
        match ← sv.judge a x.memory with
        | (.kept, k) => return (some a, ⟨s, k⟩)
        | (.skipped, k) => m.sift sv n ⟨s, k⟩
        | (.ends, k) => return (none, ⟨s, k⟩)

/-! ## The element ahead -/

namespace Comparison

variable {ω' σ' α' : Type} {C : Comparison ω ω'} {S : C.Rel σ σ'} {V : C.Rel α α'}

/-- Elements that are alike, found in states that are, or none in whatever states. -/
inductive Found (s : σ → σ' → Prop) (v : α → α' → Prop) : Option α × σ → Option α' × σ' → Prop where
  | some {a : α} {a' : α'} {x : σ} {x' : σ'} (ha : v a a') (hx : s x x') :
    Found s v (.some a, x) (.some a', x')
  | none (x : σ) (x' : σ') : Found s v (.none, x) (.none, x')

/-- Slots that are alike over states that are, until the slots are closed. -/
inductive Ahead (s : σ → σ' → Prop) (v : α → α' → Prop) : Peeked σ α → Peeked σ' α' → Prop where
  | empty {x : σ} {x' : σ'} (hx : s x x') : Ahead s v ⟨x, .empty⟩ ⟨x', .empty⟩
  | held {a : α} {a' : α'} {x : σ} {x' : σ'} (ha : v a a') (hx : s x x') :
    Ahead s v ⟨x, .held a⟩ ⟨x', .held a'⟩
  | closed (x : σ) (x' : σ') : Ahead s v ⟨x, .closed⟩ ⟨x', .closed⟩

def Rel.found (S : C.Rel σ σ') (V : C.Rel α α') : C.Rel (Option α × σ) (Option α' × σ') where
  Holds b := Found (S b) (V b)
  mono hle h := by
    obtain ⟨ha, hx⟩ | ⟨x, x'⟩ := h
    · exact .some (V.mono hle ha) (S.mono hle hx)
    · exact .none x x'

def Rel.ahead (S : C.Rel σ σ') (V : C.Rel α α') : C.Rel (Peeked σ α) (Peeked σ' α') where
  Holds b := Ahead (S b) (V b)
  mono hle h := by
    obtain hx | ⟨ha, hx⟩ | ⟨x, x'⟩ := h
    · exact .empty (S.mono hle hx)
    · exact .held (V.mono hle ha) (S.mono hle hx)
    · exact .closed x x'

variable {fetch : σ → Comp ω (Option α × σ)} {fetch' : σ' → Comp ω' (Option α' × σ')}

theorem Carries.fill_ahead (h : C.Carries S (S.found V) fetch fetch') :
    C.Carries (S.ahead V) (Rel.eq.prod (S.ahead V)) (Machine.fill fetch)
      (Machine.fill fetch') := by
  rintro b _ _ (hx | ⟨ha, hx⟩ | ⟨x, x'⟩)
  · refine (h hx).bind ?_
    rintro b' _ _ hle (⟨ha, hx⟩ | ⟨x, x'⟩)
    · exact follows_pure ⟨rfl, .held ha hx⟩
    · exact follows_pure ⟨rfl, .closed x x'⟩
  · exact follows_pure ⟨rfl, .held ha hx⟩
  · exact follows_pure ⟨rfl, .closed x x'⟩

theorem Carries.peek_ahead (h : C.Carries S (S.found V) fetch fetch') :
    C.Mimics (S.ahead V) V (Machine.peek fetch) (Machine.peek fetch') where
  hasNext := h.fill_ahead
  next {b p p'} hp := by
    refine (h.fill_ahead hp).bind ?_
    rintro b' ⟨held, q⟩ ⟨_, q'⟩ hle ⟨rfl, hq⟩
    obtain hx | ⟨ha, hx⟩ | ⟨x, x'⟩ := hq
    · exact follows_pure ⟨.error _, .empty hx⟩
    · exact follows_pure ⟨.ok ha, .empty hx⟩
    · exact follows_pure ⟨.error _, .closed x x'⟩

end Comparison

/-- The state after a search from an empty slot, when what it found was taken at once. -/
def Peeked.taken (r : Option α × σ) : Option α × Peeked σ α :=
  (r.1, ⟨r.2, if r.1.isSome then .empty else .closed⟩)

/-- A guarded pull from an empty slot is one search. -/
theorem Machine.pull?_fresh (fetch : σ → Comp ω (Option α × σ)) (s : σ) :
    (Machine.peek fetch).pull? (.fresh s) = (do let r ← fetch s; pure (Peeked.taken r)) := by
  show (Machine.fill fetch ⟨s, .empty⟩ >>= _) = _
  simp only [Machine.fill, bind_assoc]
  refine bind_congr ?_
  rintro ⟨answer, s⟩
  cases answer <;> rfl

/-- What one search does and another, seen through `f`, the cursors that look ahead do. -/
theorem Machine.seenAs_peek {τ : Type} {f : τ → σ} {fetch' : τ → Comp ω (Option α × τ)}
    {fetch : σ → Comp ω (Option α × σ)}
    (h : ∀ t, (do let r ← fetch' t; pure (r.1, f r.2)) = fetch (f t)) :
    (peek fetch').SeenAs (fun p => ⟨f p.source, p.slot⟩) id (peek fetch) := by
  have hfill : ∀ p : Peeked τ α,
      (do let r ← fill fetch' p; pure (r.1, (⟨f r.2.source, r.2.slot⟩ : Peeked σ α))) =
        fill fetch ⟨f p.source, p.slot⟩ := by
    rintro ⟨t, slot⟩
    cases slot with
    | held a => rfl
    | closed => rfl
    | empty =>
      simp only [fill, ← h, bind_assoc]
      refine bind_congr ?_
      rintro ⟨answer, t⟩
      cases answer <;> rfl
  refine ⟨hfill, fun p => ?_⟩
  show _ = (fill fetch ⟨f p.source, p.slot⟩ >>= _)
  rw [← hfill]
  simp only [peek, bind_assoc]
  refine bind_congr ?_
  rintro ⟨held, t, slot⟩
  cases slot <;> rfl

/-! ## One sieve over another -/

/-- What the first keeps is judged by the second. -/
def Sieve.andThen (c : Sieve ω α μ) (d : Sieve ω α ν) : Sieve ω α (μ × ν) where
  fresh := (c.fresh, d.fresh)
  through k := c.through k.1 || d.through k.2
  judge a k := do
    match ← c.judge a k.1 with
    | (.kept, first) =>
      let (fate, second) ← d.judge a k.2
      return (fate, (first, second))
    | (fate, first) => return (fate, (first, k.2))

section AndThen

variable {c : Sieve ω α μ} {d : Sieve ω α ν} {k : μ} {l : ν} {a : α}

theorem Sieve.andThen_through :
    (c.andThen d).through (k, l) = (c.through k || d.through l) := rfl

theorem Sieve.andThen_judge : (c.andThen d).judge a (k, l) = c.judge a k >>= fun
    | (.kept, k) => d.judge a l >>= fun r => pure (r.1, (k, r.2))
    | (fate, k) => pure (fate, (k, l)) := by
  refine bind_congr ?_
  rintro ⟨fate, k⟩
  cases fate <;> rfl

end AndThen

/-- What is remembered twice, remembered together. -/
def Sifted.join (x : Sifted σ μ) (l : ν) : Sifted σ (μ × ν) :=
  ⟨x.source, (x.memory, l)⟩

namespace Machine

section Round

variable {m : Machine ω σ α} {c : Sieve ω α μ} {d : Sieve ω α ν} {ρ ρ' : Type}

/-- A round of two searches one over the other, of which the outer is not through and remembers `l`.
How the state is put together is up to `place`; the inner search goes on by `inner`, and after an
element that only the second sieve skips a new one begins by `outer`. -/
def siftRound (m : Machine ω σ α) (c : Sieve ω α μ) (d : Sieve ω α ν)
    (place : Slot α → Sifted σ μ → ν → ρ)
    (inner : Sifted σ μ → Comp ω (Option α × ρ))
    (outer : Sifted σ μ → ν → Comp ω (Option α × ρ)) (l : ν)
    (x : Sifted σ μ) : Comp ω (Option α × ρ) := do
  if c.through x.memory then
    return (none, place .closed x l)
  else
    match ← m.pull? x.source with
    | (none, s) => return (none, place .closed ⟨s, x.memory⟩ l)
    | (some a, s) =>
      match ← c.judge a x.memory with
      | (.skipped, k) => inner ⟨s, k⟩
      | (.ends, k) => return (none, place .closed ⟨s, k⟩ l)
      | (.kept, k) =>
        match ← d.judge a l with
        | (.kept, l) => return (some a, place .empty ⟨s, k⟩ l)
        | (.skipped, l) => outer ⟨s, k⟩ l
        | (.ends, l) => return (none, place .empty ⟨s, k⟩ l)

/-- The second judgement on what a search below has found. -/
def judgeFound (d : Sieve ω α ν)
    (outer : σ → ν → Comp ω (Option α × Sifted (Peeked σ α) ν)) (l : ν) :
    Option α × σ → Comp ω (Option α × Sifted (Peeked σ α) ν)
  | (none, x) => return (none, ⟨⟨x, .closed⟩, l⟩)
  | (some a, x) => do
    match ← d.judge a l with
    | (.kept, l) => return (some a, ⟨.fresh x, l⟩)
    | (.skipped, l) => outer x l
    | (.ends, l) => return (none, ⟨.fresh x, l⟩)

/-- A search in the one sieve that the two are. -/
theorem sift_andThen_succ (n : Nat) (x : Sifted σ μ) (l : ν) :
    m.sift (c.andThen d) (n + 1) (x.join l) =
      if d.through l then
        return (none, x.join l)
      else
        siftRound m c d (fun _ x l => x.join l) (fun x => m.sift (c.andThen d) n (x.join l))
          (fun x l => m.sift (c.andThen d) n (x.join l)) l x := by
  simp only [Sifted.join]
  rw [sift, siftRound, Sieve.andThen_through]
  cases d.through l with
  | true => simp only [Bool.or_true, if_true]
  | false =>
    simp only [Bool.or_false, Bool.false_eq_true, if_false]
    cases c.through x.memory with
    | true => rfl
    | false =>
      refine bind_congr ?_
      rintro ⟨answer, s⟩
      cases answer with
      | none => rfl
      | some a =>
        simp only [Sieve.andThen_judge, bind_assoc]
        refine bind_congr ?_
        rintro ⟨fate, k⟩
        cases fate with
        | skipped => rfl
        | ends => rfl
        | kept =>
          simp only [bind_assoc, pure_bind]
          refine bind_congr ?_
          rintro ⟨fate, l⟩
          cases fate <;> rfl

/-- The outer of two searches begins one below, unless it is through. -/
theorem sift_peek_succ {fetch : σ → Comp ω (Option α × σ)} (n : Nat) (x : σ) (l : ν) :
    (peek fetch).sift d (n + 1) ⟨.fresh x, l⟩ =
      if d.through l then
        return (none, ⟨.fresh x, l⟩)
      else
        fetch x >>= judgeFound d (fun x l => (peek fetch).sift d n ⟨.fresh x, l⟩) l := by
  rw [sift]
  cases d.through l with
  | true => rfl
  | false =>
    simp only [Bool.false_eq_true, if_false, pull?_fresh, bind_assoc]
    refine bind_congr ?_
    rintro ⟨answer, x⟩
    cases answer <;> rfl

/-- The search below goes on, and what it finds is judged. -/
theorem sift_judgeFound_succ
    (outer : Sifted σ μ → ν →
      Comp ω (Option α × Sifted (Peeked (Sifted σ μ) α) ν))
    (n : Nat) (l : ν) (x : Sifted σ μ) :
    m.sift c (n + 1) x >>= judgeFound d outer l =
      siftRound m c d (fun slot x l => ⟨⟨x, slot⟩, l⟩)
        (fun x => m.sift c n x >>= judgeFound d outer l) outer l x := by
  simp only [sift, siftRound]
  cases c.through x.memory with
  | true => rfl
  | false =>
    simp only [Bool.false_eq_true, if_false, bind_assoc]
    refine bind_congr ?_
    rintro ⟨answer, s⟩
    cases answer with
    | none => rfl
    | some a =>
      simp only [bind_assoc]
      refine bind_congr ?_
      rintro ⟨fate, k⟩
      cases fate <;> rfl

/-- Rounds that go on alike. -/
theorem follows_siftRound {b : (same ω).Bond} {T : ρ → ρ' → Prop}
    {place : Slot α → Sifted σ μ → ν → ρ}
    {place' : Slot α → Sifted σ μ → ν → ρ'}
    {inner : Sifted σ μ → Comp ω (Option α × ρ)}
    {inner' : Sifted σ μ → Comp ω (Option α × ρ')}
    {outer : Sifted σ μ → ν → Comp ω (Option α × ρ)}
    {outer' : Sifted σ μ → ν → Comp ω (Option α × ρ')}
    (hplace : ∀ x l, T (place .empty x l) (place' .empty x l)) {l : ν}
    (hinner : ∀ x, (same ω).Follows b (inner x) (inner' x) ((Rel.of T).found Rel.eq))
    (houter : ∀ x l, (same ω).Follows b (outer x l) (outer' x l) ((Rel.of T).found Rel.eq))
    (x : Sifted σ μ) :
    (same ω).Follows b (siftRound m c d place inner outer l x)
      (siftRound m c d place' inner' outer' l x) ((Rel.of T).found Rel.eq) := by
  refine follows_ite (follows_pure (.none _ _)) ?_
  refine (follows_same (m.pull? x.source)).bind ?_
  rintro _ ⟨answer, s⟩ _ - rfl
  cases answer with
  | none => exact follows_pure (.none _ _)
  | some a =>
    refine (follows_same (c.judge a x.memory)).bind ?_
    rintro _ ⟨fate, k⟩ _ - rfl
    cases fate with
    | skipped => exact hinner _
    | ends => exact follows_pure (.none _ _)
    | kept =>
      refine (follows_same (d.judge a l)).bind ?_
      rintro _ ⟨fate, l⟩ _ - rfl
      cases fate with
      | kept => exact follows_pure (.some rfl (hplace _ _))
      | skipped => exact houter _ _
      | ends => exact follows_pure (.none _ _)

/-- The outer search from a state in which nothing is held below, and the one search. -/
inductive Level : Sifted (Peeked (Sifted σ μ) α) ν → Sifted σ (μ × ν) → Prop where
  | mk (x : Sifted σ μ) (l : ν) : Level ⟨.fresh x, l⟩ (x.join l)

variable {b : (same ω).Bond} {outer : Sifted σ μ → ν →
  Comp ω (Option α × Sifted (Peeked (Sifted σ μ) α) ν)} {l : ν} {j : Nat}

/-- A search below is followed as far as its rounds go, and what it finds from there. -/
theorem follows_judgeFound
    (houter : ∀ n x l, j ≤ n → (same ω).Follows b (outer x l) (m.sift (c.andThen d) n (x.join l))
      ((Rel.of Level).found Rel.eq))
    (hl : d.through l = false) (k n : Nat) (hn : j + k ≤ n) (x : Sifted σ μ) :
    (same ω).Follows b (m.sift c k x >>= judgeFound d outer l)
      (m.sift (c.andThen d) n (x.join l)) ((Rel.of Level).found Rel.eq) := by
  induction k generalizing n x with
  | zero =>
    show (same ω).Follows b (throw Halt.outOfFuel) _ _
    exact follows_throw
  | succ k ih =>
    obtain ⟨n, rfl⟩ := Nat.exists_eq_add_one.mpr (show 0 < n by omega)
    rw [sift_judgeFound_succ, sift_andThen_succ, hl, if_neg Bool.false_ne_true]
    refine follows_siftRound (fun x l => ?_) (fun x => ih n (by omega) x)
      (fun x l => houter n x l (by omega)) x
    exact .mk x l

/-- Two searches one over the other are followed by one, that has enough rounds for both. -/
theorem follows_sift_sift (k j n : Nat) (hn : j * (k + 1) ≤ n) (x : Sifted σ μ) (l : ν) :
    (same ω).Follows b ((peek (m.sift c k)).sift d j ⟨.fresh x, l⟩)
      (m.sift (c.andThen d) n (x.join l)) ((Rel.of Level).found Rel.eq) := by
  induction j generalizing n x l with
  | zero => exact follows_throw
  | succ j ih =>
    rw [Nat.succ_mul] at hn
    rw [sift_peek_succ]
    cases hl : d.through l with
    | true =>
      obtain ⟨n, rfl⟩ := Nat.exists_eq_add_one.mpr (show 0 < n by omega)
      rw [sift_andThen_succ, hl]
      exact follows_pure (.none _ _)
    | false => exact follows_judgeFound (fun n x l hn => ih n hn x l) hl k n (by omega) x

/-- An outer search begins by looking whether it is through, and so the one search does. -/
theorem follows_outer {fetch : Sifted σ μ → Comp ω (Option α × Sifted σ μ)} {n : Nat}
    {x : Sifted σ μ}
    (h : d.through l = false → (same ω).Follows b (m.sift (c.andThen d) (n + 1) (x.join l))
      (fetch x >>= judgeFound d (fun x l => (peek fetch).sift d j ⟨.fresh x, l⟩) l)
      ((Rel.of (flip Level)).found Rel.eq)) :
    (same ω).Follows b (m.sift (c.andThen d) (n + 1) (x.join l))
      ((peek fetch).sift d (j + 1) ⟨.fresh x, l⟩) ((Rel.of (flip Level)).found Rel.eq) := by
  rw [sift_peek_succ]
  cases hl : d.through l with
  | true =>
    rw [sift_andThen_succ, hl]
    exact follows_pure (.none _ _)
  | false => exact h hl

/-- The one search is followed, though what it finds may take the outer one several rounds. An
element was pulled in each of them, so they are no more than those of the one. -/
theorem follows_sift_andThen {K : Nat} (n : Nat) (hK : n ≤ K) (j k : Nat) (hj : n ≤ j + 1)
    (hk : n ≤ k) (hl : d.through l = false) (x : Sifted σ μ) :
    (same ω).Follows b (m.sift (c.andThen d) n (x.join l))
      (m.sift c k x >>= judgeFound d (fun x l => (peek (m.sift c K)).sift d j ⟨.fresh x, l⟩) l)
      ((Rel.of (flip Level)).found Rel.eq) := by
  induction n generalizing j k l x with
  | zero => exact follows_throw
  | succ n ih =>
    obtain ⟨k, rfl⟩ := Nat.exists_eq_add_one.mpr (show 0 < k by omega)
    rw [sift_judgeFound_succ, sift_andThen_succ, hl, if_neg Bool.false_ne_true]
    refine follows_siftRound (fun x l => ?_)
      (fun x => ih (by omega) j k (by omega) (by omega) hl x) (fun x l => ?_) x
    · exact Level.mk x l
    · -- a new search of the outer one, with a round less
      cases n with
      | zero => exact follows_throw
      | succ n =>
        obtain ⟨j, rfl⟩ := Nat.exists_eq_add_one.mpr (show 0 < j by omega)
        exact follows_outer fun hl => ih (by omega) j K (by omega) (by omega) hl x

end Round

end Machine

namespace Sieve

/-- A walk over what is left of another by the sieve. -/
def upon (sv : Sieve ω α μ) (fuel : Nat) (w : Walk ω α) : Walk ω α :=
  ⟨Peeked (Sifted w.State μ) α, .peek (w.machine.sift sv fuel), .fresh ⟨w.state, sv.fresh⟩⟩

theorem upon_upon_repeatedBy (c : Sieve ω α μ) (d : Sieve ω α ν) (j k : Nat) (w : Walk ω α) :
    (d.upon j (c.upon k w)).RepeatedBy ((c.andThen d).upon (j * (k + 1)) w) := by
  refine ⟨(Rel.of Machine.Level).ahead Rel.eq, .empty (.mk _ _), Carries.peek_ahead ?_⟩
  rintro b _ _ ⟨x, l⟩
  exact Machine.follows_sift_sift k j _ (Nat.le_refl _) x l

theorem andThen_upon_repeatedBy (c : Sieve ω α μ) (d : Sieve ω α ν) (n : Nat) (w : Walk ω α) :
    ((c.andThen d).upon n w).RepeatedBy (d.upon n (c.upon n w)) := by
  refine ⟨(Rel.of (flip Machine.Level)).ahead Rel.eq, .empty (Machine.Level.mk _ _),
    Carries.peek_ahead ?_⟩
  rintro b _ _ ⟨x, l⟩
  cases n with
  | zero => exact follows_throw
  | succ n =>
    exact Machine.follows_outer fun hl =>
      Machine.follows_sift_andThen (n + 1) (Nat.le_refl _) n (n + 1) (Nat.le_refl _)
        (Nat.le_refl _) hl x

/-! ## Sieves that come to the same -/

/-- What `c` remembers, seen through `g`, `d` does as `c` does. -/
structure Within (g : μ → ν) (c : Sieve ω α μ) (d : Sieve ω α ν) : Prop where
  fresh : g c.fresh = d.fresh
  through (k : μ) : d.through (g k) = c.through k
  judge (a : α) (k : μ) : (do let r ← c.judge a k; pure (r.1, g r.2)) = d.judge a (g k)

variable {g : μ → ν} {c : Sieve ω α μ} {d : Sieve ω α ν}

theorem Within.sift (h : c.Within g d) (m : Machine ω σ α) (n : Nat) (x : Sifted σ μ) :
    (do let r ← m.sift c n x; pure (r.1, r.2.mapMemory g)) = m.sift d n (x.mapMemory g) := by
  induction n generalizing x with
  | zero => rfl
  | succ n ih =>
    simp only [Sifted.mapMemory] at ih ⊢
    rw [Machine.sift, Machine.sift, h.through]
    cases c.through x.memory with
    | true => rfl
    | false =>
      simp only [Bool.false_eq_true, if_false, bind_assoc]
      refine bind_congr ?_
      rintro ⟨answer, s⟩
      cases answer with
      | none => rfl
      | some a =>
        simp only [← h.judge, bind_assoc, pure_bind]
        refine bind_congr ?_
        rintro ⟨fate, k⟩
        cases fate with
        | kept => rfl
        | skipped => exact ih ⟨s, k⟩
        | ends => rfl

theorem Within.upon_agrees (h : c.Within g d) (n : Nat) (w : Walk ω α) :
    (c.upon n w).Agrees (d.upon n w) := by
  refine Walk.agrees_of_seenAs (Machine.seenAs_peek (h.sift w.machine n)) ?_
  rw [← h.fresh]
  rfl

/-! ## The stages -/

/-- What passes the test is kept, and what fails it has the fate `failed`. -/
def byTest (failed : Fate) (test : α → Comp ω Bool) : Sieve ω α Unit where
  fresh := ()
  through _ := false
  judge a _ := do
    if ← test a then return (.kept, ()) else return (failed, ())

/-- The number of elements taken is what is remembered. -/
def slice (win : Window) : Sieve ω α Nat where
  fresh := 0
  through := win.endsBy
  judge _ i := return (if win.selects i then .kept else .skipped, i + 1)

variable {test : α → Comp ω Bool} {m : Machine ω σ α}

theorem sift_byTest_skipped (n : Nat) (x : Sifted σ Unit) :
    (do let r ← m.sift (byTest .skipped test) n x; pure (r.1, r.2.source)) = m.seek test n x.source := by
  induction n generalizing x with
  | zero => rfl
  | succ n ih =>
    show (m.pull? x.source >>= _) >>= _ = m.pull? x.source >>= _
    rw [bind_assoc]
    refine bind_congr ?_
    rintro ⟨answer, s⟩
    cases answer with
    | none => rfl
    | some a =>
      show ((test a >>= _) >>= _) >>= _ = test a >>= _
      rw [bind_assoc, bind_assoc]
      refine bind_congr fun passed => ?_
      cases passed with
      | true => rfl
      | false => exact ih ⟨s, ()⟩

theorem sift_byTest_ends (n : Nat) (x : Sifted σ Unit) :
    (do let r ← m.sift (byTest .ends test) (n + 1) x; pure (r.1, r.2.source)) =
      m.pullIf test x.source := by
  show (m.pull? x.source >>= _) >>= _ = m.pull? x.source >>= _
  rw [bind_assoc]
  refine bind_congr ?_
  rintro ⟨answer, s⟩
  cases answer with
  | none => rfl
  | some a =>
    show ((test a >>= _) >>= _) >>= _ = test a >>= _
    rw [bind_assoc, bind_assoc]
    refine bind_congr fun passed => ?_
    cases passed <;> rfl

theorem sift_slice (win : Window) (n : Nat) (x : Sifted σ Nat) :
    (do let r ← m.sift (slice win) n x; pure (r.1, r.2.counted)) =
      m.seekWindow win n x.counted := by
  induction n generalizing x with
  | zero => rfl
  | succ n ih =>
    simp only [Sifted.counted] at ih ⊢
    rw [Machine.sift, Machine.seekWindow, show (slice win).through = win.endsBy from rfl]
    cases win.endsBy x.memory with
    | true => rfl
    | false =>
      simp only [Bool.false_eq_true, if_false, bind_assoc]
      refine bind_congr ?_
      rintro ⟨answer, s⟩
      cases answer with
      | none => rfl
      | some a =>
        simp only [slice, pure_bind]
        cases win.selects x.memory with
        | true => rfl
        | false => exact ih ⟨s, x.memory + 1⟩

end Sieve

end LazySeq
