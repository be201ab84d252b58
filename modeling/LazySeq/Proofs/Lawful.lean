import LazySeq.Proofs.Schedule

/-!
# Lawful cursors

`Machine.Lawful` says that the cursors of a machine behave as cursors over lists. It is stated
through an account `Left xs w s`: in the world `w`, the cursor `s` has the elements `xs` left. The
account may look at the world, so it can speak of state that a cursor shares with others.

`Machine.Supplies` is the form that the stages are proved in. It differs in two ways.

* The list may be known only up to a point: unless `ends` holds, nothing is promised once the list
  is used up. A cursor over an endless sequence supplies each of its finite beginnings.
* What is handed out need not be the listed element itself. It stands for it by `Rep`, which may
  look at the world; `Exactly` is the case where it is the element.
-/

namespace LazySeq

namespace Machine

variable {ω σ α β : Type}

/-! ## The law -/

/-- Cursors account for what they have left: `hasNext` says whether it is anything and leaves it
alone, `next` hands out its first element, and after the last there is nothing for ever. -/
structure Lawful (m : Machine ω σ α) (Left : List α → ω → σ → Prop) : Prop where
  hasNext {xs : List α} {w : ω} {s : σ} : Left xs w s →
    (m.hasNext s).Returns w fun r w' => r.1 = !xs.isEmpty ∧ Left xs w' r.2
  next_cons {a : α} {xs : List α} {w : ω} {s : σ} : Left (a :: xs) w s →
    (m.next s).Returns w fun r w' => r.1 = .ok a ∧ Left xs w' r.2
  next_nil {w : ω} {s : σ} : Left [] w s →
    (m.next s).Returns w fun r w' => r.1 = .error .exhausted ∧ Left [] w' r.2

/-- What is handed out is the listed element. -/
abbrev Exactly {ω α : Type} : ω → α → α → Prop := fun _ b a => b = a

/-- Cursors supply what they have left. Where the list is used up they keep to the law only if
`ends` holds. -/
structure Supplies (ends : Prop) (Rep : ω → β → α → Prop) (m : Machine ω σ β)
    (Left : List α → ω → σ → Prop) : Prop where
  hasNext {xs : List α} {w : ω} {s : σ} : (xs = [] → ends) → Left xs w s →
    (m.hasNext s).Returns w fun r w' => r.1 = !xs.isEmpty ∧ Left xs w' r.2
  next_cons {a : α} {xs : List α} {w : ω} {s : σ} : Left (a :: xs) w s →
    (m.next s).Returns w fun r w' => (∃ b, r.1 = .ok b ∧ Rep w' b a) ∧ Left xs w' r.2
  next_nil {w : ω} {s : σ} : ends → Left [] w s →
    (m.next s).Returns w fun r w' => r.1 = .error .exhausted ∧ Left [] w' r.2

variable {m : Machine ω σ α} {Left : List α → ω → σ → Prop}

theorem Lawful.supplies (h : m.Lawful Left) : m.Supplies True Exactly Left where
  hasNext _ hs := h.hasNext hs
  next_cons hs := (h.next_cons hs).mono fun _ _ hr => ⟨⟨_, hr.1, rfl⟩, hr.2⟩
  next_nil _ hs := h.next_nil hs

theorem Supplies.lawful {ends : Prop} (h : m.Supplies ends Exactly Left) (he : ends) :
    m.Lawful Left where
  hasNext hs := h.hasNext (fun _ => he) hs
  next_cons hs := by
    refine (h.next_cons hs).mono ?_
    rintro r w' ⟨⟨b, hb, rfl⟩, hl⟩
    exact ⟨hb, hl⟩
  next_nil hs := h.next_nil he hs

/-! ## Schedules -/

/-- One call of a cursor that supplies `xs` is answered as by the cursor over `xs`, unless it is
the first to go past what is known. -/
theorem Supplies.call {ends : Prop} (h : m.Supplies ends Exactly Left) (ask : Ask) {xs : List α}
    {w : ω} {s : σ} (hx : xs = [] → ends) (hs : Left xs w s) :
    (m.call ask s).Returns w fun r w' =>
      r.1 = (ListCursor.call ask xs).1 ∧ Left (ListCursor.call ask xs).2 w' r.2 := by
  cases ask with
  | hasNext =>
    refine (h.hasNext hx hs).bind ?_
    rintro ⟨left, s⟩ w ⟨rfl, hs⟩
    simpa [ListCursor.call] using hs
  | next =>
    cases xs with
    | nil =>
      refine (h.next_nil (hx rfl) hs).bind ?_
      rintro ⟨answer, s⟩ w ⟨rfl, hs⟩
      simpa [ListCursor.call] using hs
    | cons x xs =>
      refine (h.next_cons hs).bind ?_
      rintro ⟨answer, s⟩ w ⟨⟨_, rfl, rfl⟩, hl⟩
      simpa [ListCursor.call] using hl

/-- The same for a schedule. It is known to the end if the list ends or if every call finds
something left; the schedules that stop with the last known element are of the second kind. -/
theorem Supplies.run {ends : Prop} (h : m.Supplies ends Exactly Left) {asks : List Ask}
    {xs : List α} {w : ω} {s : σ}
    (hx : ∀ done ask rest, asks = done ++ ask :: rest → ListCursor.after done xs = [] → ends)
    (hs : Left xs w s) :
    (m.run asks s).Returns w fun r w' =>
      r.1 = ListCursor.run asks xs ∧ Left (ListCursor.after asks xs) w' r.2 := by
  induction asks generalizing xs w s with
  | nil => simpa [Machine.run, ListCursor.run, ListCursor.after] using hs
  | cons ask asks ih =>
    refine (h.call ask (hx [] ask asks rfl) hs).bind ?_
    rintro ⟨reply, s⟩ w ⟨rfl, hs⟩
    refine (ih (fun done ask' rest hr ha => ?_) hs).bind ?_
    · exact hx (ask :: done) ask' rest (by simp [hr]) (by simpa [ListCursor.after] using ha)
    · rintro ⟨replies, s⟩ w ⟨rfl, hs⟩
      simpa [ListCursor.run, ListCursor.after] using hs

/-! ## Guarded pulls -/

variable {ends : Prop} {Rep : ω → β → α → Prop} {k : Machine ω σ β}

theorem Supplies.pull?_cons (h : k.Supplies ends Rep Left) {a : α} {xs : List α} {w : ω} {s : σ}
    (hs : Left (a :: xs) w s) :
    (k.pull? s).Returns w fun r w' => (∃ b, r.1 = some b ∧ Rep w' b a) ∧ Left xs w' r.2 := by
  refine (h.hasNext (by simp) hs).bind ?_
  rintro ⟨more, s⟩ w ⟨rfl, hs⟩
  refine (h.next_cons hs).bind ?_
  rintro ⟨answer, s⟩ w ⟨⟨b, rfl, hb⟩, hs⟩
  exact Comp.returns_pure.mpr ⟨⟨b, rfl, hb⟩, hs⟩

theorem Supplies.pull?_nil (h : k.Supplies ends Rep Left) (he : ends) {w : ω} {s : σ}
    (hs : Left [] w s) : (k.pull? s).Returns w fun r w' => r.1 = none ∧ Left [] w' r.2 := by
  refine (h.hasNext (fun _ => he) hs).bind ?_
  rintro ⟨more, s⟩ w ⟨rfl, hs⟩
  exact Comp.returns_pure.mpr ⟨rfl, hs⟩

/-- Pulling at most `n` elements brings the first `n`. If they are there, whatever comes after
them is not asked for. -/
theorem Supplies.collect (h : m.Supplies ends Exactly Left) {n : Nat} {xs : List α} {w : ω} {s : σ}
    (hn : xs.length < n → ends) (hs : Left xs w s) :
    (m.collect n s).Returns w fun r w' => r.1 = xs.take n ∧ Left (xs.drop n) w' r.2 := by
  suffices hgather : ∀ taken, (m.gather (pure ()) n taken s).Returns w fun r w' =>
      r.1 = taken.reverse ++ xs.take n ∧ Left (xs.drop n) w' r.2 by
    simpa [Machine.collect] using hgather []
  induction n generalizing xs w s with
  | zero => simpa [Machine.gather] using hs
  | succ n ih =>
    intro taken
    cases xs with
    | nil =>
      refine (h.pull?_nil (hn (by simp)) hs).bind ?_
      rintro ⟨answer, s⟩ w ⟨rfl, hs⟩
      simpa using hs
    | cons x xs =>
      refine (h.pull?_cons hs).bind ?_
      rintro ⟨answer, s⟩ w ⟨⟨b, rfl, rfl⟩, hl⟩
      refine (ih (fun hlt => hn (Nat.succ_lt_succ hlt)) hl (b :: taken)).mono ?_
      rintro ⟨ys, s⟩ w ⟨rfl, hl⟩
      simpa using hl

/-! ## Stages over one cursor -/

variable {ρ γ : Type}

/-- The account of a stage that holds one cursor `src r` below it: what the stage has left follows,
by `P`, from what that cursor has left. -/
def Over (src : ρ → σ) (P : ω → List α → List γ → ρ → Prop) (Left : List α → ω → σ → Prop)
    (ys : List γ) (w : ω) (r : ρ) : Prop :=
  ∃ xs, Left xs w (src r) ∧ P w xs ys r

/-- Whatever was left in `w` is left in `w'`. -/
def Leaves (Left : List α → ω → σ → Prop) (w w' : ω) : Prop :=
  ∀ xs s, Left xs w s → Left xs w' s

end Machine

end LazySeq
