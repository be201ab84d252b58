import LazySeq.Proofs.Lawful
import LazySeq.Sequence.Basic
import LazySeq.Stage.Peek

/-!
# Looking ahead is lawful

A way to fetch has an account of its own (`Machine.Fetches`): while it stands open it has a list to
bring, one element a time, and when that is used up it brings nothing and is shut. `Machine.peek`
fetches each element once and never after it was shut, so over such a fetch it is lawful
(`Machine.Fetches.peek`): the element in the slot comes before those still to be fetched.
-/

namespace LazySeq

namespace Machine

variable {ω σ α β : Type}

/-- `fetch` brings the listed elements in order and then, if `ends` holds, nothing. `Shut` is what
is known of a source from which nothing was brought. -/
structure Fetches (ends : Prop) (Rep : ω → β → α → Prop) (fetch : σ → Comp ω (Option β × σ))
    (Open : List α → ω → σ → Prop) (Shut : ω → σ → Prop) : Prop where
  cons {a : α} {xs : List α} {w : ω} {s : σ} : Open (a :: xs) w s →
    (fetch s).Returns w fun r w' => (∃ b, r.1 = some b ∧ Rep w' b a) ∧ Open xs w' r.2
  nil {w : ω} {s : σ} : ends → Open [] w s →
    (fetch s).Returns w fun r w' => r.1 = none ∧ Shut w' r.2

/-- What a cursor that looks ahead has left. -/
def PeekLeft (Rep : ω → β → α → Prop) (Open : List α → ω → σ → Prop) (Shut : ω → σ → Prop)
    (xs : List α) (w : ω) (p : Peeked σ β) : Prop :=
  match p.slot with
  | .empty => Open xs w p.source
  | .held b => ∃ a rest, xs = a :: rest ∧ Rep w b a ∧ Open rest w p.source
  | .closed => xs = [] ∧ Shut w p.source

variable {ends : Prop} {Rep : ω → β → α → Prop} {fetch : σ → Comp ω (Option β × σ)}
variable {Open : List α → ω → σ → Prop} {Shut : ω → σ → Prop} {w : ω} {p : Peeked σ β}

/-- With something left, the slot holds its first element afterwards. -/
theorem Fetches.fill_cons (h : Fetches ends Rep fetch Open Shut) {a : α} {xs : List α}
    (hp : PeekLeft Rep Open Shut (a :: xs) w p) :
    (fill fetch p).Returns w fun r w' => r.1 = true ∧
      ∃ b, r.2.slot = .held b ∧ Rep w' b a ∧ Open xs w' r.2.source := by
  obtain ⟨s, slot⟩ := p
  cases slot with
  | empty =>
    refine (h.cons hp).bind ?_
    rintro ⟨answer, s⟩ w ⟨⟨b, rfl, hb⟩, hs⟩
    exact Comp.returns_pure.mpr ⟨rfl, b, rfl, hb, hs⟩
  | held b =>
    obtain ⟨_, _, hxs, hb, hs⟩ := hp
    obtain ⟨rfl, rfl⟩ := List.cons.inj hxs
    exact Comp.returns_pure.mpr ⟨rfl, b, rfl, hb, hs⟩
  | closed => exact absurd hp.1 (List.cons_ne_nil a xs)

/-- With nothing left, the slot is closed afterwards. -/
theorem Fetches.fill_nil (h : Fetches ends Rep fetch Open Shut) (he : ends)
    (hp : PeekLeft Rep Open Shut [] w p) :
    (fill fetch p).Returns w fun r w' => r.1 = false ∧ r.2.slot = .closed ∧
      Shut w' r.2.source := by
  obtain ⟨s, slot⟩ := p
  cases slot with
  | empty =>
    refine (h.nil he hp).bind ?_
    rintro ⟨answer, s⟩ w ⟨rfl, hs⟩
    exact Comp.returns_pure.mpr ⟨rfl, rfl, hs⟩
  | held b =>
    obtain ⟨a, rest, hxs, -⟩ := hp
    cases hxs
  | closed => exact Comp.returns_pure.mpr ⟨rfl, rfl, hp.2⟩

theorem Fetches.peek (h : Fetches ends Rep fetch Open Shut) :
    (Machine.peek fetch).Supplies ends Rep (PeekLeft Rep Open Shut) where
  hasNext {xs w p} hends hp := by
    cases xs with
    | nil =>
      refine (h.fill_nil (hends rfl) hp).mono ?_
      rintro ⟨more, s, slot⟩ w ⟨rfl, rfl, hs⟩
      exact ⟨rfl, rfl, hs⟩
    | cons a xs =>
      refine (h.fill_cons hp).mono ?_
      rintro ⟨more, s, slot⟩ w ⟨rfl, b, rfl, hb, hs⟩
      exact ⟨rfl, a, xs, rfl, hb, hs⟩
  next_cons hp := by
    refine (h.fill_cons hp).bind ?_
    rintro ⟨more, s, slot⟩ w ⟨-, b, rfl, hb, hs⟩
    exact Comp.returns_pure.mpr ⟨⟨b, rfl, hb⟩, hs⟩
  next_nil he hp := by
    refine (h.fill_nil he hp).bind ?_
    rintro ⟨more, s, slot⟩ w ⟨-, rfl, hs⟩
    exact Comp.returns_pure.mpr ⟨rfl, rfl, hs⟩

/-! ## Looking ahead over a cursor -/

section Reads

variable {γ τ : Type} {src : σ → τ} {Left : List γ → ω → τ → Prop}
variable {Stands : List γ → List α → σ → Prop} {Ended : List γ → σ → Prop}

/-- The same by what the cursor below has left: `Stands xs ys` where it has `xs` left and `ys` are
still to be fetched, `Ended xs` where it has `xs` left and nothing is. -/
def PeekReads (Rep : ω → β → α → Prop) (Stands : List γ → List α → σ → Prop)
    (Ended : List γ → σ → Prop) (w : ω) (xs : List γ) (ys : List α) (p : Peeked σ β) : Prop :=
  match p.slot with
  | .empty => Stands xs ys p.source
  | .held b => ∃ a rest, ys = a :: rest ∧ Rep w b a ∧ Stands xs rest p.source
  | .closed => ys = [] ∧ Ended xs p.source

theorem PeekReads.mono {w w' : ω} {xs : List γ} {ys : List α} {p : Peeked σ β}
    (hrep : ∀ b a, Rep w b a → Rep w' b a) (h : PeekReads Rep Stands Ended w xs ys p) :
    PeekReads Rep Stands Ended w' xs ys p := by
  obtain ⟨s, slot⟩ := p
  cases slot with
  | empty => exact h
  | held b =>
    obtain ⟨a, rest, hys, hb, hs⟩ := h
    exact ⟨a, rest, hys, hrep b a hb, hs⟩
  | closed => exact h

theorem peekLeft_over :
    PeekLeft Rep (Over src (fun _ => Stands) Left)
        (fun w s => ∃ xs, Left xs w (src s) ∧ Ended xs s) =
      Over (fun p : Peeked σ β => src p.source) (PeekReads Rep Stands Ended) Left := by
  funext ys w p
  obtain ⟨s, slot⟩ := p
  -- the two say the same in each state of the slot, with what the cursor below has left moved out
  refine propext ?_
  cases slot with
  | empty => exact Iff.rfl
  | held b =>
    constructor
    · intro ⟨a, rest, hys, hb, xs, hxs, hs⟩
      exact ⟨xs, hxs, a, rest, hys, hb, hs⟩
    · intro ⟨xs, hxs, a, rest, hys, hb, hs⟩
      exact ⟨a, rest, hys, hb, xs, hxs, hs⟩
  | closed =>
    constructor
    · intro ⟨hys, xs, hxs, hs⟩
      exact ⟨xs, hxs, hys, hs⟩
    · intro ⟨xs, hxs, hys, hs⟩
      exact ⟨hys, xs, hxs, hs⟩

variable (src) in
/-- A fetch that works on a cursor below makes a stage over that cursor. -/
theorem Fetches.peek_over
    (h : Fetches ends Rep fetch (Over src (fun _ => Stands) Left) fun w s =>
      ∃ xs, Left xs w (src s) ∧ Ended xs s) :
    (Machine.peek fetch).Supplies ends Rep
      (Over (fun p => src p.source) (PeekReads Rep Stands Ended) Left) := by
  rw [← peekLeft_over]
  exact h.peek

end Reads

/-! ## Looking ahead on a list -/

/-- What a cursor over a list has left: the element in its slot and the list. -/
abbrev HeadLeft {ω α : Type} : List α → ω → Peeked (List α) α → Prop :=
  PeekLeft Exactly (fun xs _ s => s = xs) fun _ _ => True

theorem fetches_pullHead : Fetches True Exactly (pullHead : List α → Comp ω _)
    (fun xs _ s => s = xs) fun _ _ => True where
  cons {a xs w s} hs := by
    subst hs
    exact Comp.returns_pure.mpr ⟨⟨a, rfl, rfl⟩, rfl⟩
  nil _ hs := by
    subst hs
    exact Comp.returns_pure.mpr ⟨rfl, trivial⟩

/-- The cursor over a list. -/
theorem lawful_peek_pullHead : (Machine.peek (pullHead : List α → Comp ω _)).Lawful HeadLeft :=
  fetches_pullHead.peek.lawful trivial

end Machine

end LazySeq
