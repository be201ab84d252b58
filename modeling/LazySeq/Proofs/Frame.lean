import LazySeq.Proofs.Lawful

/-!
# What a cursor owns of its world

Cursors that stand side by side act on one world, so an account of what one of them has left is of
use only if the calls of the others leave it true. A `Frame` divides the world into places. A region
`F`, some of the places, is owned by one cursor at a time: its calls leave all other places as they
are and may add new ones (`Frame.Step`), and its account depends on its own places alone.

`Frame.Supplies` is `Machine.Supplies` with that said. For a stage over a single cursor nothing has
to be proved about places: `Frame.Supplies.over` turns what is known of the stage in one world into
what is known of it beside others. `Frame.Step.beside` is for stages over several cursors.
-/

namespace LazySeq

/-- A division of a world into places. Places can be added while cursors run and stay from then
on. -/
structure Frame (ω : Type) where
  Place : Type
  /-- the place is there -/
  Has : ω → Place → Prop
  /-- two worlds have the same at a place -/
  Same : Place → ω → ω → Prop
  /-- what no call ever undoes -/
  Grows : ω → ω → Prop
  same_refl (p : Place) (w : ω) : Same p w w
  same_trans {p : Place} {w w' w'' : ω} : Same p w w' → Same p w' w'' → Same p w w''
  grows_refl (w : ω) : Grows w w
  grows_trans {w w' w'' : ω} : Grows w w' → Grows w' w'' → Grows w w''
  has_mono {p : Place} {w w' : ω} : Grows w w' → Has w p → Has w' p

namespace Frame

variable {ω σ ρ α β γ δ : Type} (fr : Frame ω)

/-! ## Regions -/

/-- Some of the places. -/
abbrev Region := fr.Place → Prop

variable {fr}

/-- No place at all. -/
def Region.none : fr.Region := fun _ => False

/-- The places of either region. -/
def Region.both (F G : fr.Region) : fr.Region := fun p => F p ∨ G p

/-- No place is in both regions. -/
def Region.Apart (F G : fr.Region) : Prop := ∀ p, F p → ¬ G p

theorem Region.apart_comm {F G : fr.Region} (h : F.Apart G) : G.Apart F :=
  fun p hg hf => h p hf hg

theorem Region.both_comm (F G : fr.Region) : F.both G = G.both F :=
  funext fun p => propext (Or.comm (a := F p))

variable (fr)

/-! ## Steps -/

/-- From `w` to `w'` by the owner of `F`, who owns `F'` afterwards. -/
structure Step (F : fr.Region) (w : ω) (F' : fr.Region) (w' : ω) : Prop where
  grows : fr.Grows w w'
  same (p : fr.Place) : fr.Has w p → ¬ F p → fr.Same p w w'
  /-- what comes to be owned was not there before -/
  owned (p : fr.Place) : F' p → F p ∨ ¬ fr.Has w p

/-- No place changes. -/
structure Quiet (w w' : ω) : Prop where
  grows : fr.Grows w w'
  same (p : fr.Place) : fr.Same p w w'

variable {fr}

theorem Quiet.refl (w : ω) : fr.Quiet w w :=
  ⟨fr.grows_refl w, fun p => fr.same_refl p w⟩

theorem Quiet.step {w w' : ω} (h : fr.Quiet w w') (F : fr.Region) : fr.Step F w F w' :=
  ⟨h.grows, fun p _ _ => h.same p, fun _ hp => .inl hp⟩

theorem Step.refl (F : fr.Region) (w : ω) : fr.Step F w F w :=
  (Quiet.refl w).step F

theorem Step.trans {F F' F'' : fr.Region} {w w' w'' : ω} (h : fr.Step F w F' w')
    (h' : fr.Step F' w' F'' w'') : fr.Step F w F'' w'' where
  grows := fr.grows_trans h.grows h'.grows
  same p hp hF := by
    -- the second owner cannot have come by a place that was there and not owned
    have hF' : ¬ F' p := fun hF' => (h.owned p hF').elim hF fun hnot => hnot hp
    exact fr.same_trans (h.same p hp hF) (h'.same p (fr.has_mono h.grows hp) hF')
  owned p hp := by
    rcases h'.owned p hp with hF' | hnot
    · exact h.owned p hF'
    · -- new to the second step, so new to both: places stay
      exact .inr fun hw => hnot (fr.has_mono h.grows hw)

/-- An owner may give places up. -/
theorem Step.shrink {F F' G : fr.Region} {w w' : ω} (h : fr.Step F w F' w') (hG : ∀ p, G p → F' p) :
    fr.Step F w G w' :=
  ⟨h.grows, h.same, fun p hp => h.owned p (hG p hp)⟩

/-- A step within a region is a step within any larger one. -/
theorem Step.widen {F F' G : fr.Region} {w w' : ω} (h : fr.Step F w F' w') (hG : ∀ p, F p → G p) :
    fr.Step G w F' w' :=
  ⟨h.grows, fun p hp hn => h.same p hp fun hF => hn (hG p hF), fun p hp =>
    (h.owned p hp).imp_left (hG p)⟩

/-- A step of one of two owners. The other still owns what it owned, and finds it as it was. -/
theorem Step.beside {F F' G : fr.Region} {w w' : ω} (h : fr.Step F w F' w') (hapart : F.Apart G)
    (hG : ∀ p, G p → fr.Has w p) :
    fr.Step (F.both G) w (F'.both G) w' ∧ F'.Apart G ∧ ∀ p, G p → fr.Same p w w' := by
  -- what the mover comes to own is its own or new, and the places of `G` are neither
  have hfresh : F'.Apart G := by
    intro p hp hg
    rcases h.owned p hp with hF | hnot
    · exact hapart p hF hg
    · exact hnot (hG p hg)
  refine ⟨⟨h.grows, ?_, ?_⟩, hfresh, ?_⟩
  · intro p hp hn
    exact h.same p hp fun hF => hn (.inl hF)
  · intro p hp
    rcases hp with hF' | hg
    · exact (h.owned p hF').imp_left .inl
    · exact .inl (.inr hg)
  · intro p hg
    exact h.same p (hG p hg) fun hF => hapart p hF hg

/-! ## Assertions -/

variable (fr)

/-- What may be known of a world by the owner of some of its places. -/
abbrev Assertion := fr.Region → ω → Prop

/-- The assertion is about places that are there, and about no others than those owned. -/
structure Keeps (A : fr.Assertion) : Prop where
  has {F : fr.Region} {w : ω} : A F w → ∀ p, F p → fr.Has w p
  stable {F : fr.Region} {w w' : ω} : A F w → fr.Grows w w' → (∀ p, F p → fr.Same p w w') → A F w'

variable {fr} {A B : fr.Assertion} {F F' : fr.Region} {w w' w'' : ω}

/-- It is enough to find, where the assertion holds, another one about the same places that brings
it back from then on. -/
theorem Keeps.of_follows (h : ∀ {F w}, A F w → ∃ B : fr.Assertion, fr.Keeps B ∧ B F w ∧
    ∀ {w'}, fr.Grows w w' → B F w' → A F w') : fr.Keeps A where
  has hA := by
    obtain ⟨B, hB, hw, -⟩ := h hA
    exact hB.has hw
  stable hA hgrows hsame := by
    obtain ⟨B, hB, hw, hback⟩ := h hA
    exact hback hgrows (hB.stable hw hgrows hsame)

/-- The owner of `F` in the world `w` can have come to `w'`, where `A` is known. -/
def Reaches (A : fr.Assertion) (F : fr.Region) (w w' : ω) : Prop :=
  ∃ F', fr.Step F w F' w' ∧ A F' w'

theorem Reaches.refl (h : A F w) : Reaches A F w w :=
  ⟨F, Step.refl F w, h⟩

theorem Reaches.trans (h : fr.Step F w F' w') (h' : Reaches A F' w' w'') : Reaches A F w w'' := by
  obtain ⟨F'', hstep, hA⟩ := h'
  exact ⟨F'', h.trans hstep, hA⟩

theorem Reaches.mono (h : Reaches A F w w') (hAB : ∀ F', A F' w' → B F' w') :
    Reaches B F w w' := by
  obtain ⟨F', hstep, hA⟩ := h
  exact ⟨F', hstep, hAB F' hA⟩

theorem Reaches.quiet (h : Reaches A F w w') (hA : fr.Keeps A) (hq : fr.Quiet w' w'') :
    Reaches A F w w'' := by
  obtain ⟨F', hstep, hF'⟩ := h
  exact ⟨F', hstep.trans (hq.step F'), hA.stable hF' hq.grows fun p _ => hq.same p⟩

/-- What can be built from nothing can be built by an owner who gives up what it owns. -/
theorem Reaches.of_none (h : Reaches A Region.none w w') (F : fr.Region) : Reaches A F w w' := by
  obtain ⟨F', hstep, hA⟩ := h
  exact ⟨F', hstep.widen fun _ => False.elim, hA⟩

theorem Reaches.give_up (h : fr.Step F w F' w') (hA : A Region.none w') : Reaches A F w w' :=
  ⟨Region.none, h.shrink fun _ => False.elim, hA⟩

theorem keeps_none {P : Prop} : fr.Keeps fun F _ => F = Region.none ∧ P where
  has := by
    intro F w ⟨hF, _⟩ p hp
    rw [hF] at hp
    exact hp.elim
  stable h _ _ := h

/-! ### Side by side -/

/-- Two owners side by side: `A` of the one and `B` of the other. -/
def Sep (A B : fr.Assertion) : fr.Assertion := fun F w =>
  ∃ F₁ F₂, F = F₁.both F₂ ∧ F₁.Apart F₂ ∧ A F₁ w ∧ B F₂ w

theorem Sep.comm (h : Sep A B F w) : Sep B A F w := by
  obtain ⟨F₁, F₂, rfl, hapart, hA, hB⟩ := h
  exact ⟨F₂, F₁, F₁.both_comm F₂, Region.apart_comm hapart, hB, hA⟩

theorem Keeps.sep (hA : fr.Keeps A) (hB : fr.Keeps B) : fr.Keeps (Sep A B) where
  has := by
    intro F w ⟨F₁, F₂, hF, _, h₁, h₂⟩ p hp
    rw [hF] at hp
    exact hp.elim (hA.has h₁ p) (hB.has h₂ p)
  stable := by
    intro F w w' ⟨F₁, F₂, hF, hapart, h₁, h₂⟩ hgrows hsame
    subst hF
    refine ⟨F₁, F₂, rfl, hapart, hA.stable h₁ hgrows fun p hp => hsame p (.inl hp),
      hB.stable h₂ hgrows fun p hp => hsame p (.inr hp)⟩

/-- The one moves, the other does not notice. -/
theorem Sep.left (h : Sep A B F w) (hB : fr.Keeps B) : ∃ F₁, A F₁ w ∧
    ∀ {A' : fr.Assertion} {w'}, Reaches A' F₁ w w' → Reaches (Sep A' B) F w w' := by
  obtain ⟨F₁, F₂, rfl, hapart, h₁, h₂⟩ := h
  refine ⟨F₁, h₁, fun {A' w'} ⟨F₁', hstep, hA'⟩ => ?_⟩
  obtain ⟨hboth, hapart', hsame⟩ := hstep.beside hapart (hB.has h₂)
  exact ⟨F₁'.both F₂, hboth, F₁', F₂, rfl, hapart', hA', hB.stable h₂ hstep.grows hsame⟩

theorem Sep.right (h : Sep A B F w) (hA : fr.Keeps A) : ∃ F₂, B F₂ w ∧
    ∀ {B' : fr.Assertion} {w'}, Reaches B' F₂ w w' → Reaches (Sep A B') F w w' := by
  obtain ⟨F₂, h₂, hback⟩ := h.comm.left hA
  exact ⟨F₂, h₂, fun hreach => (hback hreach).mono fun _ => Sep.comm⟩

/-- The one is given up. -/
theorem Sep.drop_left (h : Reaches (Sep A B) F w w') : Reaches B F w w' := by
  obtain ⟨F', hstep, F₁, F₂, rfl, -, -, h₂⟩ := h
  exact ⟨F₂, hstep.shrink fun p hp => .inr hp, h₂⟩

/-- The owner of nothing needs no place. -/
theorem Sep.of_none (h : A F w) (hB : B Region.none w) : Sep A B F w := by
  refine ⟨F, Region.none, ?_, fun _ _ h => h, h, hB⟩
  funext p
  exact propext ⟨.inl, fun hp => hp.elim id False.elim⟩

/-- What is built from nothing comes to stand beside what is owned. -/
theorem Reaches.beside (hA : fr.Keeps A) (h : Reaches A F w w')
    (h' : Reaches B Region.none w' w'') : Reaches (Sep A B) F w w'' := by
  obtain ⟨F', hstep, hF'⟩ := h
  -- the builder is an owner of nothing beside the owner of `F'`, and moves as the right one
  have hnone : Sep A (fun F _ => F = Region.none) F' w' := Sep.of_none hF' rfl
  obtain ⟨F₂, rfl, hback⟩ := hnone.right hA
  exact (hback h').trans hstep

/-! ## Accounts that own places -/

variable (fr)

/-- An account of what cursors have left, as assertions. -/
abbrev Account (α σ : Type) := List α → σ → fr.Assertion

variable {fr}

/-- What the owner of `F` in the world `w` may have come to, with the places left out. -/
def After (U : fr.Account α σ) (F : fr.Region) (w : ω) (xs : List α) (w' : ω) (s : σ) : Prop :=
  Reaches (U xs s) F w w'

/-- Cursors supply what they have left, and in doing so act on what they own. -/
structure Supplies (ends : Prop) (Rep : ω → β → α → Prop) (m : Machine ω σ β)
    (U : fr.Account α σ) : Prop where
  keeps (xs : List α) (s : σ) : fr.Keeps (U xs s)
  hasNext {F : fr.Region} {xs : List α} {w : ω} {s : σ} : (xs = [] → ends) → U xs s F w →
    (m.hasNext s).Returns w fun r w' => r.1 = !xs.isEmpty ∧ Reaches (U xs r.2) F w w'
  next_cons {F : fr.Region} {a : α} {xs : List α} {w : ω} {s : σ} : U (a :: xs) s F w →
    (m.next s).Returns w fun r w' =>
      (∃ b, r.1 = .ok b ∧ Rep w' b a) ∧ Reaches (U xs r.2) F w w'
  next_nil {F : fr.Region} {w : ω} {s : σ} : ends → U [] s F w →
    (m.next s).Returns w fun r w' => r.1 = .error .exhausted ∧ Reaches (U [] r.2) F w w'

variable {ends : Prop} {Rep : ω → β → α → Prop} {m : Machine ω σ β} {U : fr.Account α σ}

theorem Supplies.weaken {ends' : Prop} (h : fr.Supplies ends Rep m U) (hends : ends' → ends) :
    fr.Supplies ends' Rep m U :=
  ⟨h.keeps, fun hx hs => h.hasNext (fun hnil => hends (hx hnil)) hs, h.next_cons,
    fun he hs => h.next_nil (hends he) hs⟩

/-- It is enough to find, wherever the account stands, another one that is supplied and never says
anything that the account does not say as well. -/
theorem Supplies.of_follows
    (h : ∀ {F xs w s}, U xs s F w → ∃ V : fr.Account α σ, fr.Supplies ends Rep m V ∧ V xs s F w ∧
      ∀ {F' ys w' s'}, ys <:+ xs → V ys s' F' w' → U ys s' F' w') :
    fr.Supplies ends Rep m U where
  keeps xs s := by
    refine .of_follows ?_
    intro F w hs
    obtain ⟨V, hV, hs, hback⟩ := h hs
    exact ⟨V xs s, hV.keeps xs s, hs, fun _ hs' => hback List.suffix_rfl hs'⟩
  hasNext hx hs := by
    obtain ⟨V, hV, hs, hback⟩ := h hs
    refine (hV.hasNext hx hs).mono ?_
    intro r w' ⟨hr, hs'⟩
    exact ⟨hr, hs'.mono fun _ => hback List.suffix_rfl⟩
  next_cons {F a xs w s} hs := by
    obtain ⟨V, hV, hs, hback⟩ := h hs
    refine (hV.next_cons hs).mono ?_
    intro r w' ⟨hr, hs'⟩
    exact ⟨hr, hs'.mono fun _ => hback (List.suffix_cons a xs)⟩
  next_nil he hs := by
    obtain ⟨V, hV, hs, hback⟩ := h hs
    refine (hV.next_nil he hs).mono ?_
    intro r w' ⟨hr, hs'⟩
    exact ⟨hr, hs'.mono fun _ => hback List.suffix_rfl⟩

/-- One of several accounts. -/
theorem Supplies.union {ι : Type} {V : ι → fr.Account α σ}
    (h : ∀ i, fr.Supplies ends Rep m (V i)) :
    fr.Supplies ends Rep m fun xs s F w => ∃ i, V i xs s F w := by
  refine .of_follows ?_
  intro F xs w s ⟨i, hs⟩
  exact ⟨V i, h i, hs, fun _ hs' => ⟨i, hs'⟩⟩

/-- What is left is what was left at some time before, but for its first elements. -/
theorem Supplies.suffix (h : fr.Supplies ends Rep m U) (all : List α) :
    fr.Supplies ends Rep m fun xs s F w => xs <:+ all ∧ U xs s F w := by
  refine .of_follows ?_
  intro F xs w s ⟨hxs, hs⟩
  exact ⟨U, h, hs, fun hys hs' => ⟨hys.trans hxs, hs'⟩⟩

/-- A cursor that asks before it takes. `Asked` is how it stands in between: with an element within
reach, or with nothing left. -/
theorem Supplies.of_asked {Asked : fr.Account α σ} {ask : σ → Comp ω (Bool × σ)}
    {take : Bool × σ → Comp ω (Except Error β × σ)} (hkeeps : ∀ xs s, fr.Keeps (U xs s))
    (hasked : ∀ {F xs w s}, Asked xs s F w → U xs s F w)
    (hask : ∀ {F xs w s}, (xs = [] → ends) → U xs s F w →
      (ask s).Returns w fun r w' => r.1 = !xs.isEmpty ∧ Reaches (Asked xs r.2) F w w')
    (hcons : ∀ {F a xs w s}, Asked (a :: xs) s F w → (take (true, s)).Returns w fun r w' =>
      (∃ b, r.1 = .ok b ∧ Rep w' b a) ∧ Reaches (U xs r.2) F w w')
    (hnil : ∀ {F w s}, ends → Asked [] s F w → (take (false, s)).Returns w fun r w' =>
      r.1 = .error .exhausted ∧ Reaches (U [] r.2) F w w') :
    fr.Supplies ends Rep ⟨ask, fun s => ask s >>= take⟩ U where
  keeps := hkeeps
  hasNext hends hs := by
    refine (hask hends hs).mono ?_
    intro r w' ⟨hr, hreach⟩
    exact ⟨hr, hreach.mono fun _ => hasked⟩
  next_cons {F a xs w s} hs := by
    have hends : a :: xs = [] → ends := fun hnil => absurd hnil (List.cons_ne_nil a xs)
    refine (hask hends hs).bind ?_
    rintro ⟨more, s⟩ w' ⟨rfl, F', hstep, hs⟩
    refine (hcons hs).mono ?_
    intro r w'' ⟨hr, hreach⟩
    exact ⟨hr, hreach.trans hstep⟩
  next_nil {F w s} he hs := by
    refine (hask (fun _ => he) hs).bind ?_
    rintro ⟨more, s⟩ w' ⟨rfl, F', hstep, hs⟩
    refine (hnil he hs).mono ?_
    intro r w'' ⟨hr, hreach⟩
    exact ⟨hr, hreach.trans hstep⟩

/-- Seen from one world on, what is owned can be left out. -/
theorem Supplies.after (h : fr.Supplies ends Rep m U) (F : fr.Region) (w : ω) :
    m.Supplies ends Rep (After U F w) where
  hasNext hx := by
    intro ⟨F', hstep, hs⟩
    exact (h.hasNext hx hs).mono fun r w' hr => ⟨hr.1, hr.2.trans hstep⟩
  next_cons := by
    intro a xs w' s ⟨F', hstep, hs⟩
    exact (h.next_cons hs).mono fun r w' hr => ⟨hr.1, hr.2.trans hstep⟩
  next_nil he := by
    intro ⟨F', hstep, hs⟩
    exact (h.next_nil he hs).mono fun r w' hr => ⟨hr.1, hr.2.trans hstep⟩

/-- And back: to know it from every world on is to know it with what is owned. -/
theorem Supplies.of_after (hU : ∀ xs s, fr.Keeps (U xs s))
    (h : ∀ F w, m.Supplies ends Rep (After U F w)) : fr.Supplies ends Rep m U where
  keeps := hU
  hasNext hx hs := (h _ _).hasNext hx (.refl hs)
  next_cons hs := (h _ _).next_cons (.refl hs)
  next_nil he hs := (h _ _).next_nil he (.refl hs)

/-! ## Stages over one cursor -/

/-- `Machine.Over` beside others. -/
def Over (src : ρ → σ) (P : ω → List α → List γ → ρ → Prop) (U : fr.Account α σ) :
    fr.Account γ ρ := fun ys r F w =>
  Machine.Over src P (fun xs w s => U xs s F w) ys w r

theorem after_over {src : ρ → σ} {P : ω → List α → List γ → ρ → Prop} :
    After (Over src P U) F w = Machine.Over src P (After U F w) := by
  funext ys w' r
  refine propext ⟨?_, ?_⟩
  · intro ⟨F', hstep, xs, hs, hP⟩
    exact ⟨xs, ⟨F', hstep, hs⟩, hP⟩
  · intro ⟨xs, ⟨F', hstep, hs⟩, hP⟩
    exact ⟨F', hstep, xs, hs, hP⟩

/-- A stage over one cursor does to its world what that cursor does, and quiet things. So what is
known of it for every account of the cursor below is known of it beside others. -/
theorem Supplies.over (h : fr.Supplies ends Rep m U) {ends' : Prop} {Rep' : ω → δ → γ → Prop}
    {k : Machine ω ρ δ} {src : ρ → σ} {P : ω → List α → List γ → ρ → Prop}
    (hP : ∀ {w w' xs ys r}, fr.Grows w w' → P w xs ys r → P w' xs ys r)
    (hk : ∀ {Left : List α → ω → σ → Prop}, m.Supplies ends Rep Left →
      (∀ w w', fr.Quiet w w' → Machine.Leaves Left w w') →
        k.Supplies ends' Rep' (Machine.Over src P Left)) :
    fr.Supplies ends' Rep' k (Over src P U) := by
  refine .of_after (fun ys r => .of_follows ?_) fun F w => ?_
  · intro F w ⟨xs, hs, hr⟩
    exact ⟨_, h.keeps xs _, hs, fun hgrows hs' => ⟨xs, hs', hP hgrows hr⟩⟩
  · -- the world itself is one account of the cursor below, and quiet things leave it
    rw [after_over]
    exact hk (h.after F w) fun w w' hq xs s hs => hs.quiet (h.keeps xs s) hq

/-! ## Undivided worlds -/

/-- A world that is not divided, since no cursor leaves anything in it. -/
def bare (ω : Type) : Frame ω where
  Place := Empty
  Has _ _ := False
  Same _ _ _ := True
  Grows _ _ := True
  same_refl _ _ := trivial
  same_trans _ _ := trivial
  grows_refl _ := trivial
  grows_trans _ _ := trivial
  has_mono _ := False.elim

theorem reaches_bare {P : Prop} (hp : P) (w w' : ω) :
    @Reaches ω (bare ω) (fun F _ => F = Region.none ∧ P) Region.none w w' :=
  ⟨Region.none, ⟨trivial, nofun, nofun⟩, rfl, hp⟩

end Frame

end LazySeq
