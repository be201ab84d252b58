import LazySeq.Comp

/-!
# What a computation is known to do

How to speak of a computation in a world. `Comp.Returns` says that it answers and that the answer is
right; `Comp.Ensures` says only that whatever it answers is right, and is what can be known of a
computation that may halt. `Comp.Yields` is the one or the other, by whether something else is sure to
answer, and `Comp.Upholds` adds to `Ensures` what is true of the world even after a halt. All pass
through `bind`, so that a computation is followed step by step.
-/

namespace LazySeq

namespace Comp

variable {ω υ α β : Type}

/-! ## Total -/

/-- `act`, run in `w`, answers, and `Q` holds of the answer and of the world left behind. -/
def Returns (act : Comp ω α) (w : ω) (Q : α → ω → Prop) : Prop :=
  ∃ a w', act w = .ok a w' ∧ Q a w'

theorem Returns.mono {act : Comp ω α} {w : ω} {P Q : α → ω → Prop}
    (h : act.Returns w P) (hpq : ∀ a w', P a w' → Q a w') : act.Returns w Q := by
  obtain ⟨a, w', hrun, hp⟩ := h
  exact ⟨a, w', hrun, hpq a w' hp⟩

/-- What is known of the answer in several ways is known of the one answer. -/
theorem Returns.forall {κ : Type} [hκ : Nonempty κ] {act : Comp ω α} {w : ω} {P : κ → α → ω → Prop}
    (h : ∀ k, act.Returns w (P k)) : act.Returns w fun a w' => ∀ k, P k a w' := by
  obtain ⟨k₀⟩ := hκ
  obtain ⟨a, w', hrun, -⟩ := h k₀
  refine ⟨a, w', hrun, fun k => ?_⟩
  obtain ⟨b, v', hrun', hp⟩ := h k
  obtain ⟨rfl, rfl⟩ := EStateM.Result.ok.inj (hrun.symm.trans hrun')
  exact hp

@[simp]
theorem returns_pure {a : α} {w : ω} {Q : α → ω → Prop} :
    (pure a : Comp ω α).Returns w Q ↔ Q a w := by
  constructor
  · intro ⟨_, _, hrun, hq⟩
    cases hrun
    exact hq
  · intro hq
    exact ⟨a, w, rfl, hq⟩

@[simp]
theorem returns_bind {act : Comp ω α} {f : α → Comp ω β} {w : ω} {Q : β → ω → Prop} :
    (act >>= f).Returns w Q ↔ act.Returns w fun a w' => (f a).Returns w' Q := by
  have hbind : (act >>= f) w = EStateM.bind act f w := rfl
  constructor
  · intro ⟨b, w'', hrun, hq⟩
    rw [hbind, EStateM.bind] at hrun
    split at hrun
    · next a w' hact => exact ⟨a, w', hact, b, w'', hrun, hq⟩
    · cases hrun
  · intro ⟨a, w', hact, b, w'', hf, hq⟩
    exact ⟨b, w'', by rw [hbind, EStateM.bind, hact]; exact hf, hq⟩

@[simp]
theorem returns_get {w : ω} {Q : ω → ω → Prop} :
    (get : Comp ω ω).Returns w Q ↔ Q w w :=
  returns_pure

@[simp]
theorem returns_set {v w : ω} {Q : PUnit → ω → Prop} :
    (set v : Comp ω PUnit).Returns w Q ↔ Q .unit v := by
  constructor
  · intro ⟨_, _, hrun, hq⟩
    cases hrun
    exact hq
  · intro hq
    exact ⟨.unit, v, rfl, hq⟩

@[simp]
theorem returns_modify {f : ω → ω} {w : ω} {Q : PUnit → ω → Prop} :
    (modify f : Comp ω PUnit).Returns w Q ↔ Q .unit (f w) := by
  constructor
  · intro ⟨_, _, hrun, hq⟩
    cases hrun
    exact hq
  · intro hq
    exact ⟨.unit, f w, rfl, hq⟩

/-- A first step that answers, followed by a second that answers wherever the first one leads. -/
theorem Returns.bind {act : Comp ω α} {f : α → Comp ω β} {w : ω} {P : α → ω → Prop}
    {Q : β → ω → Prop} (h : act.Returns w P) (hf : ∀ a w', P a w' → (f a).Returns w' Q) :
    (act >>= f).Returns w Q :=
  returns_bind.mpr (h.mono hf)

/-- Running on a part of the world answers when the part alone does. -/
theorem Returns.within {act : Comp ω α} {part : υ → ω} {put : ω → υ → υ} {w : υ}
    {P : α → ω → Prop} (h : act.Returns (part w) P) :
    (act.within part put).Returns w fun a w' => ∃ v, w' = put v w ∧ P a v := by
  obtain ⟨a, v, hrun, hp⟩ := h
  exact ⟨a, put v w, by simp only [Comp.within, hrun], v, rfl, hp⟩

/-- `f` answers as the function `g` does, in every world, and does no more to a world than `Only`
says. -/
def Computes (Only : ω → ω → Prop) (f : α → Comp ω β) (g : α → β) : Prop :=
  ∀ a w, (f a).Returns w fun b w' => b = g a ∧ Only w w'

theorem Computes.mono {Only Only' : ω → ω → Prop} {f : α → Comp ω β} {g : α → β}
    (h : Computes Only f g) (hmono : ∀ w w', Only w w' → Only' w w') : Computes Only' f g :=
  fun a w => (h a w).mono fun _ w' hb => ⟨hb.1, hmono w w' hb.2⟩

/-! ## Partial -/

/-- If `act`, run in `w`, answers, then `Q` holds of the answer and of the world left behind. -/
def Ensures (act : Comp ω α) (w : ω) (Q : α → ω → Prop) : Prop :=
  ∀ a w', act w = .ok a w' → Q a w'

theorem Ensures.mono {act : Comp ω α} {w : ω} {P Q : α → ω → Prop}
    (h : act.Ensures w P) (hpq : ∀ a w', P a w' → Q a w') : act.Ensures w Q :=
  fun a w' hrun => hpq a w' (h a w' hrun)

@[simp]
theorem ensures_pure {a : α} {w : ω} {Q : α → ω → Prop} :
    (pure a : Comp ω α).Ensures w Q ↔ Q a w := by
  constructor
  · intro h
    exact h a w rfl
  · intro hq _ _ hrun
    cases hrun
    exact hq

@[simp]
theorem ensures_get {w : ω} {Q : ω → ω → Prop} :
    (get : Comp ω ω).Ensures w Q ↔ Q w w :=
  ensures_pure

@[simp]
theorem ensures_modify {f : ω → ω} {w : ω} {Q : PUnit → ω → Prop} :
    (modify f : Comp ω PUnit).Ensures w Q ↔ Q .unit (f w) := by
  constructor
  · intro h
    exact h .unit (f w) rfl
  · intro hq _ _ hrun
    cases hrun
    exact hq

@[simp]
theorem ensures_bind {act : Comp ω α} {f : α → Comp ω β} {w : ω} {Q : β → ω → Prop} :
    (act >>= f).Ensures w Q ↔ act.Ensures w fun a w' => (f a).Ensures w' Q := by
  have hbind : (act >>= f) w = EStateM.bind act f w := rfl
  constructor
  · intro h a w' hact b w'' hf
    exact h b w'' (by rw [hbind, EStateM.bind, hact]; exact hf)
  · intro h b w'' hrun
    rw [hbind, EStateM.bind] at hrun
    split at hrun
    · next a w' hact => exact h a w' hact b w'' hrun
    · cases hrun

theorem Ensures.bind {act : Comp ω α} {f : α → Comp ω β} {w : ω} {P : α → ω → Prop}
    {Q : β → ω → Prop} (h : act.Ensures w P) (hf : ∀ a w', P a w' → (f a).Ensures w' Q) :
    (act >>= f).Ensures w Q :=
  ensures_bind.mpr (h.mono hf)

theorem Ensures.within {act : Comp ω α} {part : υ → ω} {put : ω → υ → υ} {w : υ}
    {P : α → ω → Prop} (h : act.Ensures (part w) P) :
    (act.within part put).Ensures w fun a w' => ∃ v, w' = put v w ∧ P a v := by
  intro a w' hrun
  simp only [Comp.within] at hrun
  split at hrun
  · next b v hact =>
    cases hrun
    exact ⟨v, rfl, h _ _ hact⟩
  · cases hrun

/-- What goes on from the same, comes to the same. -/
theorem bind_eq_of_eq {act act' : Comp ω α} {f : α → Comp ω β} {w : ω} (h : act w = act' w) :
    (act >>= f) w = (act' >>= f) w := by
  show EStateM.bind act f w = EStateM.bind act' f w
  rw [EStateM.bind, EStateM.bind, h]

theorem bind_of_ok {act : Comp ω α} {f : α → Comp ω β} {a : α} {w' : ω} (h : act w = .ok a w') :
    (act >>= f) w = f a w' := by
  show EStateM.bind act f w = f a w'
  rw [EStateM.bind, h]

theorem bind_of_error {act : Comp ω α} {f : α → Comp ω β} {halt : Halt} {w' : ω}
    (h : act w = .error halt w') : (act >>= f) w = .error halt w' := by
  show EStateM.bind act f w = .error halt w'
  rw [EStateM.bind, h]

/-- Two ways to go on are the same if they are where the first step can lead. -/
theorem Ensures.bind_congr {act : Comp ω α} {f g : α → Comp ω β} {w : ω} {P : α → ω → Prop}
    (h : act.Ensures w P) (hfg : ∀ a w', P a w' → f a w' = g a w') :
    (act >>= f) w = (act >>= g) w := by
  show EStateM.bind act f w = EStateM.bind act g w
  unfold EStateM.bind
  cases hact : act w with
  | ok a w' => exact hfg a w' (h a w' hact)
  | error halt w' => rfl

theorem Returns.ensures {act : Comp ω α} {w : ω} {P : α → ω → Prop} (h : act.Returns w P) :
    act.Ensures w P := by
  intro b v' hrun'
  obtain ⟨a, w', hrun, hp⟩ := h
  obtain ⟨rfl, rfl⟩ := EStateM.Result.ok.inj (hrun.symm.trans hrun')
  exact hp

/-- What answers, answers as it does whenever it does. -/
theorem Returns.and_ensures {act : Comp ω α} {w : ω} {P Q : α → ω → Prop} (h : act.Returns w P)
    (h' : act.Ensures w Q) : act.Returns w fun a w' => P a w' ∧ Q a w' := by
  obtain ⟨a, w', hrun, hp⟩ := h
  exact ⟨a, w', hrun, hp, h' a w' hrun⟩

/-! ## Total where it is sure -/

/-- If `act`, run in `w`, answers, then `Q` holds of the answer and of the world left behind; and it
does answer if `sure` holds. -/
def Yields (sure : Prop) (act : Comp ω α) (w : ω) (Q : α → ω → Prop) : Prop :=
  match act w with
  | .ok a w' => Q a w'
  | .error _ _ => ¬ sure

variable {sure : Prop}

theorem Yields.mono {act : Comp ω α} {w : ω} {P Q : α → ω → Prop} (h : act.Yields sure w P)
    (hpq : ∀ a w', P a w' → Q a w') : act.Yields sure w Q := by
  rw [Yields] at h ⊢
  split at h
  · exact hpq _ _ h
  · exact h

theorem Returns.yields {act : Comp ω α} {w : ω} {Q : α → ω → Prop} (h : act.Returns w Q) :
    act.Yields sure w Q := by
  obtain ⟨a, w', hrun, hq⟩ := h
  rw [Yields, hrun]
  exact hq

theorem Yields.ensures {act : Comp ω α} {w : ω} {Q : α → ω → Prop} (h : act.Yields sure w Q) :
    act.Ensures w Q := by
  intro a w' hrun
  rwa [Yields, hrun] at h

theorem Yields.returns {act : Comp ω α} {w : ω} {Q : α → ω → Prop} (h : act.Yields sure w Q)
    (hsure : sure) : act.Returns w Q := by
  rw [Yields] at h
  split at h
  · next a w' hrun => exact ⟨a, w', hrun, h⟩
  · exact absurd hsure h

/-- A computation that is known to answer where it is sure comes to what it comes to. -/
theorem yields_eq_of_returns {act : Comp ω α} {w : ω} (h : sure → act.Returns w fun _ _ => True) :
    act.Yields sure w fun a w' => act w = .ok a w' := by
  rw [Yields]
  split
  · next hrun => exact hrun
  · next hrun =>
    intro hsure
    obtain ⟨a, w', hok, -⟩ := h hsure
    rw [hrun] at hok
    cases hok

/-- Nothing else need be known of it. -/
theorem yields_of_returns {act : Comp ω α} {w : ω} (h : sure → act.Returns w fun _ _ => True) :
    act.Yields sure w fun _ _ => True :=
  (yields_eq_of_returns h).mono fun _ _ _ => trivial

/-- What is known in case it answers is known where it is sure to. -/
theorem Ensures.yields {act : Comp ω α} {w : ω} {Q : α → ω → Prop} (h : act.Ensures w Q)
    (hret : sure → act.Returns w fun _ _ => True) : act.Yields sure w Q :=
  (yields_eq_of_returns hret).mono h

@[simp]
theorem yields_pure {a : α} {w : ω} {Q : α → ω → Prop} :
    (pure a : Comp ω α).Yields sure w Q ↔ Q a w :=
  Iff.rfl

@[simp]
theorem yields_get {w : ω} {Q : ω → ω → Prop} : (get : Comp ω ω).Yields sure w Q ↔ Q w w :=
  Iff.rfl

@[simp]
theorem yields_modify {f : ω → ω} {w : ω} {Q : PUnit → ω → Prop} :
    (modify f : Comp ω PUnit).Yields sure w Q ↔ Q .unit (f w) :=
  Iff.rfl

@[simp]
theorem yields_bind {act : Comp ω α} {f : α → Comp ω β} {w : ω} {Q : β → ω → Prop} :
    (act >>= f).Yields sure w Q ↔ act.Yields sure w fun a w' => (f a).Yields sure w' Q := by
  have hbind : (act >>= f) w = EStateM.bind act f w := rfl
  rw [Yields, Yields, hbind, EStateM.bind]
  cases act w <;> rfl

theorem Yields.bind {act : Comp ω α} {f : α → Comp ω β} {w : ω} {P : α → ω → Prop}
    {Q : β → ω → Prop} (h : act.Yields sure w P)
    (hf : ∀ a w', P a w' → (f a).Yields sure w' Q) : (act >>= f).Yields sure w Q :=
  yields_bind.mpr (h.mono hf)

theorem Yields.within {act : Comp ω α} {part : υ → ω} {put : ω → υ → υ} {w : υ}
    {P : α → ω → Prop} (h : act.Yields sure (part w) P) :
    (act.within part put).Yields sure w fun a w' => ∃ v, w' = put v w ∧ P a v := by
  rw [Yields] at h
  rw [Yields, Comp.within]
  cases hact : act (part w) with
  | ok a v =>
    rw [hact] at h
    exact ⟨v, rfl, h⟩
  | error halt v =>
    rw [hact] at h
    exact h

/-! ## Whatever comes of it -/

/-- The world that `act` leaves behind, whether it answers or halts. -/
def left (act : Comp ω α) (w : ω) : ω :=
  match act w with
  | .ok _ w' => w'
  | .error _ w' => w'

/-- `act`, run in `w`, leaves a world of `I` whether it answers or halts, and if it answers, then
`Q` holds of the answer and of that world. -/
structure Upholds (I : ω → Prop) (act : Comp ω α) (w : ω) (Q : α → ω → Prop) : Prop where
  left : I (act.left w)
  ensures : act.Ensures w Q

variable {I : ω → Prop} {w : ω}

theorem Upholds.mono {act : Comp ω α} {P Q : α → ω → Prop} (h : act.Upholds I w P)
    (hpq : ∀ a w', P a w' → Q a w') : act.Upholds I w Q :=
  ⟨h.left, h.ensures.mono hpq⟩

@[simp]
theorem upholds_pure {a : α} {Q : α → ω → Prop} :
    (pure a : Comp ω α).Upholds I w Q ↔ I w ∧ Q a w :=
  ⟨fun h => ⟨h.left, ensures_pure.mp h.ensures⟩, fun h => ⟨h.1, ensures_pure.mpr h.2⟩⟩

@[simp]
theorem upholds_throw {halt : Halt} {Q : α → ω → Prop} :
    (throw halt : Comp ω α).Upholds I w Q ↔ I w :=
  ⟨fun h => h.left, fun hw => ⟨hw, nofun⟩⟩

@[simp]
theorem upholds_get {Q : ω → ω → Prop} : (get : Comp ω ω).Upholds I w Q ↔ I w ∧ Q w w :=
  ⟨fun h => ⟨h.left, ensures_get.mp h.ensures⟩, fun h => ⟨h.1, ensures_get.mpr h.2⟩⟩

@[simp]
theorem upholds_modify {f : ω → ω} {Q : PUnit → ω → Prop} :
    (modify f : Comp ω PUnit).Upholds I w Q ↔ I (f w) ∧ Q .unit (f w) :=
  ⟨fun h => ⟨h.left, ensures_modify.mp h.ensures⟩, fun h => ⟨h.1, ensures_modify.mpr h.2⟩⟩

/-- Where the first step answers, the second goes on from a world of `I`. -/
theorem Upholds.bind {act : Comp ω α} {f : α → Comp ω β} {P : α → ω → Prop} {Q : β → ω → Prop}
    (h : act.Upholds I w P) (hf : ∀ a w', I w' → P a w' → (f a).Upholds I w' Q) :
    (act >>= f).Upholds I w Q := by
  have hbind : (act >>= f) w = EStateM.bind act f w := rfl
  obtain ⟨hleft, hensures⟩ := h
  rw [Comp.left] at hleft
  constructor
  · rw [Comp.left, hbind, EStateM.bind]
    cases hact : act w with
    | ok a w' =>
      rw [hact] at hleft
      exact (hf a w' hleft (hensures a w' hact)).left
    | error halt w' =>
      rw [hact] at hleft
      exact hleft
  · refine ensures_bind.mpr fun a w' hact => ?_
    rw [hact] at hleft
    exact (hf a w' hleft (hensures a w' hact)).ensures

/-- To rearrange the answer changes nothing else. -/
theorem upholds_bind_pure {act : Comp ω α} {f : α → β} {Q : β → ω → Prop} :
    (do let a ← act; pure (f a)).Upholds I w Q ↔ act.Upholds I w fun a w' => Q (f a) w' := by
  have hleft : (do let a ← act; pure (f a)).left w = act.left w := by
    have hbind : (do let a ← act; pure (f a)) w = EStateM.bind act (fun a => pure (f a)) w := rfl
    rw [Comp.left, Comp.left, hbind, EStateM.bind]
    cases act w <;> rfl
  constructor
  · intro h
    refine ⟨hleft ▸ h.left, (ensures_bind.mp h.ensures).mono fun a w' ha => ?_⟩
    exact ensures_pure.mp ha
  · intro h
    exact ⟨hleft ▸ h.left, ensures_bind.mpr (h.ensures.mono fun a w' ha => ensures_pure.mpr ha)⟩

/-- A computation on a part of the world upholds what does not depend on the part. -/
theorem upholds_within {act : Comp ω α} {part : υ → ω} {put : ω → υ → υ} {I : υ → Prop} {w : υ}
    (h : ∀ v, I (put v w)) :
    (act.within part put).Upholds I w fun _ w' => ∃ v, w' = put v w := by
  constructor
  · rw [Comp.left, Comp.within]
    split
    · next hrun =>
      split at hrun <;> cases hrun
      exact h _
    · next hrun =>
      split at hrun <;> cases hrun
      exact h _
  · have hany : act.Ensures (part w) fun _ _ => True := fun _ _ _ => trivial
    refine hany.within.mono ?_
    rintro _ _ ⟨v, hv, _⟩
    exact ⟨v, hv⟩

/-- Wherever `act` is run in a world of `I`, it leaves one behind. -/
def Keeps (I : ω → Prop) (act : Comp ω α) : Prop :=
  ∀ w, I w → act.Upholds I w fun _ _ => True

@[simp]
theorem keeps_pure (a : α) : (pure a : Comp ω α).Keeps I :=
  fun _ hw => upholds_pure.mpr ⟨hw, trivial⟩

@[simp]
theorem keeps_throw (halt : Halt) : (throw halt : Comp ω α).Keeps I :=
  fun _ hw => upholds_throw.mpr hw

theorem Keeps.bind {act : Comp ω α} {f : α → Comp ω β} (h : act.Keeps I)
    (hf : ∀ a, (f a).Keeps I) : (act >>= f).Keeps I :=
  fun w hw => (h w hw).bind fun a w' hw' _ => hf a w' hw'

theorem Upholds.keeps {act : Comp ω α} {Q : ω → α → ω → Prop}
    (h : ∀ w, I w → act.Upholds I w (Q w)) : act.Keeps I :=
  fun w hw => (h w hw).mono fun _ _ _ => trivial

end Comp

end LazySeq
