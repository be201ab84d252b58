import LazySeq.Maybe.Basic
import LazySeq.Proofs.Noted

/-!
# Possible values are options

A program on a possible value is a sequence of steps, each of which takes an alternative or runs a
callable on the value. Seen through `Maybe.toOption` it is the program of the corresponding steps on
options (`Step.toOption_runAll`), its callables run just on the values that are present
(`Step.yields_runAll`), and whatever is asked of a possible value is answered as the option answers
it (`Maybe.AsOption`).

What two payloads are worth to each other carries over to possible values: comparison is symmetric,
transitive or reflexive just if that of the payloads is. A payload that is itself empty is a value
like any other (`Maybe.EmptyApart`).
-/

namespace LazySeq

namespace Maybe

variable {ω ε α β γ : Type}

/-! ## Steps -/

/-- A step that makes a possible value of another. -/
inductive Step (ω : Type) : Type → Type → Type 1 where
  | or {α : Type} (other : Maybe α) : Step ω α α
  | orSome {α : Type} (a : α) : Step ω α α
  | orOption {α : Type} (o : Option α) : Step ω α α
  | map {α β : Type} (f : α → Comp ω β) : Step ω α β
  | andThen {α β : Type} (f : α → Comp ω (Maybe β)) : Step ω α β

namespace Step

def run : Step ω α β → Maybe α → Comp ω (Maybe β)
  | or other, v => return v.or other
  | orSome a, v => return v.orSome a
  | orOption o, v => return v.orOption o
  | map f, v => v.mapM f
  | andThen f, v => v.andThenM f

/-- The corresponding step on options. -/
def runOption : Step ω α β → Option α → Comp ω (Option β)
  | or other, o => return o.or other.toOption
  | orSome a, o => return o.or (some a)
  | orOption o', o => return o.or o'
  | map f, o => o.mapM f
  | andThen f, o => o.bindM fun a => return (← f a).toOption

/-- The values on which the callable of the step runs, if it has one. -/
def runsOn : Step ω α β → Maybe α → List α
  | map _, v => v.toOption.toList
  | andThen _, v => v.toOption.toList
  | _, _ => []

/-- The same step, with a note of every run of its callable. -/
def noted (note : α → ε) : Step ω α β → Step (Noted ω ε) α β
  | or other => or other
  | orSome a => orSome a
  | orOption o => orOption o
  | map f => map fun a => (f a).noting fun _ => note a
  | andThen f => andThen fun a => (f a).noting fun _ => note a

/-- Its callable answers, if it has one. -/
def Answers : Step ω α β → Prop
  | map f => ∀ a w, (f a).Returns w fun _ _ => True
  | andThen f => ∀ a w, (f a).Returns w fun _ _ => True
  | _ => True

theorem toOption_run (s : Step ω α β) (v : Maybe α) :
    (do return (← s.run v).toOption) = s.runOption v.toOption := by
  cases s with
  | or other => cases v <;> rfl
  | orSome a => cases v <;> rfl
  | orOption o => cases v <;> cases o <;> rfl
  | map f =>
    cases v with
    | absent => rfl
    | present a =>
      show (f a >>= _) >>= _ = _
      rw [bind_assoc]
      rfl
  | andThen f => cases v <;> rfl

theorem yields_noted {sure : Prop} (s : Step ω α β) (note : α → ε) (hsure : sure → s.Answers)
    (v : Maybe α) (w : Noted ω ε) :
    ((s.noted note).run v).Yields sure w fun u w' =>
      w'.notes = w.notes ++ (s.runsOn v).map note ∧ ∃ w₀ w₁, s.run v w₀ = .ok u w₁ := by
  cases s with
  | or other => exact Comp.yields_pure.mpr ⟨(List.append_nil _).symm, w.world, _, rfl⟩
  | orSome a => exact Comp.yields_pure.mpr ⟨(List.append_nil _).symm, w.world, _, rfl⟩
  | orOption o => exact Comp.yields_pure.mpr ⟨(List.append_nil _).symm, w.world, _, rfl⟩
  | map f =>
    cases v with
    | absent => exact Comp.yields_pure.mpr ⟨(List.append_nil _).symm, w.world, _, rfl⟩
    | present a =>
      have hf := Comp.yields_eq_of_returns fun h => hsure h a w.world
      refine (hf.noting fun _ => note a).bind ?_
      rintro b w' ⟨hb, hnotes⟩
      refine Comp.yields_pure.mpr ⟨hnotes, w.world, w'.world, ?_⟩
      exact Comp.bind_of_ok hb
  | andThen f =>
    cases v with
    | absent => exact Comp.yields_pure.mpr ⟨(List.append_nil _).symm, w.world, _, rfl⟩
    | present a =>
      have hf := Comp.yields_eq_of_returns fun h => hsure h a w.world
      refine (hf.noting fun _ => note a).mono ?_
      rintro u w' ⟨hu, hnotes⟩
      exact ⟨hnotes, w.world, w'.world, hu⟩

/-! ## Programs -/

section Program

variable {A : Nat → Type}

/-- The first `h` steps of a program, in order. -/
def runAll (steps : ∀ k, Step ω (A k) (A (k + 1))) : ∀ h, Maybe (A 0) → Comp ω (Maybe (A h))
  | 0, v => return v
  | h + 1, v => do (steps h).run (← runAll steps h v)

/-- The corresponding program on options. -/
def runAllOption (steps : ∀ k, Step ω (A k) (A (k + 1))) :
    ∀ h, Option (A 0) → Comp ω (Option (A h))
  | 0, o => return o
  | h + 1, o => do (steps h).runOption (← runAllOption steps h o)

/-- The steps, with a note of every value on which a callable runs, and of the step it is of. -/
def notedAll (steps : ∀ k, Step ω (A k) (A (k + 1))) (k : Nat) :
    Step (Noted ω (Σ k, A k)) (A k) (A (k + 1)) :=
  (steps k).noted (⟨k, ·⟩)

/-- The first `h` steps lead from `v` to a state, and their callables ran on the values noted: each
in its turn, on the value that was present then, if one was. -/
inductive Reaches (steps : ∀ k, Step ω (A k) (A (k + 1))) (v : Maybe (A 0)) :
    ∀ h, List (Σ k, A k) → Maybe (A h) → Prop where
  | start : Reaches steps v 0 [] v
  | step {h : Nat} {notes : List (Σ k, A k)} {u : Maybe (A h)} {u' : Maybe (A (h + 1))}
    (before : Reaches steps v h notes u)
    (makes : ∃ w w', (steps h).run u w = .ok u' w') :
    Reaches steps v (h + 1) (notes ++ ((steps h).runsOn u).map (⟨h, ·⟩)) u'

variable {steps : ∀ k, Step ω (A k) (A (k + 1))}

theorem toOption_runAll (h : Nat) (v : Maybe (A 0)) :
    (do return (← runAll steps h v).toOption) = runAllOption steps h v.toOption := by
  induction h with
  | zero => rfl
  | succ h ih =>
    rw [runAll, runAllOption, ← ih]
    simp only [bind_assoc, pure_bind, toOption_run]

theorem yields_runAll (h : Nat) (v : Maybe (A 0)) (w : Noted ω (Σ k, A k)) :
    (runAll (notedAll steps) h v).Yields (∀ k, (steps k).Answers) w fun u w' =>
      ∃ notes, w'.notes = w.notes ++ notes ∧ Reaches steps v h notes u := by
  induction h with
  | zero => exact Comp.yields_pure.mpr ⟨[], (List.append_nil _).symm, .start⟩
  | succ h ih =>
    refine ih.bind ?_
    rintro u w₁ ⟨notes, hnotes, hreaches⟩
    refine ((steps h).yields_noted _ (fun hanswers => hanswers h) u w₁).mono ?_
    rintro u' w₂ ⟨hnotes', hmakes⟩
    exact ⟨_, by rw [hnotes', hnotes, List.append_assoc], hreaches.step hmakes⟩

end Program

end Step

/-! ## What is asked of a possible value -/

/-- Whatever is asked of the possible value is answered as the option answers it. The supplier runs
once if there is no value, and else not at all. -/
structure AsOption (v : Maybe α) : Prop where
  hasValue : v.hasValue = v.toOption.isSome
  hasNoValue : v.hasNoValue = v.toOption.isNone
  ofOption : ofOption v.toOption = v
  get : v.get = v.toOption.elim (.error .noSuchElement) .ok
  getOrElse (fallback : α) : v.getOrElse fallback = v.toOption.getD fallback
  getOrThrow {ε : Type} (error : ε) : v.getOrThrow error = v.toOption.elim (.error error) .ok
  toList : v.toList = v.toOption.toList
  getOrCall {ω : Type} (supplier : Comp ω α) (w : Noted ω α) :
    (v.getOrCall (supplier.noting id)).Yields (supplier.Returns w.world fun _ _ => True) w
      fun a w' => (v.toOption = some a ∧ w' = w) ∨
        (v.toOption = none ∧ supplier w.world = .ok a w'.world ∧ w'.notes = w.notes ++ [a])

theorem asOption (v : Maybe α) : v.AsOption where
  hasValue := by cases v <;> rfl
  hasNoValue := by cases v <;> rfl
  ofOption := ofOption_toOption v
  get := by cases v <;> rfl
  getOrElse _ := by cases v <;> rfl
  getOrThrow _ := by cases v <;> rfl
  toList := by cases v <;> rfl
  getOrCall supplier w := by
    cases v with
    | present a => exact Comp.yields_pure.mpr (.inl ⟨rfl, rfl⟩)
    | absent =>
      have hsupplier : supplier.Yields (supplier.Returns w.world fun _ _ => True) w.world
          fun a w' => supplier w.world = .ok a w' :=
        Comp.yields_eq_of_returns id
      refine (hsupplier.noting id).mono ?_
      rintro a w' ⟨ha, hnotes⟩
      exact .inr ⟨rfl, ha, hnotes⟩

/-! ## Comparison -/

/-- What is equal is equal the other way round. -/
def SymmetricAcross (eq : α → β → Bool) (eq' : β → α → Bool) : Prop :=
  ∀ a b, eq a b = true → eq' b a = true

/-- What is equal by way of something between is equal. -/
def TransitiveAcross (eq : α → β → Bool) (eq' : β → γ → Bool) (eq'' : α → γ → Bool) : Prop :=
  ∀ a b c, eq a b = true → eq' b c = true → eq'' a c = true

/-- Everything is equal to itself. -/
def ReflexiveOn (eq : α → α → Bool) : Prop :=
  ∀ a, eq a a = true

theorem symmetric_eqBy_iff {eq : α → β → Bool} {eq' : β → α → Bool} :
    SymmetricAcross (eqBy eq) (eqBy eq') ↔ SymmetricAcross eq eq' := by
  constructor
  · intro h a b
    exact h (.present a) (.present b)
  · rintro h (_ | a) (_ | b) heq
    · rfl
    · cases heq
    · cases heq
    · exact h a b heq

theorem transitive_eqBy_iff {eq : α → β → Bool} {eq' : β → γ → Bool} {eq'' : α → γ → Bool} :
    TransitiveAcross (eqBy eq) (eqBy eq') (eqBy eq'') ↔ TransitiveAcross eq eq' eq'' := by
  constructor
  · intro h a b c
    exact h (.present a) (.present b) (.present c)
  · rintro h (_ | a) (_ | b) (_ | c) heq heq'
    · rfl
    · cases heq'
    · cases heq
    · cases heq
    · cases heq
    · cases heq
    · cases heq'
    · exact h a b c heq heq'

theorem reflexive_eqBy_iff {eq : α → α → Bool} : ReflexiveOn (eqBy eq) ↔ ReflexiveOn eq := by
  constructor
  · intro h a
    exact h (.present a)
  · rintro h (_ | a)
    · rfl
    · exact h a

/-! ## Values that are empty themselves -/

/-- A value that is itself empty is not taken for an absent one. -/
structure EmptyApart (ω α : Type) : Prop where
  toOption_ne : (present none : Maybe (Option α)).toOption ≠ absent.toOption
  ofOption_ne : ofOption (some (none : Option α)) ≠ ofOption none
  /-- it is not equal to an absent one, however payloads are compared -/
  eqBy_absent {β : Type} (eq : Option α → β → Bool) : eqBy eq (present none) absent = false
  absent_eqBy {β : Type} (eq : β → Option α → Bool) : eqBy eq absent (present none) = false
  /-- a step runs its callable on it, or has none and leaves it in place of an alternative -/
  kept (s : Step ω (Option α) (Option α)) :
    s.runsOn (present none) = [none] ∨ s.run (present none) = pure (present none)
  /-- there is a value afterwards, unless a binder was shown this one and made none of it -/
  stays {β : Type} (s : Step ω (Option α) β) (w : ω) :
    (s.run (present none)).Ensures w fun u w' =>
      u.hasValue = true ∨ ∃ f, s = .andThen f ∧ f none w = .ok u w'
  /-- on an absent one nothing is run -/
  skipped {β : Type} (s : Step ω (Option α) β) : s.runsOn absent = []

theorem emptyApart (ω α : Type) : EmptyApart ω α where
  toOption_ne := nofun
  ofOption_ne := nofun
  eqBy_absent _ := rfl
  absent_eqBy _ := rfl
  kept s := by
    cases s with
    | or other => exact .inr rfl
    | orSome a => exact .inr rfl
    | orOption o => exact .inr rfl
    | map f => exact .inl rfl
    | andThen f => exact .inl rfl
  stays s w := by
    cases s with
    | or other => exact Comp.ensures_pure.mpr (.inl rfl)
    | orSome a => exact Comp.ensures_pure.mpr (.inl rfl)
    | orOption o => exact Comp.ensures_pure.mpr (.inl rfl)
    | map f =>
      have hany : (f none).Ensures w fun _ _ => True := fun _ _ _ => trivial
      exact hany.bind fun b w' _ => Comp.ensures_pure.mpr (.inl rfl)
    | andThen f => exact fun u w' hrun => .inr ⟨f, rfl, hrun⟩
  skipped s := by cases s <;> rfl

/-- A program of any steps on a possible value is the program of the corresponding steps on the
option, and its callables run just where a value is present. In the state that it comes to, what is
asked is answered as the option answers. Comparison across payloads is symmetric, transitive or
reflexive as that of the payloads is, and an empty value is kept apart from an absent one. -/
theorem simulates_option {A : Nat → Type} (steps : ∀ k, Step ω (A k) (A (k + 1))) (h : Nat)
    (v : Maybe (A 0)) (eq : α → β → Bool) (eqBack : β → α → Bool) (eqOn : β → γ → Bool)
    (eqFar : α → γ → Bool) (eqSelf : α → α → Bool) :
    (do return (← Step.runAll steps h v).toOption) = Step.runAllOption steps h v.toOption ∧
      (∀ w, (Step.runAll (Step.notedAll steps) h v).Yields (∀ k, (steps k).Answers) w fun u w' =>
        (∃ notes, w'.notes = w.notes ++ notes ∧ Step.Reaches steps v h notes u) ∧ u.AsOption) ∧
      (SymmetricAcross (eqBy eq) (eqBy eqBack) ↔ SymmetricAcross eq eqBack) ∧
      (TransitiveAcross (eqBy eq) (eqBy eqOn) (eqBy eqFar) ↔ TransitiveAcross eq eqOn eqFar) ∧
      (ReflexiveOn (eqBy eqSelf) ↔ ReflexiveOn eqSelf) ∧ EmptyApart ω α :=
  ⟨Step.toOption_runAll h v,
    fun w => (Step.yields_runAll h v w).mono fun u _ hu => ⟨hu, u.asOption⟩,
    symmetric_eqBy_iff, transitive_eqBy_iff, reflexive_eqBy_iff, emptyApart ω α⟩

end Maybe

end LazySeq
