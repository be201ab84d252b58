import LazySeq.Proofs.Schedule
import Mathlib.Data.List.Forall2

/-!
# Following another run

Two runs are compared, each in a world of its own. A `Comparison` says what may be known of a pair
of worlds: it is indexed by a bond, and bonds only grow while the two runs go on. What is known of a
pair of values may depend on the bond (`Comparison.Rel`) and has to survive its growth.

`Comparison.Follows` is said of two computations: wherever the first answers, the second answers
too, with an answer that is alike, and the worlds are a pair again. It passes through `bind`, so two
runs of the same shape are followed side by side, step by step. `Comparison.Mimics` says it of two
machines.
-/

namespace LazySeq

/-- What may be known of a pair of worlds. -/
structure Comparison (ω ω' : Type) where
  Bond : Type
  Le : Bond → Bond → Prop
  Holds : Bond → ω → ω' → Prop
  le_refl (b : Bond) : Le b b
  le_trans {b b' b'' : Bond} : Le b b' → Le b' b'' → Le b b''

namespace Comparison

variable {ω ω' α α' β β' γ γ' σ σ' : Type} {C : Comparison ω ω'}

/-- Equal worlds. -/
def same (ω : Type) : Comparison ω ω where
  Bond := Unit
  Le _ _ := True
  Holds _ w w' := w = w'
  le_refl _ := trivial
  le_trans _ _ := trivial

/-! ## Values that are alike -/

/-- What may be known of a pair of values. -/
structure Rel (C : Comparison ω ω') (α α' : Type) where
  Holds : C.Bond → α → α' → Prop
  mono {b b' : C.Bond} {a : α} {a' : α'} : C.Le b b' → Holds b a a' → Holds b' a a'

instance : CoeFun (C.Rel α α') fun _ => C.Bond → α → α' → Prop := ⟨Rel.Holds⟩

namespace Rel

/-- The same value, whatever the bond. -/
def eq : C.Rel α α := ⟨fun _ a a' => a = a', fun _ h => h⟩

/-- Components that are alike. -/
def prod (R : C.Rel α α') (S : C.Rel β β') : C.Rel (α × β) (α' × β') where
  Holds b p p' := R b p.1 p'.1 ∧ S b p.2 p'.2
  mono hle h := ⟨R.mono hle h.1, S.mono hle h.2⟩

theorem option_imp {r u : α → α' → Prop} (hr : ∀ {a a'}, r a a' → u a a') {o : Option α}
    {o' : Option α'} (h : Option.Rel r o o') : Option.Rel u o o' := by
  obtain h | _ := h
  · exact .some (hr h)
  · exact .none

/-- Both absent, or both there and alike. -/
def option (R : C.Rel α α') : C.Rel (Option α) (Option α') :=
  ⟨fun b => Option.Rel (R b), fun hle => option_imp (R.mono hle)⟩

/-- The same error, or answers that are alike. -/
inductive Answer (r : α → α' → Prop) : Except Error α → Except Error α' → Prop where
  | ok {a : α} {a' : α'} (h : r a a') : Answer r (.ok a) (.ok a')
  | error (e : Error) : Answer r (.error e) (.error e)

def answer (R : C.Rel α α') : C.Rel (Except Error α) (Except Error α') where
  Holds b := Answer (R b)
  mono hle h := by
    obtain h | e := h
    · exact .ok (R.mono hle h)
    · exact .error e

/-- Lists that are alike element by element. -/
def list (R : C.Rel α α') : C.Rel (List α) (List α') where
  Holds b := List.Forall₂ (R b)
  mono hle h := h.imp fun _ _ => R.mono hle

/-- What is done to both answers keeps them alike. -/
theorem map_answer {R : C.Rel α α'} {Q : C.Rel β β'} {b : C.Bond} {f : α → β} {f' : α' → β'}
    (hf : ∀ {a a'}, R b a a' → Q b (f a) (f' a')) {a : Except Error α} {a' : Except Error α'}
    (h : R.answer b a a') : Q.answer b (a.map f) (a'.map f') := by
  obtain h | e := h
  · exact .ok (hf h)
  · exact .error e

theorem toOption_answer {R : C.Rel α α'} {b : C.Bond} {a : Except Error α} {a' : Except Error α'}
    (h : R.answer b a a') : R.option b a.toOption a'.toOption := by
  obtain h | e := h
  · exact .some h
  · exact .none

end Rel

/-! ## Computations -/

/-- Where `act` answers, `act'` does, and alike. -/
def Follows (C : Comparison ω ω') (b : C.Bond) (act : Comp ω α) (act' : Comp ω' α')
    (Q : C.Rel α α') : Prop :=
  ∀ w v w' a, C.Holds b w w' → act w = .ok a v →
    ∃ b' a' v', C.Le b b' ∧ act' w' = .ok a' v' ∧ C.Holds b' v v' ∧ Q b' a a'

variable {b : C.Bond} {act : Comp ω α} {act' : Comp ω' α'}

theorem follows_iff {Q : C.Rel α α'} : C.Follows b act act' Q ↔ ∀ w w', C.Holds b w w' →
    act.Ensures w fun a v => act'.Returns w' fun a' v' =>
      ∃ b', C.Le b b' ∧ C.Holds b' v v' ∧ Q b' a a' := by
  constructor
  · intro h w w' hw a v hact
    obtain ⟨b', a', v', hle, hact', hv, hq⟩ := h w v w' a hw hact
    exact ⟨a', v', hact', b', hle, hv, hq⟩
  · intro h w v w' a hw hact
    obtain ⟨a', v', hact', b', hle, hv, hq⟩ := h w w' hw a v hact
    exact ⟨b', a', v', hle, hact', hv, hq⟩

/-- What is known of the first is known of the second. -/
theorem Follows.returns {Q : C.Rel α α'} (h : C.Follows b act act' Q) {w : ω} {w' : ω'}
    (hw : C.Holds b w w') {P : α → ω → Prop} (hact : act.Returns w P) :
    act'.Returns w' fun a' v' => ∃ b' a v, C.Le b b' ∧ C.Holds b' v v' ∧ Q b' a a' ∧ P a v := by
  obtain ⟨a, v, hrun, hp⟩ := hact
  obtain ⟨b', a', v', hle, hrun', hv, hq⟩ := h w v w' a hw hrun
  exact ⟨a', v', hrun', b', a, v, hle, hv, hq, hp⟩

theorem follows_pure {Q : C.Rel α α'} {a : α} {a' : α'} (h : Q b a a') :
    C.Follows b (pure a) (pure a') Q := by
  rintro w v w' _ hw ⟨⟩
  exact ⟨b, a', w', C.le_refl b, rfl, hw, h⟩

/-- What does not answer need not be followed. -/
theorem follows_throw {Q : C.Rel α α'} {halt : Halt} : C.Follows b (throw halt) act' Q := by
  rintro w v w' a hw ⟨⟩

theorem Follows.bind {P : C.Rel α α'} {Q : C.Rel β β'} {f : α → Comp ω β} {f' : α' → Comp ω' β'}
    (h : C.Follows b act act' P)
    (hf : ∀ {b' a a'}, C.Le b b' → P b' a a' → C.Follows b' (f a) (f' a') Q) :
    C.Follows b (act >>= f) (act' >>= f') Q := by
  refine follows_iff.mpr fun w w' hw => ?_
  rw [Comp.ensures_bind]
  refine (follows_iff.mp h w w' hw).mono ?_
  rintro a v ⟨a', v', hact', b', hle, hv, hp⟩
  refine (follows_iff.mp (hf hle hp) v v' hv).mono ?_
  intro c u hret
  rw [Comp.returns_bind]
  refine ⟨a', v', hact', hret.mono ?_⟩
  rintro c' u' ⟨b'', hle', hu, hq⟩
  exact ⟨b'', C.le_trans hle hle', hu, hq⟩

/-- The first does something more, which does not show in the second. -/
theorem Follows.bind_left {P : C.Rel α α'} {Q : C.Rel β α'} {f : α → Comp ω β}
    (h : C.Follows b act act' P)
    (hf : ∀ {b' a a'}, C.Le b b' → P b' a a' → C.Follows b' (f a) (pure a') Q) :
    C.Follows b (act >>= f) act' Q := by
  rw [← bind_pure act']
  exact h.bind hf

theorem Follows.bind_right {P : C.Rel α α'} {Q : C.Rel α β'} {f' : α' → Comp ω' β'}
    (h : C.Follows b act act' P)
    (hf : ∀ {b' a a'}, C.Le b b' → P b' a a' → C.Follows b' (pure a) (f' a') Q) :
    C.Follows b act (act' >>= f') Q := by
  rw [← bind_pure act]
  exact h.bind hf

theorem follows_ite {Q : C.Rel α α'} {c : Prop} [Decidable c] {other : Comp ω α}
    {other' : Comp ω' α'} (hpos : C.Follows b act act' Q) (hneg : C.Follows b other other' Q) :
    C.Follows b (if c then act else other) (if c then act' else other') Q := by
  by_cases hc : c
  · rw [if_pos hc, if_pos hc]
    exact hpos
  · rw [if_neg hc, if_neg hc]
    exact hneg

theorem Follows.imp {P Q : C.Rel α α'} (h : C.Follows b act act' P)
    (hpq : ∀ {b' a a'}, C.Le b b' → P b' a a' → Q b' a a') : C.Follows b act act' Q := by
  intro w v w' a hw hact
  obtain ⟨b', a', v', hle, hact', hv, hp⟩ := h w v w' a hw hact
  exact ⟨b', a', v', hle, hact', hv, hpq hle hp⟩

/-- The same computation in the same world. -/
theorem follows_same {b : (same ω).Bond} (act : Comp ω α) :
    (same ω).Follows b act act Rel.eq := by
  rintro w v _ a rfl hact
  exact ⟨b, a, v, trivial, hact, rfl, rfl⟩

/-- Two computations came to the same: both answered, and alike, or both halted for the same
reason. The worlds are a pair again either way. -/
inductive Agrees (C : Comparison ω ω') (b : C.Bond) (Q : C.Rel α α') :
    EStateM.Result Halt ω α → EStateM.Result Halt ω' α' → Prop where
  | ok {b' a a' v v'} (hle : C.Le b b') (hv : C.Holds b' v v') (hq : Q b' a a') :
    Agrees C b Q (.ok a v) (.ok a' v')
  | error {b' v v'} (halt : Halt) (hle : C.Le b b') (hv : C.Holds b' v v') :
    Agrees C b Q (.error halt v) (.error halt v')

theorem Agrees.of_le {b' : C.Bond} {Q : C.Rel α α'} {r : EStateM.Result Halt ω α}
    {r' : EStateM.Result Halt ω' α'} (hle : C.Le b b') (h : C.Agrees b' Q r r') :
    C.Agrees b Q r r' := by
  cases h with
  | ok hle' hv hq => exact .ok (C.le_trans hle hle') hv hq
  | error halt hle' hv => exact .error halt (C.le_trans hle hle') hv

/-- `act` and `act'` come to the same, also where they halt. -/
def Matches (C : Comparison ω ω') (b : C.Bond) (act : Comp ω α) (act' : Comp ω' α')
    (Q : C.Rel α α') : Prop :=
  ∀ w w', C.Holds b w w' → C.Agrees b Q (act w) (act' w')

theorem matches_pure {Q : C.Rel α α'} {a : α} {a' : α'} (h : Q b a a') :
    C.Matches b (pure a) (pure a') Q :=
  fun _ _ hw => .ok (C.le_refl b) hw h

theorem Matches.bind {P : C.Rel α α'} {Q : C.Rel β β'} {f : α → Comp ω β} {f' : α' → Comp ω' β'}
    (h : C.Matches b act act' P)
    (hf : ∀ {b' a a'}, C.Le b b' → P b' a a' → C.Matches b' (f a) (f' a') Q) :
    C.Matches b (act >>= f) (act' >>= f') Q := by
  intro w w' hw
  have hact := h w w' hw
  change C.Agrees b Q (EStateM.bind act f w) (EStateM.bind act' f' w')
  unfold EStateM.bind
  generalize act w = r at hact ⊢
  generalize act' w' = r' at hact ⊢
  cases hact with
  | ok hle hv hp =>
    exact (hf hle hp _ _ hv).of_le hle
  | error halt hle hv => exact .error halt hle hv

/-- `f` and `f'` take what is alike to computations of which the second follows the first. -/
def Carries (C : Comparison ω ω') (P : C.Rel α α') (Q : C.Rel β β') (f : α → Comp ω β)
    (f' : α' → Comp ω' β') : Prop :=
  ∀ ⦃b a a'⦄, P b a a' → C.Follows b (f a) (f' a') Q

/-- A part of the world is taken out, called, and put back as it then stands. -/
theorem Carries.visit {ξ ξ' : Type} {X : C.Rel ξ ξ'} {P : C.Rel α α'} {Q : C.Rel β β'}
    {call : ξ → Comp ω (α × ξ)} {call' : ξ' → Comp ω' (α' × ξ')}
    (hcall : C.Carries X (P.prod X) call call') (part : ω → ξ) (part' : ω' → ξ')
    (put : ξ → ω → ω) (put' : ξ' → ω' → ω') (f : α → β) (f' : α' → β')
    (hpart : ∀ {w w'}, C.Holds b w w' → X b (part w) (part' w'))
    (hput : ∀ {b' v v' x x'}, C.Le b b' → C.Holds b' v v' → X b' x x' →
      C.Holds b' (put x v) (put' x' v'))
    (hf : ∀ {b' a a'}, C.Le b b' → P b' a a' → Q b' (f a) (f' a')) :
    C.Follows b
      (do
        let w ← get
        let (a, x) ← call (part w)
        modify (put x)
        return f a)
      (do
        let w ← get
        let (a, x) ← call' (part' w)
        modify (put' x)
        return f' a) Q := by
  refine follows_iff.mpr fun w w' hw => ?_
  rw [Comp.ensures_bind, Comp.ensures_get, Comp.ensures_bind]
  refine (follows_iff.mp (hcall (hpart hw)) w w' hw).mono ?_
  rintro ⟨a, x⟩ v hret
  rw [Comp.ensures_bind, Comp.ensures_modify, Comp.ensures_pure, Comp.returns_bind,
    Comp.returns_get, Comp.returns_bind]
  refine hret.mono ?_
  rintro ⟨a', x'⟩ v' ⟨b', hle, hv, ha, hx⟩
  rw [Comp.returns_bind, Comp.returns_modify, Comp.returns_pure]
  exact ⟨b', hle, hput hle hv hx, hf hle ha⟩

/-! ## Machines -/

/-- Replies to the same call that are alike. -/
inductive Rel.Replies (r : α → α' → Prop) : Reply α → Reply α' → Prop where
  | more (left : Bool) : Replies r (.more left) (.more left)
  | item {a : Except Error α} {a' : Except Error α'} (h : Answer r a a') :
    Replies r (.item a) (.item a')

theorem Rel.Replies.imp {r u : α → α' → Prop} (hr : ∀ {a a'}, r a a' → u a a') {x : Reply α}
    {x' : Reply α'} (h : Replies r x x') : Replies u x x' := by
  obtain left | h := h
  · exact .more left
  · obtain h | e := h
    · exact .item (.ok (hr h))
    · exact .item (.error e)

theorem Rel.eq_of_replies {r r' : Reply α} (h : Replies Eq r r') : r = r' := by
  obtain left | h := h
  · rfl
  · obtain rfl | e := h <;> rfl

def Rel.reply (V : C.Rel α α') : C.Rel (Reply α) (Reply α') :=
  ⟨fun b => Replies (V b), fun hle h => h.imp (V.mono hle)⟩

/-- `m'` does as `m` does: its calls follow, from states that are alike to states that are alike. -/
structure Mimics (C : Comparison ω ω') (S : C.Rel σ σ') (V : C.Rel α α') (m : Machine ω σ α)
    (m' : Machine ω' σ' α') : Prop where
  hasNext : C.Carries S (Rel.eq.prod S) m.hasNext m'.hasNext
  next : C.Carries S (V.answer.prod S) m.next m'.next

variable {S : C.Rel σ σ'} {V : C.Rel α α'} {m : Machine ω σ α} {m' : Machine ω' σ' α'}

/-- It is enough to know, of each pair of states, one relation that holds of it and is kept. -/
theorem Mimics.of_states (h : ∀ {b s s'}, S b s s' → ∃ T : C.Rel σ σ', T b s s' ∧
    (∀ {b s s'}, T b s s' → S b s s') ∧ C.Mimics T V m m') : C.Mimics S V m m' where
  hasNext b s s' hs := by
    obtain ⟨T, ht, hts, hm⟩ := h hs
    exact (hm.hasNext ht).imp fun _ hr => ⟨hr.1, hts hr.2⟩
  next b s s' hs := by
    obtain ⟨T, ht, hts, hm⟩ := h hs
    exact (hm.next ht).imp fun _ hr => ⟨hr.1, hts hr.2⟩

theorem mimics_same (m : Machine ω σ α) : (same ω).Mimics Rel.eq Rel.eq m m where
  hasNext {b s s'} hs := by
    cases hs
    refine (follows_same _).imp ?_
    rintro b' ⟨more, s⟩ _ _ rfl
    exact ⟨rfl, rfl⟩
  next {b s s'} hs := by
    cases hs
    refine (follows_same _).imp ?_
    rintro b' ⟨answer, s⟩ _ _ rfl
    cases answer with
    | ok a => exact ⟨.ok rfl, rfl⟩
    | error e => exact ⟨.error e, rfl⟩

theorem Mimics.call (h : C.Mimics S V m m') (ask : Ask) {s : σ} {s' : σ'} (hs : S b s s') :
    C.Follows b (m.call ask s) (m'.call ask s') (V.reply.prod S) := by
  cases ask with
  | hasNext =>
    refine (h.hasNext hs).bind ?_
    rintro b' ⟨more, s⟩ ⟨_, s'⟩ hle ⟨rfl, hs⟩
    exact follows_pure ⟨.more more, hs⟩
  | next =>
    refine (h.next hs).bind ?_
    rintro b' ⟨answer, s⟩ ⟨answer', s'⟩ hle ⟨ha, hs⟩
    exact follows_pure ⟨.item ha, hs⟩

theorem Mimics.run (h : C.Mimics S V m m') (asks : List Ask) {s : σ} {s' : σ'} (hs : S b s s') :
    C.Follows b (m.run asks s) (m'.run asks s') (V.reply.list.prod S) := by
  induction asks generalizing b s s' with
  | nil => exact follows_pure ⟨.nil, hs⟩
  | cons ask asks ih =>
    refine (h.call ask hs).bind ?_
    rintro b' ⟨reply, s⟩ ⟨reply', s'⟩ hle ⟨hr, hs⟩
    refine (ih hs).bind ?_
    rintro b'' ⟨replies, s⟩ ⟨replies', s'⟩ hle' ⟨hrs, hs⟩
    exact follows_pure ⟨.cons (V.reply.mono hle' hr) hrs, hs⟩

/-! ## Guarded pulls -/

theorem Mimics.pull? (h : C.Mimics S V m m') {s : σ} {s' : σ'} (hs : S b s s') :
    C.Follows b (m.pull? s) (m'.pull? s') (V.option.prod S) := by
  refine (h.hasNext hs).bind ?_
  rintro b' ⟨more, s⟩ ⟨_, s'⟩ hle ⟨rfl, hs⟩
  cases more with
  | false => exact follows_pure ⟨.none, hs⟩
  | true =>
    refine (h.next hs).bind ?_
    rintro b'' ⟨answer, s⟩ ⟨answer', s'⟩ hle' ⟨ha, hs⟩
    exact follows_pure ⟨Rel.toOption_answer ha, hs⟩

theorem Mimics.gather (h : C.Mimics S V m m') {full : Comp ω Unit} {full' : Comp ω' Unit}
    (hfull : ∀ {b}, C.Follows b full full' Rel.eq) {n : Nat} {taken : List α} {taken' : List α'}
    (htaken : V.list b taken taken') {s : σ} {s' : σ'} (hs : S b s s') :
    C.Follows b (m.gather full n taken s) (m'.gather full' n taken' s') (V.list.prod S) := by
  induction n generalizing b s s' taken taken' with
  | zero =>
    refine hfull.bind ?_
    intro b' _ _ hle _
    exact follows_pure ⟨List.rel_reverse (V.list.mono hle htaken), S.mono hle hs⟩
  | succ n ih =>
    refine (h.pull? hs).bind ?_
    rintro b' ⟨answer, s⟩ ⟨answer', s'⟩ hle ⟨ha, hs⟩
    have htaken := V.list.mono hle htaken
    obtain ha | _ := ha
    · exact ih (.cons ha htaken) hs
    · exact follows_pure ⟨List.rel_reverse htaken, hs⟩

theorem Mimics.collect (h : C.Mimics S V m m') {limit : Nat} {s : σ} {s' : σ'} (hs : S b s s') :
    C.Follows b (m.collect limit s) (m'.collect limit s') (V.list.prod S) :=
  h.gather (follows_pure rfl) .nil hs

theorem Mimics.drain (h : C.Mimics S V m m') {fuel : Nat} {s : σ} {s' : σ'} (hs : S b s s') :
    C.Follows b (m.drain fuel s) (m'.drain fuel s') (V.list.prod S) :=
  h.gather follows_throw .nil hs

end Comparison

end LazySeq
