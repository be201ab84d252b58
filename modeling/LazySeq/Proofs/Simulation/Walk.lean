import LazySeq.Proofs.Simulation.Select

/-!
# Walks that are repeated

A `Walk` is a machine together with the state it stands at, so that walks with states of different
types can be compared and listed, and stages can be put over them any number of times.

`Walk.RepeatedBy` says that a second walk does in the same world what a first one does, wherever the
first one answers. It holds of a walk and itself and from walk to walk, so two towers of stages are
compared floor by floor.
-/

namespace LazySeq

namespace Comparison

variable {ω σ σ' σ'' α β γ : Type} {b : (same ω).Bond}

namespace Rel

/-- What is known of a pair of values in one world, where nothing else need be known. -/
def of (r : α → β → Prop) : (same ω).Rel α β := ⟨fun _ => r, fun _ h => h⟩

/-- Related by way of something between. -/
def comp (P : (same ω).Rel α β) (Q : (same ω).Rel β γ) : (same ω).Rel α γ where
  Holds b a c := ∃ m, P b a m ∧ Q b m c
  mono hle h := by
    obtain ⟨m, hp, hq⟩ := h
    exact ⟨m, P.mono hle hp, Q.mono hle hq⟩

theorem answer_eq_iff {a a' : Except Error α} :
    (eq : (same ω).Rel α α).answer b a a' ↔ a = a' := by
  constructor
  · intro h
    obtain rfl | e := h <;> rfl
  · rintro rfl
    cases a with
    | ok a => exact .ok rfl
    | error e => exact .error e

end Rel

/-! ## Computations in one world -/

variable {act : Comp ω α} {act' : Comp ω β} {act'' : Comp ω γ}

theorem follows_same_iff {Q : (same ω).Rel α β} : (same ω).Follows b act act' Q ↔
    ∀ w v a, act w = .ok a v → ∃ a', act' w = .ok a' v ∧ Q b a a' := by
  constructor
  · intro h w v a hact
    obtain ⟨_, a', _, -, hact', rfl, hq⟩ := h w v w a rfl hact
    exact ⟨a', hact', hq⟩
  · rintro h w v _ a rfl hact
    obtain ⟨a', hact', hq⟩ := h w v a hact
    exact ⟨b, a', v, trivial, hact', rfl, hq⟩

theorem Follows.trans {P : (same ω).Rel α β} {Q : (same ω).Rel β γ}
    (h : (same ω).Follows b act act' P) (h' : (same ω).Follows b act' act'' Q) :
    (same ω).Follows b act act'' (P.comp Q) := by
  rw [follows_same_iff] at h h' ⊢
  intro w v a hact
  obtain ⟨a', hact', hp⟩ := h w v a hact
  obtain ⟨a'', hact'', hq⟩ := h' w v a' hact'
  exact ⟨a'', hact'', a', hp, hq⟩

/-- What only rearranges its answer follows what it rearranges. -/
theorem follows_of_map {f : α → β} (h : (do let a ← act; pure (f a)) = act') :
    (same ω).Follows b act act' (Rel.of fun a a' => f a = a') := by
  subst h
  refine follows_same_iff.mpr fun w v a hact => ⟨f a, ?_, rfl⟩
  show EStateM.bind act (fun a => pure (f a)) w = _
  rw [EStateM.bind, hact]
  rfl

/-- And the other way round. -/
theorem follows_of_map_symm {f : α → β} (h : (do let a ← act; pure (f a)) = act') :
    (same ω).Follows b act' act (Rel.of fun a' a => f a = a') := by
  subst h
  refine follows_same_iff.mpr fun w v a' hact => ?_
  have hbind : (do let a ← act; pure (f a)) w = EStateM.bind act (fun a => pure (f a)) w := rfl
  rw [hbind, EStateM.bind] at hact
  split at hact
  · next a w' hrun =>
    obtain ⟨rfl, rfl⟩ := EStateM.Result.ok.inj hact
    exact ⟨a, hrun, rfl⟩
  · cases hact

/-! ## Machines in one world -/

theorem Mimics.trans {R : (same ω).Rel σ σ'} {S : (same ω).Rel σ' σ''} {m : Machine ω σ α}
    {m' : Machine ω σ' α} {m'' : Machine ω σ'' α} (h : (same ω).Mimics R Rel.eq m m')
    (h' : (same ω).Mimics S Rel.eq m' m'') : (same ω).Mimics (R.comp S) Rel.eq m m'' where
  hasNext {b s s''} hs := by
    obtain ⟨s', hr, hs⟩ := hs
    refine ((h.hasNext hr).trans (h'.hasNext hs)).imp ?_
    rintro b' ⟨more, s⟩ ⟨more'', s''⟩ - ⟨⟨more', s'⟩, ⟨rfl, hr⟩, ⟨rfl, hs⟩⟩
    exact ⟨rfl, s', hr, hs⟩
  next {b s s''} hs := by
    obtain ⟨s', hr, hs⟩ := hs
    refine ((h.next hr).trans (h'.next hs)).imp ?_
    rintro b' ⟨answer, s⟩ ⟨answer'', s''⟩ - ⟨⟨answer', s'⟩, ⟨ha, hr⟩, ⟨ha', hs⟩⟩
    obtain rfl := Rel.answer_eq_iff.mp ha
    obtain rfl := Rel.answer_eq_iff.mp ha'
    exact ⟨Rel.answer_eq_iff.mpr rfl, s', hr, hs⟩

end Comparison

open Comparison

namespace Machine.SeenAs

variable {ω σ τ α : Type} {k : Machine ω τ α} {f : τ → σ} {m : Machine ω σ α}

/-- A machine does what it is seen to do. -/
theorem mimics (h : k.SeenAs f id m) :
    (same ω).Mimics (Rel.of fun t s => f t = s) Rel.eq k m where
  hasNext {b t s} hs := by
    obtain rfl : f t = s := hs
    refine (follows_of_map (h.hasNext t)).imp ?_
    rintro b' ⟨more, t'⟩ _ - ⟨⟩
    exact ⟨rfl, rfl⟩
  next {b t s} hs := by
    obtain rfl : f t = s := hs
    refine (follows_of_map (h.next t)).imp ?_
    rintro b' ⟨answer, t'⟩ _ - ⟨⟩
    exact ⟨Rel.answer_eq_iff.mpr (by cases answer <;> rfl), rfl⟩

theorem mimics_symm (h : k.SeenAs f id m) :
    (same ω).Mimics (Rel.of fun s t => f t = s) Rel.eq m k where
  hasNext {b s t} hs := by
    obtain rfl : f t = s := hs
    refine (follows_of_map_symm (h.hasNext t)).imp ?_
    rintro b' _ ⟨more, t'⟩ - ⟨⟩
    exact ⟨rfl, rfl⟩
  next {b s t} hs := by
    obtain rfl : f t = s := hs
    refine (follows_of_map_symm (h.next t)).imp ?_
    rintro b' _ ⟨answer, t'⟩ - ⟨⟩
    exact ⟨Rel.answer_eq_iff.mpr (by cases answer <;> rfl), rfl⟩

end Machine.SeenAs

/-! ## Walks -/

/-- A machine and the state it stands at. -/
structure Walk (ω α : Type) where
  State : Type
  machine : Machine ω State α
  state : State

namespace Walk

variable {ω α : Type} {c c' c'' : Walk ω α}

/-- The replies to a schedule of calls. -/
def replies (c : Walk ω α) (asks : List Ask) : Comp ω (List (Reply α)) :=
  c.machine.replies asks c.state

/-- Wherever `c` answers, `c'` does the same and answers the same. -/
def RepeatedBy (c c' : Walk ω α) : Prop :=
  ∃ R : (same ω).Rel c.State c'.State, R () c.state c'.state ∧
    (same ω).Mimics R Rel.eq c.machine c'.machine

/-- The two answer in the same worlds, do the same and answer the same. -/
structure Agrees (c c' : Walk ω α) : Prop where
  forth : c.RepeatedBy c'
  back : c'.RepeatedBy c

theorem RepeatedBy.refl (c : Walk ω α) : c.RepeatedBy c := ⟨Rel.eq, rfl, mimics_same _⟩

theorem RepeatedBy.trans (h : c.RepeatedBy c') (h' : c'.RepeatedBy c'') : c.RepeatedBy c'' := by
  obtain ⟨R, hstate, hmimics⟩ := h
  obtain ⟨S, hstate', hmimics'⟩ := h'
  exact ⟨R.comp S, ⟨c'.state, hstate, hstate'⟩, hmimics.trans hmimics'⟩

instance : Trans (RepeatedBy : Walk ω α → Walk ω α → Prop) RepeatedBy RepeatedBy :=
  ⟨RepeatedBy.trans⟩

/-- So it is for whole schedules. -/
theorem RepeatedBy.replies (h : c.RepeatedBy c') {asks : List Ask} {w w' : ω}
    {replies : List (Reply α)} (hc : c.replies asks w = .ok replies w') :
    c'.replies asks w = .ok replies w' := by
  obtain ⟨R, hstate, hmimics⟩ := h
  have hfollows : (same ω).Follows () (c.replies asks) (c'.replies asks) Rel.eq := by
    refine (hmimics.run asks hstate).bind ?_
    rintro _ ⟨replies, s⟩ ⟨replies', s'⟩ - ⟨hreplies, -⟩
    refine follows_pure ?_
    show replies = replies'
    rw [← List.forall₂_eq_eq_eq]
    exact List.Forall₂.imp (fun _ _ => Rel.eq_of_replies) hreplies
  obtain ⟨_, hc', rfl⟩ := follows_same_iff.mp hfollows w w' replies hc
  exact hc'

variable {σ τ : Type} {k : Machine ω τ α} {f : τ → σ} {m : Machine ω σ α}

theorem agrees_of_seenAs (h : k.SeenAs f id m) {t : τ} {s : σ} (hs : f t = s) :
    Agrees ⟨τ, k, t⟩ ⟨σ, m, s⟩ :=
  ⟨⟨_, hs, h.mimics⟩, ⟨_, hs, h.mimics_symm⟩⟩

end Walk

end LazySeq
