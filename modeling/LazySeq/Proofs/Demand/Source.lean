import LazySeq.Cursor.Start
import LazySeq.Proofs.Cursor.HasLeft
import LazySeq.Proofs.Recorded
import Mathlib.Data.Seq.Basic

/-!
# A source that is watched

A lawful cursor of the caller over a sequence that may go on for ever (`Machine.Produces`), with its
calls written down. Under a stack of stages it is known by a finite beginning of its sequence: it
supplies that beginning (`supplies_source`), and all the time the record of its calls says how much
of it was taken (`Taken`). Beyond the beginning nothing is known, so a stack that is proved to need
no more than the beginning has not asked for more.

The world of the caller is a pair: the recorded world of the source, which is watched, and whatever
the callables of the stages act on.
-/

namespace LazySeq

open LazySeq.Frame World

variable {ω υ κ σ τ α : Type}

/-! ## Endless or not -/

/-- `Machine.Lawful` for sequences that may go on for ever. -/
structure Machine.Produces (m : Machine ω σ α) (Left : Stream'.Seq α → ω → σ → Prop) : Prop where
  hasNext {xs : Stream'.Seq α} {w : ω} {s : σ} : Left xs w s →
    (m.hasNext s).Returns w fun r w' => r.1 = xs.head.isSome ∧ Left xs w' r.2
  next_cons {a : α} {xs : Stream'.Seq α} {w : ω} {s : σ} : Left (.cons a xs) w s →
    (m.next s).Returns w fun r w' => r.1 = .ok a ∧ Left xs w' r.2
  next_nil {w : ω} {s : σ} : Left .nil w s →
    (m.next s).Returns w fun r w' => r.1 = .error .exhausted ∧ Left .nil w' r.2

/-- A lawful cursor over a list produces the list. -/
theorem Machine.Lawful.produces {m : Machine ω σ α} {Left : List α → ω → σ → Prop}
    (h : m.Lawful Left) : m.Produces fun xs w s => ∃ ys, xs = .ofList ys ∧ Left ys w s where
  hasNext {xs w s} hs := by
    obtain ⟨ys, rfl, hs⟩ := hs
    refine (h.hasNext hs).mono ?_
    intro r w' ⟨hr, hs'⟩
    refine ⟨?_, ys, rfl, hs'⟩
    cases ys with
    | nil => rw [hr, Stream'.Seq.ofList_nil, Stream'.Seq.head_nil]; rfl
    | cons a ys => rw [hr, Stream'.Seq.ofList_cons, Stream'.Seq.head_cons]; rfl
  next_cons {a xs w s} hs := by
    obtain ⟨ys, hys, hs⟩ := hs
    cases ys with
    | nil => exact absurd hys Stream'.Seq.cons_ne_nil
    | cons b ys =>
      rw [Stream'.Seq.ofList_cons, Stream'.Seq.cons_eq_cons] at hys
      obtain ⟨rfl, rfl⟩ := hys
      exact (h.next_cons hs).mono fun r w' hr => ⟨hr.1, ys, rfl, hr.2⟩
  next_nil {w s} hs := by
    obtain ⟨ys, hys, hs⟩ := hs
    cases ys with
    | nil => exact (h.next_nil hs).mono fun r w' hr => ⟨hr.1, [], rfl, hr.2⟩
    | cons b ys =>
      rw [Stream'.Seq.ofList_cons] at hys
      exact absurd hys.symm Stream'.Seq.cons_ne_nil

theorem exists_cons_of_take {zs : Stream'.Seq α} {n : Nat} {a : α} {ys : List α}
    (h : zs.take n = a :: ys) : ∃ zs' n', zs = .cons a zs' ∧ ys = zs'.take n' := by
  cases n with
  | zero =>
    rw [Stream'.Seq.take_zero] at h
    cases h
  | succ n =>
    induction zs using Stream'.Seq.recOn with
    | nil =>
      rw [Stream'.Seq.take_nil] at h
      cases h
    | cons b zs =>
      rw [Stream'.Seq.take_succ_cons] at h
      obtain ⟨rfl, rfl⟩ := List.cons.inj h
      exact ⟨zs, n, rfl, rfl⟩

/-- A beginning of a beginning is a beginning. -/
theorem eq_take_of_prefix {xs : Stream'.Seq α} {n : Nat} {ys : List α} (h : ys <+: xs.take n) :
    ys = xs.take ys.length := by
  -- on the shorter beginning, walking the sequence along with it
  induction ys generalizing xs n with
  | nil => rw [List.length_nil, Stream'.Seq.take_zero]
  | cons a ys ih =>
    obtain ⟨zs, hzs⟩ := h
    obtain ⟨xs', n', rfl, hrest⟩ := exists_cons_of_take hzs.symm
    rw [List.length_cons, Stream'.Seq.take_succ_cons]
    exact congrArg _ (ih ⟨zs, hrest⟩)

/-! ## The record -/

/-- The calls on record took `xs`, and none of them failed. -/
def Taken (xs : List α) (calls : List (Reply α)) : Prop :=
  Reply.items calls = xs ∧ Reply.pulls calls = xs.length

theorem Taken.more {xs : List α} {calls : List (Reply α)} (h : Taken xs calls) (left : Bool) :
    Taken xs (calls ++ [.more left]) := by
  obtain ⟨hitems, hpulls⟩ := h
  constructor
  · rw [Reply.items_append, Reply.items_more, List.append_nil, hitems]
  · rw [Reply.pulls_append, Reply.pulls_more, hpulls, Nat.add_zero]

theorem Taken.item {xs : List α} {calls : List (Reply α)} (h : Taken xs calls) (a : α) :
    Taken (xs ++ [a]) (calls ++ [.item (.ok a)]) := by
  obtain ⟨hitems, hpulls⟩ := h
  constructor
  · rw [Reply.items_append, Reply.items_item, hitems]
    rfl
  · rw [Reply.pulls_append, Reply.pulls_item, hpulls, List.length_append, List.length_singleton]

namespace Machine

variable {m : Machine ω σ α} {Left : Stream'.Seq α → ω → σ → Prop} {xs : Stream'.Seq α}
variable {v : Recorded ω α} {s : σ}

theorem Produces.recorded_hasNext (h : m.Produces Left) (hs : Left xs v.world s) :
    (m.recorded.hasNext s).Returns v fun r v' =>
      r.1 = xs.head.isSome ∧ Left xs v'.world r.2 ∧ v'.calls = v.calls ++ [.more r.1] := by
  refine (h.hasNext hs).within.bind ?_
  intro ⟨more, s⟩ v' ⟨w, hv', hmore, hs'⟩
  rw [Comp.returns_bind, Comp.returns_modify, Comp.returns_pure, hv']
  exact ⟨hmore, hs', rfl⟩

theorem Produces.recorded_next {a : α} (h : m.Produces Left) (hs : Left (.cons a xs) v.world s) :
    (m.recorded.next s).Returns v fun r v' =>
      r.1 = .ok a ∧ Left xs v'.world r.2 ∧ v'.calls = v.calls ++ [.item (.ok a)] := by
  refine (h.next_cons hs).within.bind ?_
  intro ⟨answer, s⟩ v' ⟨w, hv', hanswer, hs'⟩
  rw [Comp.returns_bind, Comp.returns_modify, Comp.returns_pure, hv']
  refine ⟨hanswer, hs', ?_⟩
  show v.calls ++ [.item answer] = _
  rw [show answer = .ok a from hanswer]

end Machine

/-! ## In the world of a stack -/

/-- The source with its calls written down, in a world that holds more. -/
def Machine.watched (m : Machine υ τ Value) : Machine (Recorded υ Value × κ) τ Value :=
  m.recorded.within Prod.fst fun v o => (v, o.2)

/-- The sequence of the source: `begin` puts a cursor at its beginning. -/
def Sequence.watched (begin : Comp υ τ) (m : Machine υ τ Value) :
    Sequence (Recorded υ Value × κ) τ :=
  .given ((begin.within Recorded.world fun w v => ⟨w, v.calls⟩).within Prod.fst fun v o => (v, o.2))
    m.watched

/-- The source has `ys` left of its beginning `all`, and the rest of that was taken from it. -/
def SourceLeft (Left : Stream'.Seq Value → υ → τ → Prop) (all : List Value) :
    (frame τ (Prod.fst (α := Recorded υ Value) (β := κ))).Account Value τ := fun ys s F w =>
  F = onCaller ∧ (∃ zs n, Left zs w.outer.1.world s ∧ ys = zs.take n) ∧
    ∃ taken, taken ++ ys = all ∧ Taken taken w.outer.1.calls

variable {m : Machine υ τ Value} {Left : Stream'.Seq Value → υ → τ → Prop} {all : List Value}

theorem supplies_source (h : m.Produces Left) :
    (frame τ (Prod.fst (α := Recorded υ Value) (β := κ))).Supplies False Machine.Exactly
      (World.ofOuter m.watched) (SourceLeft Left all) where
  keeps ys s := by
    refine ⟨?_, ?_⟩
    · intro F w ⟨hF, _⟩ p hp
      rw [hF] at hp
      rw [show p = .caller from hp]
      trivial
    · intro F w w' ⟨hF, hleft, htaken⟩ _ hsame
      have hwatch : w'.outer.1 = w.outer.1 := hsame .caller (by rw [hF]; rfl)
      rw [SourceLeft, hwatch]
      exact ⟨hF, hleft, htaken⟩
  hasNext {F ys w s} hends hs := by
    obtain ⟨rfl, ⟨zs, n, hleft, hys⟩, taken, hall, htaken⟩ := hs
    cases ys with
    | nil =>
      -- nothing is known beyond the beginning, and nobody may ask there
      exact (hends rfl).elim
    | cons a ys =>
      show (((m.recorded.hasNext s).within Prod.fst fun v o => (v, o.2)).within outer
        putOuter).Returns w _
      refine (h.recorded_hasNext hleft).within.within.mono ?_
      intro r w' ⟨o, hw', v, ho, hr, hleft', hcalls⟩
      subst hw' ho
      refine ⟨?_, onCaller, step_onCaller _ _, rfl, ⟨zs, n, hleft', hys⟩, taken, hall, ?_⟩
      · obtain ⟨zs', n', rfl, -⟩ := exists_cons_of_take hys.symm
        rw [hr, Stream'.Seq.head_cons]
        rfl
      · show Taken taken v.calls
        rw [hcalls]
        exact htaken.more r.1
  next_cons {F a ys w s} hs := by
    obtain ⟨rfl, ⟨zs, n, hleft, hys⟩, taken, hall, htaken⟩ := hs
    obtain ⟨zs', n', rfl, hrest⟩ := exists_cons_of_take hys.symm
    show (((m.recorded.next s).within Prod.fst fun v o => (v, o.2)).within outer
      putOuter).Returns w _
    refine (h.recorded_next hleft).within.within.mono ?_
    intro r w' ⟨o, hw', v, ho, hr, hleft', hcalls⟩
    subst hw' ho
    refine ⟨⟨a, hr, rfl⟩, onCaller, step_onCaller _ _, rfl, ⟨zs', n', hleft', hrest⟩,
      taken ++ [a], ?_, ?_⟩
    · rw [List.append_assoc]
      exact hall
    · show Taken (taken ++ [a]) v.calls
      rw [hcalls]
      exact htaken.item a
  next_nil he _ := he.elim

end LazySeq
