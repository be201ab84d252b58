import LazySeq.Proofs.Stage.Tested

/-!
# Reading at most one element ahead

The cursor over an iterator asks it for an element only when nothing waits in its slot and the
iterator has never brought nothing. So of all that it was ever asked, everything but the last answer
was an element and was handed out, and what becomes of the last one is in the slot (`ReadAhead`).
The iterator may go on after it has brought nothing; it is not asked whether it does.
-/

namespace LazySeq

variable {ω τ : Type}

/-! ## What an iterator was asked -/

/-- The elements among the answers of an iterator before it first brought nothing. -/
def beforeEnd {α : Type} (answers : List (Option α)) : List α :=
  (answers.takeWhile Option.isSome).filterMap id

theorem beforeEnd_some {α : Type} (xs : List α) : beforeEnd (xs.map some) = xs := by
  simp [beforeEnd, List.takeWhile_map]

theorem beforeEnd_none {α : Type} (xs : List α) : beforeEnd (xs.map some ++ [none]) = xs := by
  simp [beforeEnd, List.takeWhile_append_of_pos]

/-- The cursor over an iterator has given `replies` and is left at `p` in the world `w`, and the
iterator has been asked for elements with these `answers`. -/
structure ReadAhead (replies : List (Reply Value)) (answers : List (Option Value))
    (p : Peeked (Iterator ω τ) Value) (w : World ω τ) : Prop where
  /-- the elements that were brought before nothing was are those handed out, in order, and the one
  that waits -/
  handed : Reply.items replies ++ p.slot.toList = beforeEnd answers
  /-- there was one question more than elements handed out if one waits or nothing was brought -/
  ahead : (∃ a, p.slot = .held a) ∨ none ∈ answers →
    answers.length = (Reply.items replies).length + 1
  /-- and otherwise as many questions as elements -/
  level : ¬((∃ a, p.slot = .held a) ∨ none ∈ answers) →
    answers.length = (Reply.items replies).length
  /-- whether more is left is asked again without a question to the iterator -/
  again {left : Bool} : replies.getLast? = some (.more left) → ∀ n,
    Iterator.machine.run (List.replicate n .hasNext) p w =
      .ok (List.replicate n (.more left), p) w
  /-- where nothing was brought, that was the last question -/
  final {before after : List (Option Value)} : answers = before ++ none :: after → after = []
  /-- and every call from then on is refused without one -/
  refused : none ∈ answers → ∀ later : List Ask,
    Iterator.machine.run later p w = .ok (later.map Ask.refusal, p) w

namespace Machine

variable {α : Type} {fetch : τ → Comp ω (Option α × τ)} {s : τ}

/-- Where every fetch answers, every schedule of calls is answered. -/
theorem returns_run_peek {I : τ → Prop}
    (hfetch : ∀ s w, I s → (fetch s).Returns w fun r _ => I r.2) {w : ω} (hs : I s)
    (asks : List Ask) :
    ((peek fetch).run asks (.fresh s)).Returns w fun r _ => I r.2.source := by
  have hfill (p : Peeked τ α) (w : ω) (hp : I p.source) :
      (fill fetch p).Returns w fun r _ => I r.2.source := by
    obtain ⟨s, slot⟩ := p
    cases slot with
    | held a => exact Comp.returns_pure.mpr hp
    | closed => exact Comp.returns_pure.mpr hp
    | empty =>
      refine (hfetch s w hp).bind ?_
      rintro ⟨answer, s⟩ w' hs
      cases answer with
      | none => exact Comp.returns_pure.mpr hs
      | some a => exact Comp.returns_pure.mpr hs
  refine returns_run (fun _ _ _ (p : Peeked τ α) => I p.source) (fun ask _ _ w p hp => ?_) asks hs
  refine returns_call (fun _ => hfill p w hp) fun _ => (hfill p w hp).bind ?_
  rintro ⟨held, s, slot⟩ w' hs
  cases slot with
  | held a => exact Comp.returns_pure.mpr hs
  | empty => exact Comp.returns_pure.mpr hs
  | closed => exact Comp.returns_pure.mpr hs

end Machine

section Account

variable {replies : List (Reply Value)} {s : Iterator ω τ} {w : World ω τ}

/-- While there was always an element, all that was brought was handed out or waits. -/
theorem readAhead_of_open {slot : Slot Value} (hopen : slot ≠ .closed)
    (hslot : Machine.SlotAfter replies slot) :
    ReadAhead replies ((Reply.items replies ++ slot.toList).map some) ⟨s, slot⟩ w where
  handed := (beforeEnd_some _).symm
  ahead h := by
    rcases h with ⟨a, rfl⟩ | hnone
    · simp [Slot.toList]
    · simp at hnone
  level h := by
    cases slot with
    | empty => simp [Slot.toList]
    | held a => exact absurd (.inl ⟨a, rfl⟩) h
    | closed => exact absurd rfl hopen
  again {left} hlast n := by
    cases left with
    | true =>
      obtain ⟨a, rfl⟩ := hslot.held hlast
      have hrun : Iterator.machine.run (List.replicate n .hasNext ++ []) ⟨s, .held a⟩ w =
          .ok (List.replicate n (.more true) ++ [], ⟨s, .held a⟩) w :=
        congrFun (Machine.run_held n []) w
      rwa [List.append_nil, List.append_nil] at hrun
    | false =>
      have hmem := List.mem_of_getLast? hlast
      exact absurd (hslot.closed ⟨_, hmem, rfl⟩) hopen
  final {before after} h := by
    have hmem : none ∈ (Reply.items replies ++ slot.toList).map some := by simp [h]
    simp at hmem
  refused h := by simp at h

/-- Where nothing was brought, all that was brought before was handed out. -/
theorem readAhead_of_closed (hslot : Machine.SlotAfter replies .closed) :
    ReadAhead replies ((Reply.items replies).map some ++ [none]) ⟨s, .closed⟩ w where
  handed := by rw [beforeEnd_none]; exact List.append_nil _
  ahead _ := by simp
  level h := absurd (.inr (by simp)) h
  again {left} hlast n := by
    cases left with
    | true =>
      obtain ⟨a, ha⟩ := hslot.held hlast
      cases ha
    | false =>
      refine (congrFun (Machine.run_closed (List.replicate n .hasNext)) w).trans ?_
      rw [List.map_replicate]
      rfl
  final {before after} h := by
    rcases eq_nil_or_of_concat_eq h with hafter | ⟨init, hinit⟩
    · exact hafter
    · have hmem : none ∈ (Reply.items replies).map some := by simp [hinit]
      simp at hmem
  refused _ later := congrFun (Machine.run_closed later) w

end Account

/-! ## Any iterator -/

open Machine

variable (pull : τ → Comp ω (Option Value × τ))

/-- What is kept while the iterator always brought an element: they are `out`. -/
def ReadOpen (notes : List (Deed Value)) (out : List Value) (w : World (Noted ω (Deed Value)) τ)
    (s : Iterator (Noted ω (Deed Value)) τ) : Prop :=
  w.outer.notes = notes ++ (out.map some).map .pulled ∧ ∃ t, s = .given (notedPull pull) t

/-- What is kept when it has brought nothing after `out`. -/
def ReadShut (notes : List (Deed Value)) (out : List Value) (w : World (Noted ω (Deed Value)) τ)
    (s : Iterator (Noted ω (Deed Value)) τ) : Prop :=
  w.outer.notes = notes ++ (out.map some ++ [none]).map .pulled ∧
    ∃ t, s = .given (notedPull pull) t

/-- The iterator is noted to be asked, and stays an iterator that is. -/
theorem yields_pull_noted (t : τ) (w : World (Noted ω (Deed Value)) τ) :
    (World.onOuter (Iterator.given (notedPull pull) t).pull).Yields
      (∀ t v, (pull t).Returns v fun _ _ => True) w fun r w' =>
        w'.outer.notes = w.outer.notes ++ [.pulled r.1] ∧
          ∃ t', r.2 = .given (notedPull pull) t' := by
  have hany : (pull t).Yields (∀ t v, (pull t).Returns v fun _ _ => True) w.outer.world
      fun _ _ => True :=
    Comp.yields_of_returns fun hpull => hpull t w.outer.world
  have hpull : (Iterator.given (notedPull pull) t).pull.Yields
      (∀ t v, (pull t).Returns v fun _ _ => True) w.outer fun r v =>
        v.notes = w.outer.notes ++ [.pulled r.1] ∧ ∃ t', r.2 = .given (notedPull pull) t' := by
    refine (hany.noting _).bind ?_
    rintro ⟨answer, t'⟩ v ⟨-, hv⟩
    exact Comp.yields_pure.mpr ⟨hv, t', rfl⟩
  refine hpull.within.mono ?_
  rintro r _ ⟨v, rfl, hv⟩
  exact hv

theorem brings_iterator (notes : List (Deed Value)) :
    Brings (fun s : Iterator (Noted ω (Deed Value)) τ => World.onOuter s.pull)
      (ReadOpen pull notes) (ReadShut pull notes) where
  fetch {out w s} := by
    rintro ⟨hnotes, t, rfl⟩
    refine (yields_pull_noted pull t w).ensures.mono ?_
    rintro ⟨answer, s⟩ w' ⟨hnotes', hs⟩
    cases answer with
    | some a => exact ⟨by simp [hnotes', hnotes], hs⟩
    | none => exact ⟨by simp [hnotes', hnotes], hs⟩

/-- Over any iterator, whatever it brings after it has brought nothing: to every schedule of calls,
the cursor over it reads no more than one element ahead. It answers if the iterator does. -/
theorem Iterator.reads_ahead (t : τ) (asks : List Ask) (w : World (Noted ω (Deed Value)) τ) :
    (Iterator.machine.run asks (.fresh (.given (notedPull pull) t))).Yields
      (∀ t v, (pull t).Returns v fun _ _ => True) w fun r w' =>
        ∃ answers, w'.outer.notes = w.outer.notes ++ answers.map .pulled ∧
          ReadAhead r.1 answers r.2 w' := by
  have hopen : ReadOpen pull w.outer.notes [] w (.given (notedPull pull) t) :=
    ⟨(List.append_nil _).symm, t, rfl⟩
  refine Comp.Ensures.yields ?_ fun hpull => ?_
  · rintro ⟨replies, s, slot⟩ w' hrun
    have hbrought := (brings_iterator pull w.outer.notes).run hopen asks _ _ hrun
    have hslot : SlotAfter replies slot := SlotAfter.run asks _ _ hrun
    cases slot with
    | closed => exact ⟨_, hbrought.1, readAhead_of_closed hslot⟩
    | empty => exact ⟨_, hbrought.1, readAhead_of_open nofun hslot⟩
    | held a => exact ⟨_, hbrought.1, readAhead_of_open nofun hslot⟩
  · have hfetch (s : Iterator (Noted ω (Deed Value)) τ) (w : World (Noted ω (Deed Value)) τ)
        (hs : ∃ t, s = .given (notedPull pull) t) :
        (World.onOuter s.pull).Returns w fun r _ => ∃ t, r.2 = .given (notedPull pull) t := by
      obtain ⟨t, rfl⟩ := hs
      exact ((yields_pull_noted pull t w).returns hpull).mono fun _ _ h => h.2
    exact (returns_run_peek hfetch ⟨t, rfl⟩ asks).mono fun _ _ _ => trivial

end LazySeq
