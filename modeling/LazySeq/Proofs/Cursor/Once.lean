import LazySeq.Proofs.Cursor.HasLeft
import LazySeq.Proofs.Stage.LookAhead

/-!
# An iterator that is handed out once

All clones of a single-pass sequence share one cell with the iterator in it. Whoever starts a cursor
first takes the iterator out; all cursors started later walk over nothing. So whatever is started
and called in whatever order, the iterator is asked by one cursor alone. That cursor cannot be told
from the cursor over what the iterator gives before it brings nothing, and it refuses a call only
when the iterator has brought nothing (`cloneRun_once`).

The world of the caller notes every answer of the iterator, so a world that stays as it is shows
that the iterator was not asked. What it answers is settled by where it stands and by the world in
which it is asked (`Iterator.Gives`).
-/

namespace LazySeq

open Machine

variable {ω σ τ α : Type}

/-! ## Reading on, one element ahead -/

/-- A cursor that looks one element ahead was asked `asks` and gave `replies`, and while it did so
`answers` were fetched. Whatever the fetches to come bring (`later`), the replies so far are those of
the cursor over everything that is brought. A fetch that brings nothing is the last. -/
def Reads (asks : List Ask) (replies : List (Reply α)) (answers : List (Option α)) :
    Slot α → Prop
  | .empty => ∃ items, answers = items.map some ∧ ∀ later,
    ListCursor.run asks (items ++ later) = replies ∧ ListCursor.after asks (items ++ later) = later
  | .held a => ∃ items, answers = items.map some ∧ ∀ later,
    ListCursor.run asks (items ++ later) = replies ∧
      ListCursor.after asks (items ++ later) = a :: later
  | .closed => ∃ items, answers = items.map some ++ [none] ∧
    ListCursor.run asks items = replies ∧ ListCursor.after asks items = []

namespace Reads

variable {asks : List Ask} {replies : List (Reply α)} {answers : List (Option α)} {slot : Slot α}
variable {a : α}

theorem nil : Reads (α := α) [] [] [] .empty :=
  ⟨[], rfl, fun _ => ⟨rfl, rfl⟩⟩

theorem brought (h : Reads asks replies answers .empty) (a : α) :
    Reads asks replies (answers ++ [some a]) (.held a) := by
  obtain ⟨items, rfl, hrun⟩ := h
  refine ⟨items ++ [a], by simp, fun later => ?_⟩
  rw [List.append_assoc]
  exact hrun (a :: later)

theorem ended (h : Reads asks replies answers .empty) :
    Reads asks replies (answers ++ [none]) .closed := by
  obtain ⟨items, rfl, hrun⟩ := h
  have hnil := hrun []
  rw [List.append_nil] at hnil
  exact ⟨items, rfl, hnil⟩

theorem announce (h : Reads asks replies answers (.held a)) :
    Reads (asks ++ [.hasNext]) (replies ++ [.more true]) answers (.held a) := by
  obtain ⟨items, rfl, hrun⟩ := h
  refine ⟨items, rfl, fun later => ?_⟩
  rw [ListCursor.run_concat, ListCursor.after_concat, (hrun later).1, (hrun later).2]
  exact ⟨rfl, rfl⟩

theorem hand (h : Reads asks replies answers (.held a)) :
    Reads (asks ++ [.next]) (replies ++ [.item (.ok a)]) answers .empty := by
  obtain ⟨items, rfl, hrun⟩ := h
  refine ⟨items, rfl, fun later => ?_⟩
  rw [ListCursor.run_concat, ListCursor.after_concat, (hrun later).1, (hrun later).2]
  exact ⟨rfl, rfl⟩

theorem refuse (h : Reads asks replies answers .closed) (ask : Ask) :
    Reads (asks ++ [ask]) (replies ++ [ask.refusal]) answers .closed := by
  obtain ⟨items, rfl, hrun, hafter⟩ := h
  refine ⟨items, rfl, ?_, ?_⟩
  · rw [ListCursor.run_concat, hrun, hafter]
    cases ask <;> rfl
  · rw [ListCursor.after_concat, hafter]
    cases ask <;> rfl

/-- A call is refused only when a fetch has brought nothing: as long as none has, one more element
`b` may still come, and then it is left. -/
theorem closed_of_refuses (b : α) (h : Reads asks replies answers slot)
    (hrefuses : ∃ reply ∈ replies, reply.Refuses) : slot = .closed := by
  cases slot with
  | closed => rfl
  | empty =>
    obtain ⟨items, -, hrun⟩ := h
    obtain ⟨hreplies, hafter⟩ := hrun [b]
    rw [← hreplies] at hrefuses
    rw [ListCursor.after_eq_nil_of_refuses hrefuses] at hafter
    cases hafter
  | held a =>
    obtain ⟨items, -, hrun⟩ := h
    obtain ⟨hreplies, hafter⟩ := hrun []
    rw [← hreplies] at hrefuses
    rw [ListCursor.after_eq_nil_of_refuses hrefuses] at hafter
    cases hafter

/-- In any case the replies are those of the cursor over what was brought so far. -/
theorem run_eq (h : Reads asks replies answers slot) : ∃ items,
    (answers = items.map some ∨ answers = items.map some ++ [none]) ∧
      replies = ListCursor.run asks items ∧
      (slot = .closed → answers = items.map some ++ [none]) := by
  cases slot with
  | empty =>
    obtain ⟨items, hanswers, hrun⟩ := h
    exact ⟨items, .inl hanswers, by simpa using (hrun []).1.symm, nofun⟩
  | held a =>
    obtain ⟨items, hanswers, hrun⟩ := h
    exact ⟨items, .inl hanswers, by simpa using (hrun []).1.symm, nofun⟩
  | closed =>
    obtain ⟨items, hanswers, hrun, -⟩ := h
    exact ⟨items, .inr hanswers, hrun.symm, fun _ => hanswers⟩

variable {fetch : σ → Comp ω (Option α × σ)} {sure : Prop}

/-- One call, where `noted` tells what every fetch brought. -/
theorem call (noted : ω → List (Option α)) {P : σ → ω → Prop}
    (hfetch : ∀ s w, P s w → (fetch s).Yields sure w fun r w' =>
      noted w' = noted w ++ [r.1] ∧ P r.2 w')
    {p : Peeked σ α} {w : ω} (hp : P p.source w) (h : Reads asks replies answers p.slot)
    (ask : Ask) :
    ((peek fetch).call ask p).Yields sure w fun r w' => ∃ new, noted w' = noted w ++ new ∧
      P r.2.source w' ∧ Reads (asks ++ [ask]) (replies ++ [r.1]) (answers ++ new) r.2.slot := by
  have hfill : (fill fetch p).Yields sure w fun r w' => ∃ new, noted w' = noted w ++ new ∧
      P r.2.source w' ∧ Reads asks replies (answers ++ new) r.2.slot ∧
        ((r.1 = true ∧ ∃ a, r.2.slot = .held a) ∨ (r.1 = false ∧ r.2.slot = .closed)) := by
    obtain ⟨s, slot⟩ := p
    cases slot with
    | held a => exact Comp.yields_pure.mpr ⟨[], by simp, hp, by simpa using h, .inl ⟨rfl, a, rfl⟩⟩
    | closed => exact Comp.yields_pure.mpr ⟨[], by simp, hp, by simpa using h, .inr ⟨rfl, rfl⟩⟩
    | empty =>
      refine (hfetch s w hp).bind ?_
      rintro ⟨answer, s⟩ w' ⟨hnoted, hp⟩
      cases answer with
      | none => exact Comp.yields_pure.mpr ⟨[none], hnoted, hp, h.ended, .inr ⟨rfl, rfl⟩⟩
      | some a =>
        exact Comp.yields_pure.mpr ⟨[some a], hnoted, hp, h.brought a, .inl ⟨rfl, a, rfl⟩⟩
  cases ask with
  | hasNext =>
    refine hfill.bind ?_
    rintro ⟨more, s, slot⟩ w' ⟨new, hnoted, hp, h, ⟨rfl, a, rfl⟩ | ⟨rfl, rfl⟩⟩
    · exact Comp.yields_pure.mpr ⟨new, hnoted, hp, h.announce⟩
    · exact Comp.yields_pure.mpr ⟨new, hnoted, hp, h.refuse .hasNext⟩
  | next =>
    have hnext : ((peek fetch).next p).Yields sure w fun r w' => ∃ new,
        noted w' = noted w ++ new ∧ P r.2.source w' ∧
          Reads (asks ++ [.next]) (replies ++ [.item r.1]) (answers ++ new) r.2.slot := by
      refine hfill.bind ?_
      rintro ⟨more, s, slot⟩ w' ⟨new, hnoted, hp, h, ⟨-, a, rfl⟩ | ⟨-, rfl⟩⟩
      · exact Comp.yields_pure.mpr ⟨new, hnoted, hp, h.hand⟩
      · exact Comp.yields_pure.mpr ⟨new, hnoted, hp, h.refuse .next⟩
    exact hnext.bind fun r w' hr => Comp.yields_pure.mpr hr

end Reads

/-! ## One call of a cursor on an iterator -/

namespace Cursor

/-- A cursor on nothing, or on an iterator that has brought nothing. -/
def OnNothing (c : Cursor ω τ) : Prop :=
  ∃ p, c = reading p ∧ (p.slot = .closed ∨ p = .fresh (.list []))

/-- It refuses, and touches nothing. -/
theorem OnNothing.call {c : Cursor ω τ} (h : OnNothing c) (n : Nat) (ask : Ask) (w : World ω τ) :
    ((machine (n + 1)).call ask c).Returns w fun r w' =>
      r.1 = ask.refusal ∧ w' = w ∧ OnNothing r.2 := by
  obtain ⟨⟨s, slot⟩, rfl, hslot⟩ := h
  rw [machine_call reading rfl]
  rcases hslot with hclosed | hfresh
  · obtain rfl : slot = .closed := hclosed
    have hstays : OnNothing (reading ⟨s, .closed⟩ : Cursor ω τ) := ⟨_, rfl, .inl rfl⟩
    cases ask <;> exact ⟨_, _, rfl, rfl, rfl, hstays⟩
  · -- the first call looks, and finds nothing
    rw [hfresh]
    have hlooked : OnNothing (reading ⟨.list [], .closed⟩ : Cursor ω τ) := ⟨_, rfl, .inl rfl⟩
    cases ask <;> exact ⟨_, _, rfl, rfl, rfl, hlooked⟩

theorem OnNothing.run {c : Cursor ω τ} (h : OnNothing c) (n : Nat) (asks : List Ask)
    (w : World ω τ) : ((machine (n + 1)).run asks c).Returns w fun r w' =>
      r.1 = asks.map Ask.refusal ∧ w' = w := by
  induction asks generalizing c with
  | nil => exact Comp.returns_pure.mpr ⟨rfl, rfl⟩
  | cons ask asks ih =>
    refine (h.call n ask w).bind ?_
    rintro ⟨reply, c⟩ _ ⟨rfl, rfl, h⟩
    refine (ih h).bind ?_
    rintro ⟨replies, c⟩ _ ⟨rfl, rfl⟩
    exact Comp.returns_pure.mpr ⟨rfl, rfl⟩

end Cursor

/-! ## Cursors on the clones -/

/-- A step of a caller that holds clones: starting one more cursor on a clone, or calling cursor `k`
of those that were started. -/
inductive CloneAsk where
  | start
  | call (k : Nat) (ask : Ask)

/-- A call that was made, with its reply, and what the iterator answered meanwhile. -/
structure Visit where
  cursor : Nat
  ask : Ask
  reply : Reply Value
  answers : List (Option Value)

/-- A world with a note of every answer of the iterator. -/
abbrev Answered (ω : Type) : Type := Noted ω (Option Value)

/-- Asked again and again from `t` on in the world `o`, the iterator has answered with `answers` and
come to `t'` and `o'`. -/
inductive Iterator.Gives {α : Type} (pull : τ → Comp ω (Option α × τ)) (t : τ) (o : ω) :
    List (Option α) → τ → ω → Prop where
  | unasked : Gives pull t o [] t o
  | asked {answers : List (Option α)} {answer : Option α} {t' t'' : τ} {o' o'' : ω} :
    Gives pull t o answers t' o' → pull t' o' = .ok (answer, t'') o'' →
      Gives pull t o (answers ++ [answer]) t'' o''

/-- An iterator of the caller, with a note of every answer. -/
def Iterator.answering (pull : τ → Comp ω (Option Value × τ)) (t : τ) :
    Iterator (Answered ω) τ :=
  .given (fun t => (pull t).noting Prod.fst) t

namespace Sequence

/-- Makes one step. To clone a sequence is to have it twice, so it does not matter on which clone a
cursor is started. A call on a cursor that was not started yet is skipped. -/
def cloneStep (fuel : Nat) (of : Sequence (Answered ω) τ) :
    CloneAsk → List (Cursor (Answered ω) τ) →
      Comp (World (Answered ω) τ) (List Visit × List (Cursor (Answered ω) τ))
  | .start, cs => do
    let c ← of.start
    return ([], cs ++ [c])
  | .call k ask, cs =>
    match cs[k]? with
    | some c => do
      let before ← get
      let (reply, c) ← (Cursor.machine fuel).call ask c
      let after ← get
      let answers := after.outer.notes.drop before.outer.notes.length
      return ([⟨k, ask, reply, answers⟩], cs.set k c)
    | none => return ([], cs)

/-- Makes the steps of a schedule, in order. -/
def cloneRun (fuel : Nat) (of : Sequence (Answered ω) τ) :
    List CloneAsk → List (Cursor (Answered ω) τ) →
      Comp (World (Answered ω) τ) (List Visit × List (Cursor (Answered ω) τ))
  | [], cs => return ([], cs)
  | ask :: asks, cs => do
    let (visits, cs) ← of.cloneStep fuel ask cs
    let (rest, cs) ← of.cloneRun fuel asks cs
    return (visits ++ rest, cs)

end Sequence

/-- The calls on the cursor that was started first. -/
def Visit.first (visits : List Visit) : List Visit :=
  visits.filter (·.cursor = 0)

/-- A call that was refused without asking the iterator. -/
def Visit.Refused (v : Visit) : Prop :=
  v.reply = v.ask.refusal ∧ v.answers = []

section Once

variable {pull : τ → Comp ω (Option Value × τ)} {t : τ} {cell n : Nat} {before : Answered ω}
variable {visits : List Visit} {cs : List (Cursor (Answered ω) τ)}
variable {w : World (Answered ω) τ} {sure : Prop}

/-- The iterator `it` of the first cursor, which nobody else can reach: it stood at `t` in the world
`before`, and whatever it has answered since is noted. -/
structure Owned (pull : τ → Comp ω (Option Value × τ)) (t : τ) (cell : Nat) (before : Answered ω)
    (it : Iterator (Answered ω) τ) (w : World (Answered ω) τ) : Prop where
  empty : w.passes.getD cell none = none
  given : ∃ t' answers, it = .answering pull t' ∧ w.outer.notes = before.notes ++ answers ∧
    Iterator.Gives pull t before.world answers t' w.outer.world

/-- The iterator was taken by the first of the cursors `cs`, and `visits` are the calls since. -/
structure Spent (pull : τ → Comp ω (Option Value × τ)) (t : τ) (cell : Nat) (before : Answered ω)
    (visits : List Visit) (cs : List (Cursor (Answered ω) τ))
    (w : World (Answered ω) τ) : Prop where
  notes_eq : w.outer.notes = before.notes ++ visits.flatMap Visit.answers
  reads : ∃ p others, cs = .reading p :: others ∧ (∀ c ∈ others, c.OnNothing) ∧
    Owned pull t cell before p.source w ∧
    Reads ((Visit.first visits).map Visit.ask) ((Visit.first visits).map Visit.reply)
      ((Visit.first visits).flatMap Visit.answers) p.slot
  refused : ∀ v ∈ visits, v.cursor ≠ 0 → v.Refused

/-- To ask the iterator notes its answer, and changes nothing else. -/
theorem Owned.asked (hsure : sure → ∀ t o, (pull t).Returns o fun _ _ => True)
    (it : Iterator (Answered ω) τ) (w : World (Answered ω) τ) (h : Owned pull t cell before it w) :
    (World.onOuter it.pull : Comp (World (Answered ω) τ) _).Yields sure w fun r w' =>
      w'.outer.notes = w.outer.notes ++ [r.1] ∧ Owned pull t cell before r.2 w' := by
  obtain ⟨hempty, t', answers, rfl, hnotes, hgives⟩ := h
  have hpull : (pull t').Yields sure w.outer.world fun r o => pull t' w.outer.world = .ok r o :=
    Comp.yields_eq_of_returns fun h => hsure h t' w.outer.world
  have hanswer : (Iterator.pull (.answering pull t')).Yields sure w.outer fun r o =>
      o.notes = w.outer.notes ++ [r.1] ∧ ∃ t'', r.2 = .answering pull t'' ∧
        pull t' w.outer.world = .ok (r.1, t'') o.world := by
    refine (hpull.noting Prod.fst).bind ?_
    rintro ⟨answer, t''⟩ o ⟨hok, hnoted⟩
    exact Comp.yields_pure.mpr ⟨hnoted, t'', rfl, hok⟩
  refine hanswer.within.mono ?_
  rintro ⟨answer, it⟩ _ ⟨o, rfl, hnoted, t'', rfl, hok⟩
  refine ⟨hnoted, hempty, t'', answers ++ [answer], rfl, ?_, hgives.asked hok⟩
  show o.notes = before.notes ++ (answers ++ [answer])
  rw [hnoted, hnotes, List.append_assoc]

theorem Spent.start (h : Spent pull t cell before visits cs w) :
    ((Sequence.once cell).start).Returns w fun c w' => w' = w ∧ c.OnNothing := by
  obtain ⟨-, ⟨p, others, -, -, howned, -⟩, -⟩ := h
  rw [Sequence.start, Comp.returns_bind, World.takePass, Comp.returns_bind, Comp.returns_get,
    howned.empty]
  exact Comp.returns_pure.mpr (Comp.returns_pure.mpr ⟨rfl, _, rfl, .inr rfl⟩)

/-- A call on the first cursor reads on. -/
theorem Spent.call_first (hsure : sure → ∀ t o, (pull t).Returns o fun _ _ => True)
    (h : Spent pull t cell before visits cs w) (ask : Ask) :
    ((Sequence.once cell).cloneStep (n + 1) (.call 0 ask) cs).Yields sure w fun r w' =>
      Spent pull t cell before (visits ++ r.1) r.2 w' := by
  obtain ⟨hnotes, ⟨p, others, rfl, hothers, howned, hreads⟩, hrefused⟩ := h
  have hpeek := hreads.call (fun w : World (Answered ω) τ => w.outer.notes) (Owned.asked hsure)
    howned ask
  rw [Sequence.cloneStep, List.getElem?_cons_zero]
  dsimp only
  rw [Comp.yields_bind, Comp.yields_get, Cursor.machine_call Cursor.reading rfl, bind_assoc]
  refine hpeek.bind ?_
  rintro ⟨reply, p⟩ w' ⟨new, hnew, howned, hreads⟩
  rw [pure_bind]
  dsimp only at hnew hreads ⊢
  rw [Comp.yields_bind, Comp.yields_get, Comp.yields_pure, hnew, List.drop_left]
  refine ⟨?_, ⟨p, others, rfl, hothers, howned, ?_⟩, ?_⟩
  · rw [hnew, hnotes]
    simp
  · simpa [Visit.first] using hreads
  · intro v hv hother
    rcases List.mem_append.mp hv with hv | hv
    · exact hrefused v hv hother
    · rw [List.mem_singleton.mp hv] at hother
      exact absurd rfl hother

/-- A call on another cursor is refused, and the world stays as it is. -/
theorem Spent.call_other (h : Spent pull t cell before visits cs w) {k : Nat} (hk : k ≠ 0)
    (ask : Ask) :
    ((Sequence.once cell).cloneStep (n + 1) (.call k ask) cs).Yields sure w fun r w' =>
      Spent pull t cell before (visits ++ r.1) r.2 w' := by
  obtain ⟨hnotes, ⟨p, others, rfl, hothers, hp⟩, hrefused⟩ := h
  obtain ⟨j, rfl⟩ := Nat.exists_eq_succ_of_ne_zero hk
  rw [Sequence.cloneStep, List.getElem?_cons_succ]
  cases hc : others[j]? with
  | none =>
    refine Comp.yields_pure.mpr ?_
    rw [List.append_nil]
    exact ⟨hnotes, ⟨p, others, rfl, hothers, hp⟩, hrefused⟩
  | some c =>
    dsimp only
    rw [Comp.yields_bind, Comp.yields_get]
    have hnothing := hothers c (List.mem_of_getElem? hc)
    refine (hnothing.call n ask w).yields.bind ?_
    rintro ⟨reply, c⟩ _ ⟨rfl, rfl, hc⟩
    rw [Comp.yields_bind, Comp.yields_get, Comp.yields_pure, List.drop_length]
    refine ⟨?_, ⟨p, others.set j c, rfl, ?_, ?_⟩, ?_⟩
    · rw [hnotes]
      simp
    · intro d hd
      rcases List.mem_or_eq_of_mem_set hd with hd | rfl
      · exact hothers d hd
      · exact hc
    · simpa [Visit.first] using hp
    · intro v hv hother
      rcases List.mem_append.mp hv with hv | hv
      · exact hrefused v hv hother
      · rw [List.mem_singleton.mp hv]
        exact ⟨rfl, rfl⟩

theorem Spent.step (hsure : sure → ∀ t o, (pull t).Returns o fun _ _ => True)
    (h : Spent pull t cell before visits cs w) (ask : CloneAsk) :
    ((Sequence.once cell).cloneStep (n + 1) ask cs).Yields sure w fun r w' =>
      Spent pull t cell before (visits ++ r.1) r.2 w' := by
  cases ask with
  | start =>
    refine h.start.yields.bind ?_
    rintro c _ ⟨rfl, hc⟩
    obtain ⟨hnotes, ⟨p, others, rfl, hothers, hp⟩, hrefused⟩ := h
    refine Comp.yields_pure.mpr ?_
    rw [List.append_nil]
    refine ⟨hnotes, ⟨p, others ++ [c], rfl, ?_, hp⟩, hrefused⟩
    intro d hd
    rcases List.mem_append.mp hd with hd | hd
    · exact hothers d hd
    · rw [List.mem_singleton.mp hd]
      exact hc
  | call k ask =>
    by_cases hk : k = 0
    · subst hk
      exact h.call_first hsure ask
    · exact h.call_other hk ask

theorem Spent.run (hsure : sure → ∀ t o, (pull t).Returns o fun _ _ => True)
    {asks : List CloneAsk} (h : Spent pull t cell before visits cs w) :
    ((Sequence.once cell).cloneRun (n + 1) asks cs).Yields sure w fun r w' =>
      Spent pull t cell before (visits ++ r.1) r.2 w' := by
  induction asks generalizing visits cs w with
  | nil => exact Comp.yields_pure.mpr (by simpa using h)
  | cons ask asks ih =>
    refine (h.step hsure ask).bind ?_
    rintro ⟨new, cs⟩ w' h
    refine (ih h).bind ?_
    rintro ⟨rest, cs⟩ w'' h
    refine Comp.yields_pure.mpr ?_
    rw [← List.append_assoc]
    exact h

/-- Until a cursor is started nothing can be called, and the first that is started takes the
iterator. -/
theorem cloneRun_untaken (hsure : sure → ∀ t o, (pull t).Returns o fun _ _ => True)
    (hcell : w.passes[cell]? = some (some (.answering pull t))) (asks : List CloneAsk) :
    ((Sequence.once cell).cloneRun (n + 1) asks []).Yields sure w fun r w' =>
      (r = ([], []) ∧ w' = w) ∨ Spent pull t cell w.outer r.1 r.2 w' := by
  induction asks with
  | nil => exact Comp.yields_pure.mpr (.inl ⟨rfl, rfl⟩)
  | cons ask asks ih =>
    cases ask with
    | call k ask =>
      refine ih.bind ?_
      intro _ w' hr
      exact Comp.yields_pure.mpr hr
    | start =>
      have hget : w.passes.getD cell none = some (.answering pull t) := by
        rw [Array.getD_eq_getD_getElem?, hcell]
        rfl
      have hlt : cell < w.passes.size := (Array.getElem?_eq_some_iff.mp hcell).1
      have htake : (World.takePass cell).Returns w fun it w' => it = .answering pull t ∧
          w' = { w with passes := w.passes.setIfInBounds cell none } := by
        rw [World.takePass, Comp.returns_bind, Comp.returns_get, hget]
        dsimp only
        rw [Comp.returns_bind, Comp.returns_set, Comp.returns_pure]
        exact ⟨rfl, rfl⟩
      have hstart : ((Sequence.once cell).cloneStep (n + 1) .start []).Returns w fun r w' =>
          r.1 = [] ∧ Spent pull t cell w.outer [] r.2 w' := by
        rw [Sequence.cloneStep, Sequence.start, bind_assoc]
        refine htake.bind ?_
        rintro _ _ ⟨rfl, rfl⟩
        have hnow : Owned pull t cell w.outer (.answering pull t)
            { w with passes := w.passes.setIfInBounds cell none } := by
          refine ⟨?_, t, [], rfl, (List.append_nil _).symm, .unasked⟩
          simp [Array.getD_eq_getD_getElem?, hlt]
        exact Comp.returns_pure.mpr ⟨rfl, by simp, ⟨_, [], rfl, nofun, hnow, .nil⟩, nofun⟩
      refine hstart.yields.bind ?_
      rintro ⟨new, cs⟩ w' ⟨rfl, hspent⟩
      refine (hspent.run hsure).bind ?_
      rintro ⟨rest, cs⟩ w'' hspent
      exact Comp.yields_pure.mpr (.inr hspent)

/-- The calls that were refused delivered nothing. -/
theorem items_first (hrefused : ∀ v ∈ visits, v.cursor ≠ 0 → v.Refused) :
    Reply.items (visits.map Visit.reply) = Reply.items ((Visit.first visits).map Visit.reply) := by
  induction visits with
  | nil => rfl
  | cons v visits ih =>
    have hrest := ih fun u hu => hrefused u (List.mem_cons_of_mem v hu)
    have hsplit (l : List (Reply Value)) :
        Reply.items (v.reply :: l) = Reply.items [v.reply] ++ Reply.items l :=
      Reply.items_append [v.reply] l
    rw [List.map_cons, hsplit, hrest]
    by_cases hv : v.cursor = 0
    · have hfirst : Visit.first (v :: visits) = v :: Visit.first visits := by
        simp [Visit.first, hv]
      rw [hfirst, List.map_cons]
      exact (hsplit _).symm
    · have hfirst : Visit.first (v :: visits) = Visit.first visits := by simp [Visit.first, hv]
      have hnothing : Reply.items [v.reply] = [] := by
        rw [(hrefused v List.mem_cons_self hv).1]
        cases v.ask <;> rfl
      rw [hfirst, hnothing, List.nil_append]

/-- One cursor reads an iterator that gives `items`, and the others find nothing: what a run over the
clones shows, with the calls `visits` and the cursors `cs`, where the iterator stood at `t` in the
world `before`. -/
structure ReadOnce (n : Nat) (pull : τ → Comp ω (Option Value × τ)) (t : τ) (before : Answered ω)
    (items : List Value) (visits : List Visit) (cs : List (Cursor (Answered ω) τ))
    (w : World (Answered ω) τ) : Prop where
  /-- what the calls saw the iterator answer is what it gives, asked from `t` on -/
  gives : ∃ t', Iterator.Gives pull t before.world (visits.flatMap Visit.answers) t' w.outer.world
  /-- and it was asked in no other way -/
  notes_eq : w.outer.notes = before.notes ++ visits.flatMap Visit.answers
  /-- the first cursor has asked it for its items, and no further than its end -/
  answers_eq : (Visit.first visits).flatMap Visit.answers = items.map some ∨
    (Visit.first visits).flatMap Visit.answers = items.map some ++ [none]
  /-- that cursor is the cursor over the items -/
  replies_eq : (Visit.first visits).map Visit.reply =
    ListCursor.run ((Visit.first visits).map Visit.ask) items
  /-- it refuses a call only when the iterator has come to its end and all items are handed out -/
  exhausted : (∃ v ∈ Visit.first visits, v.reply.Refuses) →
    (Visit.first visits).flatMap Visit.answers = items.map some ++ [none] ∧
      Reply.items ((Visit.first visits).map Visit.reply) = items
  /-- no other cursor has delivered anything or asked the iterator -/
  refused : ∀ v ∈ visits, v.cursor ≠ 0 → v.Refused
  /-- whatever were asked of another cursor, or of the first after it has refused a call, it would
  refuse and leave the world as it is -/
  refuses : ∀ k c, cs[k]? = some c → (k = 0 → ∃ v ∈ Visit.first visits, v.reply.Refuses) →
    ∀ later, ((Cursor.machine n).run later c).Returns w fun r w' =>
      r.1 = later.map Ask.refusal ∧ w' = w
  /-- what was delivered by all cursors together, each item once and in order -/
  delivered : Reply.items (visits.map Visit.reply) <+: items

theorem Spent.readOnce (h : Spent pull t cell before visits cs w) :
    ∃ items, ReadOnce (n + 1) pull t before items visits cs w := by
  obtain ⟨hnotes, ⟨p, others, rfl, hothers, ⟨-, t', answers, -, hanswers, hgives⟩, hreads⟩,
    hrefused⟩ := h
  obtain ⟨items, hbrought, hreplies, hended⟩ := hreads.run_eq
  have hall : visits.flatMap Visit.answers = answers :=
    List.append_cancel_left (hnotes.symm.trans hanswers)
  have hclosed : (∃ v ∈ Visit.first visits, v.reply.Refuses) → p.slot = .closed := by
    rintro ⟨v, hv, hrefuses⟩
    exact hreads.closed_of_refuses .null ⟨v.reply, List.mem_map_of_mem hv, hrefuses⟩
  refine ⟨items, ⟨t', hall ▸ hgives⟩, hnotes, hbrought, hreplies, ?_, hrefused, ?_, ?_⟩
  · intro hrefuses
    refine ⟨hended (hclosed hrefuses), ?_⟩
    obtain ⟨v, hv, hrefuses⟩ := hrefuses
    rw [hreplies]
    apply ListCursor.items_run_of_refuses
    rw [← hreplies]
    exact ⟨v.reply, List.mem_map_of_mem hv, hrefuses⟩
  · intro k c hc hfirst later
    cases k with
    | zero =>
      obtain rfl : Cursor.reading p = c := Option.some.inj hc
      have hnothing : (Cursor.reading p).OnNothing := ⟨p, rfl, .inl (hclosed (hfirst rfl))⟩
      exact hnothing.run n later w
    | succ j =>
      rw [List.getElem?_cons_succ] at hc
      exact (hothers c (List.mem_of_getElem? hc)).run n later w
  · rw [items_first hrefused, hreplies, ListCursor.items_run]
    exact List.take_prefix _ _

/-- An iterator is put into a new cell, and cursors are started on clones of the sequence over the
cell and called, in any order. Every step returns if the iterator always answers. In any case the
iterator is asked by the cursor that was started first and by no other: that cursor hands out what
the iterator gives before it brings nothing, and refuses every call from then on and none before. -/
theorem cloneRun_once (pull : τ → Comp ω (Option Value × τ)) (t : τ) (w : World (Answered ω) τ)
    (n : Nat) (asks : List CloneAsk) :
    ((Sequence.once w.passes.size).cloneRun (n + 1) asks []).Yields
      (∀ t o, (pull t).Returns o fun _ _ => True)
      { w with passes := w.passes.push (some (.answering pull t)) } fun r w' =>
        ∃ items, ReadOnce (n + 1) pull t w.outer items r.1 r.2 w' := by
  refine (cloneRun_untaken (t := t) id (by simp) asks).mono ?_
  rintro ⟨visits, cs⟩ w' (⟨h, rfl⟩ | h)
  · obtain ⟨rfl, rfl⟩ := Prod.mk.inj h
    exact ⟨[], ⟨t, .unasked⟩, by simp, .inl rfl, rfl, by simp [Visit.first], nofun, by simp,
      ⟨[], rfl⟩⟩
  · exact h.readOnce

end Once

end LazySeq
