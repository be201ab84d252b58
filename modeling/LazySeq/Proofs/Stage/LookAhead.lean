import LazySeq.Cursor.Run
import LazySeq.Proofs.Noted

/-!
# Cursors that look ahead keep their word

Whatever the machine below does, a cursor that looks one element ahead on it is to be relied on
(`Machine.LooksAhead`). What it has announced it hands out, and what it has refused once it refuses
for ever; neither makes it touch the machine below again. It fails where it would have said that
nothing is left, and its only error is that it is exhausted.

This is so for every way to fetch (`Machine.looksAhead_peek`): of all that a schedule of calls
brought about, the slot remembers what matters (`SlotAfter`), and every call keeps that up. The
theorem about the five kinds of cursor is stated in a world in which every call below and every test
is noted, so that leaving the world as it is includes making no call and running no test.
-/

namespace LazySeq

variable {ω σ τ α : Type}

namespace Machine

/-! ## To be relied on -/

/-- A cursor that has given `replies` so far and now stands at `s` keeps its word. -/
structure KeepsWord (m : Machine ω σ α) (replies : List (Reply α)) (s : σ) (w : ω) : Prop where
  /-- what was announced last is announced again and handed out, and the world stays as it is -/
  announced : replies.getLast? = some (.more true) → ∀ n, ∃ a s',
    m.run (List.replicate n .hasNext ++ [.next]) s w =
      .ok (List.replicate n (.more true) ++ [.item (.ok a)], s') w
  /-- it fails where it would have said that nothing is left -/
  fails_iff : (∃ e s' w', m.next s w = .ok (.error e, s') w') ↔
    ∃ s' w', m.hasNext s w = .ok (false, s') w'
  exhausted (e : Error) : .item (.error e) ∈ replies → e = .exhausted
  /-- after one refusal there are only refusals, and the world stays as it is -/
  refused : (∃ reply ∈ replies, reply.Refuses) → ∀ later : List Ask,
    m.run later s w = .ok (later.map Ask.refusal, s) w

/-- Wherever a schedule of calls from `start` on leads, the cursor keeps its word. -/
def LooksAhead (m : Machine ω σ α) (start : σ) : Prop :=
  ∀ {asks : List Ask} {replies : List (Reply α)} {s : σ} {w w' : ω},
    m.run asks start w = .ok (replies, s) w' → m.KeepsWord replies s w'

/-! ## The slot -/

variable {fetch : σ → Comp ω (Option α × σ)} {s : σ} {a : α} {w : ω}

theorem peek_hasNext_held :
    (peek fetch).hasNext ⟨s, .held a⟩ = pure (true, ⟨s, .held a⟩) := rfl

theorem peek_next_held : (peek fetch).next ⟨s, .held a⟩ = pure (.ok a, ⟨s, .empty⟩) := rfl

theorem peek_hasNext_closed :
    (peek fetch).hasNext ⟨s, .closed⟩ = pure (false, ⟨s, .closed⟩) := rfl

theorem peek_next_closed :
    (peek fetch).next ⟨s, .closed⟩ = pure (.error .exhausted, ⟨s, .closed⟩) := rfl

/-- An announced element waits in the slot, however often it is announced again. -/
theorem run_held (n : Nat) (later : List Ask) :
    (peek fetch).run (List.replicate n .hasNext ++ later) ⟨s, .held a⟩ = (do
      let r ← (peek fetch).run later ⟨s, .held a⟩
      pure (List.replicate n (.more true) ++ r.1, r.2)) := by
  induction n with
  | zero => exact (bind_pure _).symm
  | succ n ih =>
    rw [List.replicate_succ, List.cons_append, Machine.run, Machine.call, peek_hasNext_held]
    simp only [pure_bind, ih, bind_assoc]
    rfl

/-- Nothing is fetched into a closed slot. -/
theorem run_closed (later : List Ask) :
    (peek fetch).run later ⟨s, .closed⟩ = pure (later.map Ask.refusal, ⟨s, .closed⟩) :=
  run_of_refuses peek_hasNext_closed peek_next_closed later

/-- What the slot has to do with the replies that were given. -/
structure SlotAfter (replies : List (Reply α)) (slot : Slot α) : Prop where
  held : replies.getLast? = some (.more true) → ∃ a, slot = .held a
  exhausted (e : Error) : .item (.error e) ∈ replies → e = .exhausted
  closed : (∃ reply ∈ replies, reply.Refuses) → slot = .closed

theorem slotAfter_nil (slot : Slot α) : SlotAfter [] slot := by
  refine ⟨?_, ?_, ?_⟩ <;> simp

/-- One more reply. An announcement has to be in the slot, and a refusal to close it. -/
theorem SlotAfter.snoc {replies : List (Reply α)} {slot slot' : Slot α} {reply : Reply α}
    (h : SlotAfter replies slot) (hheld : reply = .more true → ∃ a, slot' = .held a)
    (hexhausted : ∀ e, reply = .item (.error e) → e = .exhausted)
    (hstays : slot = .closed → slot' = .closed) (hcloses : reply.Refuses → slot' = .closed) :
    SlotAfter (replies ++ [reply]) slot' where
  held hlast := hheld (by simpa using hlast)
  exhausted e he := by
    rcases List.mem_append.mp he with he | he
    · exact h.exhausted e he
    · exact hexhausted e (List.mem_singleton.mp he).symm
  closed := by
    rintro ⟨r, hr, hrefuses⟩
    rcases List.mem_append.mp hr with hr | hr
    · exact hstays (h.closed ⟨r, hr, hrefuses⟩)
    · rw [List.mem_singleton.mp hr] at hrefuses
      exact hcloses hrefuses

/-- Filling an empty slot: an element is held, or the slot is closed. -/
theorem ensures_fill_empty :
    (fill fetch ⟨s, .empty⟩).Ensures w fun r _ =>
      (r.1 = true ∧ ∃ a, r.2.slot = .held a) ∨ (r.1 = false ∧ r.2.slot = .closed) := by
  have hany : (fetch s).Ensures w fun _ _ => True := fun _ _ _ => trivial
  refine hany.bind ?_
  intro ⟨answer, s⟩ w' _
  cases answer with
  | none => exact Comp.ensures_pure.mpr (.inr ⟨rfl, rfl⟩)
  | some a => exact Comp.ensures_pure.mpr (.inl ⟨rfl, a, rfl⟩)

/-- Every call keeps up what the slot remembers. -/
theorem SlotAfter.call {replies : List (Reply α)} {p : Peeked σ α}
    (h : SlotAfter replies p.slot) (ask : Ask) :
    ((peek fetch).call ask p).Ensures w fun r _ => SlotAfter (replies ++ [r.1]) r.2.slot := by
  obtain ⟨s, slot⟩ := p
  refine ensures_call ?_ ?_
  · intro _
    cases slot with
    | held a =>
      rw [peek_hasNext_held, Comp.ensures_pure]
      exact h.snoc (fun _ => ⟨a, rfl⟩) nofun id nofun
    | closed =>
      rw [peek_hasNext_closed, Comp.ensures_pure]
      exact h.snoc nofun nofun id fun _ => rfl
    | empty =>
      refine ensures_fill_empty.mono ?_
      rintro ⟨more, p⟩ w' (⟨rfl, hheld⟩ | ⟨rfl, hclosed⟩)
      · exact h.snoc (fun _ => hheld) nofun nofun nofun
      · exact h.snoc nofun nofun nofun fun _ => hclosed
  · intro _
    cases slot with
    | held a =>
      rw [peek_next_held, Comp.ensures_pure]
      exact h.snoc nofun nofun nofun nofun
    | closed =>
      rw [peek_next_closed, Comp.ensures_pure]
      refine h.snoc nofun ?_ id fun _ => rfl
      rintro e ⟨⟩
      rfl
    | empty =>
      refine ensures_fill_empty.bind ?_
      rintro ⟨more, s, slot⟩ w' (⟨-, a, rfl⟩ | ⟨-, rfl⟩)
      · exact Comp.ensures_pure.mpr (h.snoc nofun nofun nofun nofun)
      · refine Comp.ensures_pure.mpr (h.snoc nofun ?_ nofun fun _ => rfl)
        rintro e ⟨⟩
        rfl

/-- So does every schedule of calls. -/
theorem SlotAfter.run {p : Peeked σ α} (asks : List Ask) :
    ((peek fetch).run asks p).Ensures w fun r _ => SlotAfter r.1 r.2.slot :=
  ensures_run (fun replies _ (p : Peeked σ α) => SlotAfter replies p.slot)
    (fun ask _ _ _ h => h.call ask) asks (slotAfter_nil p.slot)

/-! ## Any way to fetch -/

/-- The next element is what the slot holds after it was filled. -/
theorem peek_next_eq (p : Peeked σ α) (w : ω) : (peek fetch).next p w =
    EStateM.bind (fill fetch p) (fun r => match r.2.slot with
      | .held a => pure (.ok a, ⟨r.2.source, .empty⟩)
      | _ => pure (.error .exhausted, r.2)) w := rfl

/-- Both calls begin by filling the slot. -/
theorem peek_next_fails_iff {p : Peeked σ α} :
    (∃ e p' w', (peek fetch).next p w = .ok (.error e, p') w') ↔
      ∃ p' w', (peek fetch).hasNext p w = .ok (false, p') w' := by
  obtain ⟨s, slot⟩ := p
  cases slot with
  | held a =>
    rw [peek_next_held, peek_hasNext_held]
    constructor
    · rintro ⟨e, p', w', ⟨⟩⟩
    · rintro ⟨p', w', ⟨⟩⟩
  | closed =>
    rw [peek_next_closed, peek_hasNext_closed]
    exact ⟨fun _ => ⟨_, _, rfl⟩, fun _ => ⟨_, _, _, rfl⟩⟩
  | empty =>
    have hhasNext : (peek fetch).hasNext ⟨s, .empty⟩ w = fill fetch ⟨s, .empty⟩ w := rfl
    rw [peek_next_eq, hhasNext, EStateM.bind]
    cases hfill : fill fetch ⟨s, .empty⟩ w with
    | error halt w' =>
      constructor
      · rintro ⟨e, p', w', ⟨⟩⟩
      · rintro ⟨p', w', ⟨⟩⟩
    | ok r w' =>
      obtain ⟨more, s', slot⟩ := r
      obtain ⟨hmore, a, hslot⟩ | ⟨hmore, hslot⟩ := ensures_fill_empty _ _ hfill
      · obtain rfl : more = true := hmore
        obtain rfl : slot = .held a := hslot
        constructor
        · rintro ⟨e, p', w', ⟨⟩⟩
        · rintro ⟨p', w', ⟨⟩⟩
      · obtain rfl : more = false := hmore
        obtain rfl : slot = .closed := hslot
        exact ⟨fun _ => ⟨_, _, rfl⟩, fun _ => ⟨_, _, _, rfl⟩⟩

theorem looksAhead_peek (p : Peeked σ α) : (peek fetch).LooksAhead p := by
  intro asks replies q w w' hrun
  have hslot : SlotAfter replies q.slot := SlotAfter.run asks _ _ hrun
  obtain ⟨s, slot⟩ := q
  refine ⟨fun hlast n => ?_, peek_next_fails_iff, hslot.exhausted, fun hrefused later => ?_⟩
  · obtain ⟨a, rfl⟩ := hslot.held hlast
    exact ⟨a, ⟨s, .empty⟩, by rw [run_held]; rfl⟩
  · obtain rfl := hslot.closed hrefused
    rw [run_closed]
    rfl

/-! ## The five kinds -/

/-- What a cursor that looks ahead does below. -/
inductive Deed (α : Type) where
  /-- an iterator was asked -/
  | pulled (answer : Option α)
  /-- a cursor was called -/
  | called (reply : Reply α)
  /-- a test was run -/
  | tested (a : α) (passed : Bool)

/-- A test, with a note of every run. -/
def notedTest (test : α → Comp ω Bool) (a : α) : Comp (Noted ω (Deed α)) Bool :=
  (test a).noting (.tested a)

/-- The pull of an iterator, with a note of what it brought. -/
def notedPull (pull : τ → Comp ω (Option α × τ)) (t : τ) :
    Comp (Noted ω (Deed α)) (Option α × τ) :=
  (pull t).noting fun r => .pulled r.1

/-- Over any iterator, and over any machine with any test, whatever they do: the cursors that look
ahead can be relied on. As every pull, every call and every test is noted in the world, none of them
is made where the world stays as it is. -/
theorem looksAhead_stages (pull : τ → Comp ω (Option Value × τ)) (t : τ) (m : Machine ω σ α)
    (test : α → Comp ω Bool) (win : Window) (fuel : Nat) (s : σ) :
    Iterator.machine.LooksAhead (.fresh (.given (notedPull pull) t)) ∧
      ((m.noted Deed.called).filter fuel (notedTest test)).LooksAhead (.fresh s) ∧
      ((m.noted Deed.called).takeWhile (notedTest test)).LooksAhead (.fresh s) ∧
      ((m.noted Deed.called).dropWhile fuel (notedTest test)).LooksAhead (.fresh ⟨s, true⟩) ∧
      ((m.noted Deed.called).slice fuel win).LooksAhead (.fresh ⟨s, 0⟩) :=
  ⟨looksAhead_peek _, looksAhead_peek _, looksAhead_peek _, looksAhead_peek _, looksAhead_peek _⟩

end Machine

end LazySeq
