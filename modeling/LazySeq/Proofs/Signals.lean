import LazySeq.Proofs.Named

/-!
# Counting signals

What the signals of cursors with names add up to: how many cursors were begun, how often one was
asked whether it has an element left, how often a certain one was asked for an element. And what a
call adds to the signals, whatever the cursor below does, and beside what is known of that cursor.
-/

namespace LazySeq

namespace Signal

/-! ## Counts -/

/-- How many cursors were begun. -/
def begun (signals : List Signal) : Nat :=
  signals.countP fun
    | begins _ => true
    | _ => false

/-- How often it was asked whether an element is left. -/
def questions (signals : List Signal) : Nat :=
  signals.countP fun
    | asks _ .hasNext => true
    | _ => false

/-- How often cursor `i` was asked for an element. -/
def pulls (i : Nat) (signals : List Signal) : Nat :=
  signals.count (.asks i .next)

section Append

variable (signals signals' : List Signal) (i j : Nat)

@[simp]
theorem begun_append : begun (signals ++ signals') = begun signals + begun signals' :=
  List.countP_append

@[simp]
theorem questions_append :
    questions (signals ++ signals') = questions signals + questions signals' :=
  List.countP_append

@[simp]
theorem pulls_append : pulls i (signals ++ signals') = pulls i signals + pulls i signals' :=
  List.count_append

@[simp]
theorem begun_begins : begun [begins i] = 1 := rfl

@[simp]
theorem begun_call (ask : Ask) (reply : Reply Unit) :
    begun [asks i ask, replies i reply] = 0 := rfl

@[simp]
theorem pulls_hasNext (reply : Reply Unit) :
    pulls i [asks j .hasNext, replies j reply] = 0 := by
  simp [pulls]

theorem pulls_next (reply : Reply Unit) :
    pulls i [asks j .next, replies j reply] = if j = i then 1 else 0 := by
  by_cases h : j = i
  · simp [pulls, h]
  · simp [pulls, h]

end Append

end Signal

/-! ## What a call signals -/

variable {ω σ α : Type} {m : Machine ω σ α} {start : Comp ω σ} {v : Noted ω Signal} {c : Nat × σ}

/-- Starts a cursor and gives it a name. -/
def enrolStart (start : Comp ω σ) : Comp (Noted ω Signal) (Nat × σ) := do
  enrol (← Noted.below start)

section Ensures

/-- Nothing is asked of the signals. -/
private abbrev anySignals (_ : List Signal) : Prop := True

theorem ensures_enrolStart :
    (enrolStart start).Ensures v fun c v' => v'.notes = v.notes ++ [.begins c.1] := by
  refine ((Noted.upholds_below (I := anySignals) trivial).bind fun s v₁ _ hnotes₁ => ?_).ensures
  refine (upholds_enrol_of (I := anySignals) trivial trivial).mono fun c v₂ hc => ?_
  rw [hc.2, hc.1, hnotes₁]

theorem ensures_named_hasNext :
    (m.named.hasNext c).Ensures v fun r v' => r.2.1 = c.1 ∧
      v'.notes = v.notes ++ [.asks c.1 .hasNext, .replies c.1 (.more r.1)] := by
  refine (upholds_named_hasNext_of (I := anySignals) trivial fun _ => trivial).ensures.mono ?_
  intro r v' ⟨hname, hnotes⟩
  exact ⟨hname, by rw [hnotes, List.append_assoc]; rfl⟩

theorem ensures_named_next :
    (m.named.next c).Ensures v fun r v' => r.2.1 = c.1 ∧
      v'.notes = v.notes ++ [.asks c.1 .next, .replies c.1 (Reply.item r.1).plain] := by
  refine (upholds_named_next_of (I := anySignals) trivial fun _ => trivial).ensures.mono ?_
  intro r v' ⟨hname, hnotes⟩
  exact ⟨hname, by rw [hnotes, List.append_assoc]; rfl⟩

end Ensures

/-! ## Beside what is known of the cursor -/

private theorem returns_note (e : Signal) :
    (Noted.note e).Returns v fun _ v' => v' = ⟨v.world, v.notes ++ [e]⟩ :=
  Comp.returns_modify.mpr rfl

theorem Comp.Returns.below {act : Comp ω α} {w : ω} {notes : List Signal} {P : α → ω → Prop}
    (h : act.Returns w P) :
    (Noted.below act).Returns ⟨w, notes⟩ fun a v' => P a v'.world ∧ v'.notes = notes := by
  refine h.within.mono ?_
  rintro a _ ⟨w, rfl, hp⟩
  exact ⟨hp, rfl⟩

theorem Comp.Returns.enrolStart {P : σ → ω → Prop} (h : start.Returns v.world P) :
    (enrolStart start).Returns v fun c v' =>
      P c.2 v'.world ∧ v'.notes = v.notes ++ [.begins c.1] := by
  have hworld : (LazySeq.enrolStart start).Returns v fun c v' => P c.2 v'.world := by
    refine h.below.bind ?_
    intro s v' ⟨hp, _⟩
    exact ⟨_, _, rfl, hp⟩
  exact hworld.and_ensures ensures_enrolStart

theorem Comp.Returns.named_hasNext {P : Bool × σ → ω → Prop}
    (h : (m.hasNext c.2).Returns v.world P) :
    (m.named.hasNext c).Returns v fun r v' => P (r.1, r.2.2) v'.world ∧ r.2.1 = c.1 ∧
      v'.notes = v.notes ++ [.asks c.1 .hasNext, .replies c.1 (.more r.1)] := by
  have hworld : (m.named.hasNext c).Returns v fun r v' => P (r.1, r.2.2) v'.world := by
    refine (returns_note (.asks c.1 .hasNext)).bind ?_
    rintro _ _ rfl
    refine h.below.bind ?_
    intro ⟨more, s⟩ v' ⟨hp, _⟩
    refine (returns_note (.replies c.1 (.more more))).bind ?_
    rintro _ _ rfl
    exact Comp.returns_pure.mpr hp
  exact hworld.and_ensures ensures_named_hasNext

theorem Comp.Returns.named_next {P : Except Error α × σ → ω → Prop}
    (h : (m.next c.2).Returns v.world P) :
    (m.named.next c).Returns v fun r v' => P (r.1, r.2.2) v'.world ∧ r.2.1 = c.1 ∧
      v'.notes = v.notes ++ [.asks c.1 .next, .replies c.1 (Reply.item r.1).plain] := by
  have hworld : (m.named.next c).Returns v fun r v' => P (r.1, r.2.2) v'.world := by
    refine (returns_note (.asks c.1 .next)).bind ?_
    rintro _ _ rfl
    refine h.below.bind ?_
    intro ⟨answer, s⟩ v' ⟨hp, _⟩
    refine (returns_note (.replies c.1 (Reply.item answer).plain)).bind ?_
    rintro _ _ rfl
    exact Comp.returns_pure.mpr hp
  exact hworld.and_ensures ensures_named_next

theorem Comp.Ensures.below {act : Comp ω α} {w : ω} {notes : List Signal} {P : α → ω → Prop}
    (h : act.Ensures w P) :
    (Noted.below act).Ensures ⟨w, notes⟩ fun a v' => P a v'.world ∧ v'.notes = notes := by
  refine h.within.mono ?_
  rintro a _ ⟨w, rfl, hp⟩
  exact ⟨hp, rfl⟩

theorem Comp.Ensures.named_hasNext {P : Bool × σ → ω → Prop}
    (h : (m.hasNext c.2).Ensures v.world P) :
    (m.named.hasNext c).Ensures v fun r v' => P (r.1, r.2.2) v'.world := by
  refine Comp.ensures_bind.mpr (Comp.ensures_modify.mpr ?_)
  refine h.below.bind ?_
  rintro ⟨more, s⟩ v' ⟨hp, -⟩
  exact Comp.ensures_bind.mpr (Comp.ensures_modify.mpr (Comp.ensures_pure.mpr hp))

theorem Comp.Ensures.named_next {P : Except Error α × σ → ω → Prop}
    (h : (m.next c.2).Ensures v.world P) :
    (m.named.next c).Ensures v fun r v' => P (r.1, r.2.2) v'.world := by
  refine Comp.ensures_bind.mpr (Comp.ensures_modify.mpr ?_)
  refine h.below.bind ?_
  rintro ⟨answer, s⟩ v' ⟨hp, -⟩
  exact Comp.ensures_bind.mpr (Comp.ensures_modify.mpr (Comp.ensures_pure.mpr hp))

end LazySeq
