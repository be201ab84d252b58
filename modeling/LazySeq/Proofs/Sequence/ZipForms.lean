import LazySeq.Proofs.Sequence.Rows
import LazySeq.Proofs.Sequence.Watched

/-!
# The two zips are one

`Sequence.zip` walks a tuple of sequences in lockstep, `Sequence.zipAll?` a list of them. Over any
sources they do the same to the sources, call for call, and reply alike, also where a call halts
(`Sequence.zip_replies_eq`): the tuple of cursors is seen as the list of them.

What they do to the sources is said call by call (`RowCall`). A question goes from source to source up
to the first that says no (`Asking`). Only if none does, a row is taken, from source to source up to
the first that fails (`Taking`). After a no the sources are left alone.
-/

namespace LazySeq

variable {ω τ ι : Type}

/-! ## What a row does to its sources -/

/-- The sources are asked in order: each says that more is left, up to the first that does not. -/
inductive Asking : List ι → Bool → List (Touch ι) → Prop where
  | all : Asking [] true []
  | dry (i : ι) (others : List ι) : Asking (i :: others) false [.called i (.more false)]
  | more (i : ι) {others : List ι} {left : Bool} {touches : List (Touch ι)}
    (h : Asking others left touches) :
    Asking (i :: others) left (.called i (.more true) :: touches)

/-- An element is taken from each source in order, up to the first that fails; its error is the
answer, and those after it are not called. -/
inductive Taking : List ι → Except Error (List Value) → List (Touch ι) → Prop where
  | all : Taking [] (.ok []) []
  | fails (i : ι) (others : List ι) (e : Error) :
    Taking (i :: others) (.error e) [.called i (.item (.error e))]
  | takes (i : ι) (a : Value) {others : List ι} {row : Except Error (List Value)}
    {touches : List (Touch ι)} (h : Taking others row touches) :
    Taking (i :: others) (row.map (a :: ·)) (.called i (.item (.ok a)) :: touches)

/-- One call of a cursor over rows: whether a row was missing before, the reply, what was done to the
sources, and whether a row is missing now. -/
inductive RowCall (names : List ι) :
    Bool → Ask → Reply (List Value) → List (Touch ι) → Bool → Prop where
  | shut (ask : Ask) : RowCall names true ask ask.refusal [] true
  | asked {left : Bool} {touches : List (Touch ι)} (h : Asking names left touches) :
    RowCall names false .hasNext (.more left) touches !left
  | dry {touches : List (Touch ι)} (h : Asking names false touches) :
    RowCall names false .next (.item (.error .exhausted)) touches true
  | taken {row : Except Error (List Value)} {touches touches' : List (Touch ι)}
    (h : Asking names true touches) (h' : Taking names row touches') :
    RowCall names false .next (.item row) (touches ++ touches') false

/-- A schedule of calls, one after the other. -/
inductive RowCalls (names : List ι) :
    Bool → List Ask → List (Reply (List Value)) → List (Touch ι) → Prop where
  | nil (dry : Bool) : RowCalls names dry [] [] []
  | cons {dry dry' : Bool} {ask : Ask} {asks : List Ask} {reply : Reply (List Value)}
    {replies : List (Reply (List Value))} {touches touches' : List (Touch ι)}
    (h : RowCall names dry ask reply touches dry') (h' : RowCalls names dry' asks replies touches') :
    RowCalls names dry (ask :: asks) (reply :: replies) (touches ++ touches')

/-! ## Cursors on watched sources -/

namespace Origin

variable {o : ι × Origin ω τ} {sources : List (ι × Origin ω τ)} {n : Nat}
variable {c : Cursor (Noted ω (Touch ι)) τ} {cs : List (Cursor (Noted ω (Touch ι)) τ)}
variable {w : World (Noted ω (Touch ι)) τ}

/-- A cursor on a watched source. -/
def Attends (o : ι × Origin ω τ) (c : Cursor (Noted ω (Touch ι)) τ) : Prop :=
  ∃ state, c = .given (o.2.machine.noted (.called o.1)) state

/-- In `w'` these things have been done to the sources since `w`. -/
def Adds (w w' : World (Noted ω (Touch ι)) τ) (touches : List (Touch ι)) : Prop :=
  w'.outer.notes = w.outer.notes ++ touches

theorem adds_nil (w : World (Noted ω (Touch ι)) τ) : Adds w w [] :=
  (List.append_nil _).symm

theorem Adds.trans {w' w'' : World (Noted ω (Touch ι)) τ} {touches touches' : List (Touch ι)}
    (h : Adds w w' touches) (h' : Adds w' w'' touches') : Adds w w'' (touches ++ touches') := by
  rw [Adds, h', h, List.append_assoc]

theorem ensures_onOuter_noting {α : Type} (act : Comp ω α) (note : α → Touch ι) :
    (World.onOuter (act.noting note)).Ensures w fun a w' => Adds w w' [note a] := by
  refine (Comp.ensures_noting act note w.outer).within.mono ?_
  rintro a _ ⟨v, rfl, hnotes⟩
  exact hnotes

theorem runs_given (m : Machine ω τ Value) :
    Cursor.Runs (Cursor.given m : τ → Cursor ω τ) fun _ => World.ofOuter m :=
  fun _ _ => rfl

theorem Attends.hasNext (h : Attends o c) :
    ((Cursor.machine n).hasNext c).Ensures w fun r w' => Attends o r.2 ∧
      Adds w w' [.called o.1 (.more r.1)] := by
  obtain ⟨state, rfl⟩ := h
  cases n with
  | zero => exact nofun
  | succ n =>
    rw [Cursor.machine_hasNext _ (runs_given _ n state)]
    refine (ensures_onOuter_noting (o.2.machine.hasNext state) _).bind ?_
    rintro ⟨more, state⟩ w' hadds
    exact Comp.ensures_pure.mpr ⟨⟨state, rfl⟩, hadds⟩

theorem Attends.next (h : Attends o c) :
    ((Cursor.machine n).next c).Ensures w fun r w' => Attends o r.2 ∧
      Adds w w' [.called o.1 (.item r.1)] := by
  obtain ⟨state, rfl⟩ := h
  cases n with
  | zero => exact nofun
  | succ n =>
    rw [Cursor.machine_next _ (runs_given _ n state)]
    refine (ensures_onOuter_noting (o.2.machine.next state) _).bind ?_
    rintro ⟨answer, state⟩ w' hadds
    exact Comp.ensures_pure.mpr ⟨⟨state, rfl⟩, hadds⟩

/-! ## Rows over them -/

/-- The cursors of a row, each on its source. -/
abbrev AttendAll (sources : List (ι × Origin ω τ)) (cs : List (Cursor (Noted ω (Touch ι)) τ)) :
    Prop :=
  List.Forall₂ Attends sources cs

theorem AttendAll.allHaveNext (h : AttendAll sources cs) :
    ((Cursor.machine n).allHaveNext cs).Ensures w fun r w' => AttendAll sources r.2 ∧
      ∃ touches, Adds w w' touches ∧ Asking (sources.map Prod.fst) r.1 touches := by
  induction h generalizing w with
  | nil => exact Comp.ensures_pure.mpr ⟨.nil, [], adds_nil w, .all⟩
  | @cons o c sources cs hc hcs ih =>
    refine hc.hasNext.bind ?_
    intro ⟨more, c⟩ w' ⟨hc, hadds⟩
    cases more with
    | false => exact Comp.ensures_pure.mpr ⟨.cons hc hcs, _, hadds, .dry o.1 _⟩
    | true =>
      refine ih.bind ?_
      intro ⟨more, cs⟩ w'' ⟨hcs, touches, hadds', hasking⟩
      exact Comp.ensures_pure.mpr ⟨.cons hc hcs, _, hadds.trans hadds', .more o.1 hasking⟩

theorem AttendAll.nextOfAll (h : AttendAll sources cs) :
    ((Cursor.machine n).nextOfAll cs).Ensures w fun r w' => AttendAll sources r.2 ∧
      ∃ touches, Adds w w' touches ∧ Taking (sources.map Prod.fst) r.1 touches := by
  induction h generalizing w with
  | nil => exact Comp.ensures_pure.mpr ⟨.nil, [], adds_nil w, .all⟩
  | @cons o c sources cs hc hcs ih =>
    refine hc.next.bind ?_
    intro ⟨answer, c⟩ w' ⟨hc, hadds⟩
    cases answer with
    | error e => exact Comp.ensures_pure.mpr ⟨.cons hc hcs, _, hadds, .fails o.1 _ e⟩
    | ok a =>
      refine ih.bind ?_
      intro ⟨row, cs⟩ w'' ⟨hcs, touches, hadds', htaking⟩
      exact Comp.ensures_pure.mpr ⟨.cons hc hcs, _, hadds.trans hadds', .takes o.1 a htaking⟩

variable {l : Latched (List (Cursor (Noted ω (Touch ι)) τ))}

/-- While no row was missing, every source of a row is asked for it. -/
theorem AttendAll.latchHasNext (hsome : sources ≠ []) (h : AttendAll sources cs) :
    ((Cursor.machine n).listRow.latchHasNext ⟨cs, false⟩).Ensures w fun r w' =>
      AttendAll sources r.2.cursors ∧ r.2.dry = !r.1 ∧
        ∃ touches, Adds w w' touches ∧ Asking (sources.map Prod.fst) r.1 touches := by
  have hrow : (Cursor.machine n).listRow.hasNext cs = (Cursor.machine n).allHaveNext cs := by
    refine if_neg fun hempty => hsome ?_
    rw [List.isEmpty_iff.mp hempty] at h
    exact List.forall₂_nil_right_iff.mp h
  rw [Machine.latchHasNext_open, hrow]
  refine h.allHaveNext.bind ?_
  intro ⟨more, cs⟩ w' ⟨hcs, hasked⟩
  exact Comp.ensures_pure.mpr ⟨hcs, rfl, hasked⟩

theorem AttendAll.call (hsome : sources ≠ []) (h : AttendAll sources l.cursors) (ask : Ask) :
    ((Cursor.machine n).listRow.latch.call ask l).Ensures w fun r w' =>
      AttendAll sources r.2.cursors ∧ ∃ touches, Adds w w' touches ∧
        RowCall (sources.map Prod.fst) l.dry ask r.1 touches r.2.dry := by
  obtain ⟨cs, dry⟩ := l
  cases dry with
  | true => cases ask <;> exact Comp.ensures_pure.mpr ⟨h, [], adds_nil w, .shut _⟩
  | false =>
    refine Machine.ensures_call ?_ ?_
    · rintro rfl
      refine (h.latchHasNext hsome).mono ?_
      intro ⟨more, cs, dry⟩ w' ⟨hcs, hdry, touches, hadds, hasking⟩
      obtain rfl : dry = !more := hdry
      exact ⟨hcs, touches, hadds, .asked hasking⟩
    · rintro rfl
      refine (h.latchHasNext hsome).bind ?_
      intro ⟨more, cs, dry⟩ w' ⟨hcs, hdry, touches, hadds, hasking⟩
      obtain rfl : dry = !more := hdry
      cases more with
      | false => exact Comp.ensures_pure.mpr ⟨hcs, touches, hadds, .dry hasking⟩
      | true =>
        refine (AttendAll.nextOfAll hcs).bind ?_
        intro ⟨row, cs⟩ w'' ⟨hcs, touches', hadds', htaking⟩
        exact Comp.ensures_pure.mpr ⟨hcs, _, hadds.trans hadds', .taken hasking htaking⟩

theorem AttendAll.run (hsome : sources ≠ []) (h : AttendAll sources l.cursors)
    (asks : List Ask) : ((Cursor.machine n).listRow.latch.run asks l).Ensures w fun r w' =>
      ∃ touches, Adds w w' touches ∧
        RowCalls (sources.map Prod.fst) l.dry asks r.1 touches := by
  induction asks generalizing w l with
  | nil => exact Comp.ensures_pure.mpr ⟨[], adds_nil w, .nil l.dry⟩
  | cons ask asks ih =>
    refine (h.call hsome ask).bind ?_
    intro ⟨reply, l⟩ w' ⟨hl, touches, hadds, hcall⟩
    refine (ih hl).bind ?_
    intro ⟨replies, l⟩ w'' ⟨touches', hadds', hcalls⟩
    exact Comp.ensures_pure.mpr ⟨_, hadds.trans hadds', .cons hcall hcalls⟩

/-- The cursors of a row are started in order. -/
theorem ensures_startList (sources : List (ι × Origin ω τ)) :
    (Sequence.startList (sources.map fun o => o.2.watched o.1)).Ensures w fun cs w' =>
      AttendAll sources cs ∧ Adds w w' (sources.map fun o => .started o.1) := by
  induction sources generalizing w with
  | nil => exact Comp.ensures_pure.mpr ⟨.nil, adds_nil w⟩
  | cons o sources ih =>
    have hstart : (o.2.watched o.1).start.Ensures w fun c w' =>
        Attends o c ∧ Adds w w' [.started o.1] := by
      refine (ensures_onOuter_noting o.2.start fun _ => .started o.1).bind ?_
      intro state w' hadds
      exact Comp.ensures_pure.mpr ⟨⟨state, rfl⟩, hadds⟩
    refine hstart.bind ?_
    intro c w' ⟨hc, hadds⟩
    refine ih.bind ?_
    intro cs w'' ⟨hcs, hadds'⟩
    exact Comp.ensures_pure.mpr ⟨.cons hc hcs, hadds.trans hadds'⟩

end Origin

/-! ## Tuples and lists -/

namespace Sequence

/-- The replies of a new cursor to a schedule. -/
def replies (s : Sequence ω τ) (fuel : Nat) (asks : List Ask) :
    Comp (World ω τ) (List (Reply Value)) := do
  (Cursor.machine fuel).replies asks (← s.start)

/-- The replies of new cursors in a tuple, walked in lockstep. -/
def tupleReplies (sources : Tuple (Sequence ω τ)) (fuel : Nat) (asks : List Ask) :
    Comp (World ω τ) (List (Reply (Tuple Value))) := do
  (Cursor.machine fuel).tupleRow.latch.replies asks ⟨← startTuple sources, false⟩

/-- The replies of new cursors in a list, walked in lockstep. -/
def listReplies (sources : List (Sequence ω τ)) (fuel : Nat) (asks : List Ask) :
    Comp (World ω τ) (List (Reply (List Value))) := do
  (Cursor.machine fuel).listRow.latch.replies asks ⟨← startList sources, false⟩

section Forms

variable (sources : Tuple (Sequence ω τ)) (fuel : Nat) (asks : List Ask)

theorem tupleReplies_toList :
    (do return (← tupleReplies sources fuel asks).map (Reply.map Tuple.toList)) =
      listReplies sources.toList fuel asks := by
  have hseen := (Machine.tupleRow_seenAs_listRow (Cursor.machine fuel (ω := ω) (τ := τ))).latch
  simp only [tupleReplies, listReplies, ← Cursor.startTuple_toList, bind_assoc, pure_bind]
  exact bind_congr fun t => hseen.replies asks ⟨t, false⟩

/-- Rows over a tuple are handed out as lists. -/
theorem replies_zip :
    (zip sources).replies (fuel + 1) asks =
      do return (← tupleReplies sources fuel asks).map (Reply.map fun row => .list row.toList) := by
  have hstage : Cursor.Runs (ω := ω) (τ := τ) .zip fun n =>
      (Cursor.machine n).tupleRow.latch.map fun row => return .list row.toList := fun _ _ => rfl
  have hseen := (Machine.seenAs_map _ _).trans (Cursor.seenAs_machine hstage fuel)
  have hstart : (zip sources).start = do return .zip ⟨← startTuple sources, false⟩ := rfl
  simp only [replies, tupleReplies, hstart, bind_assoc, pure_bind]
  exact bind_congr fun t => (hseen.replies asks ⟨t, false⟩).symm

theorem replies_zipAll (sources : List (Sequence ω τ)) :
    (zipAll sources).replies (fuel + 1) asks =
      do return (← listReplies sources fuel asks).map (Reply.map .list) := by
  have hstage : Cursor.Runs (ω := ω) (τ := τ) .zipAll fun n =>
      (Cursor.machine n).listRow.latch.map fun row => return .list row := fun _ _ => rfl
  have hseen := (Machine.seenAs_map _ _).trans (Cursor.seenAs_machine hstage fuel)
  have hstart : (zipAll sources).start = do return .zipAll ⟨← startList sources, false⟩ := rfl
  simp only [replies, listReplies, hstart, bind_assoc, pure_bind]
  exact bind_congr fun cs => (hseen.replies asks ⟨cs, false⟩).symm

theorem zipAll?_toList : zipAll? sources.toList = .ok (zipAll sources.toList) := by
  rw [zipAll?, if_neg (Nat.not_lt.mpr (sources.length_toList ▸ sources.two_le_size))]

end Forms

/-- Over any named sources, `zip` and `zipAll?` are one computation: they give the same replies to
every schedule of calls on a new cursor and leave the same world behind, or halt alike. The rows are
those over the cursors in a list, and a tuple is read as the list of what is in it. The sources are
started in order, and then done to as `RowCalls` says. -/
theorem zip_replies_eq (sources : Tuple (ι × Origin ω τ)) (fuel : Nat) (asks : List Ask) :
    let watched := Origin.watchAll sources
    let names := sources.toList.map Prod.fst
    (∃ s, zipAll? watched.toList = .ok s ∧
      (zip watched).replies (fuel + 1) asks = s.replies (fuel + 1) asks ∧
      s.replies (fuel + 1) asks =
        do return (← listReplies watched.toList fuel asks).map (Reply.map .list)) ∧
    (do return (← tupleReplies watched fuel asks).map (Reply.map Tuple.toList)) =
      listReplies watched.toList fuel asks ∧
    ∀ w, (listReplies watched.toList fuel asks).Ensures w fun replies w' =>
      ∃ touches, w'.outer.notes = w.outer.notes ++ (names.map .started ++ touches) ∧
        RowCalls names false asks replies touches := by
  intro watched names
  have hrows := tupleReplies_toList watched fuel asks
  refine ⟨⟨_, zipAll?_toList watched, ?_, replies_zipAll fuel asks _⟩, hrows, fun w => ?_⟩
  · rw [replies_zip, replies_zipAll, ← hrows]
    simp only [bind_assoc, pure_bind, List.map_map, Reply.map_comp_map]
    rfl
  · have hsome : sources.toList ≠ [] := by cases sources <;> exact List.cons_ne_nil _ _
    have hwatched : watched.toList = sources.toList.map fun o => o.2.watched o.1 :=
      Tuple.toList_map _ sources
    have hstarted : sources.toList.map (fun o => .started o.1) =
        names.map (.started : ι → Touch ι) := (List.map_map).symm
    rw [hwatched]
    refine (Origin.ensures_startList sources.toList).bind ?_
    intro cs w₁ ⟨hcs, hadds⟩
    refine (Origin.AttendAll.run (l := ⟨cs, false⟩) hsome hcs asks).bind ?_
    intro ⟨replies, l⟩ w₂ ⟨touches, hadds', hcalls⟩
    rw [hstarted] at hadds
    exact Comp.ensures_pure.mpr ⟨touches, hadds.trans hadds', hcalls⟩

/-- Three sources that always say that more is left; the second has nothing. -/
example :
    let full : Origin Unit Unit := ⟨pure (), fun s => pure (true, s), fun s => pure (.ok .null, s)⟩
    let empty : Origin Unit Unit := { full with
      machine := ⟨full.machine.hasNext, fun s => pure (.error .exhausted, s)⟩ }
    let sources : Tuple (Nat × Origin Unit Unit) := .cons (0, full) (.pair (1, empty) (2, full))
    let zipped := (zip (Origin.watchAll sources)).replies 2 [.next] (.fresh ⟨(), []⟩)
    match zipped with
    | .ok replies w => replies = [.item (.error .exhausted)] ∧ w.outer.notes =
        [.started 0, .started 1, .started 2, .called 0 (.more true), .called 1 (.more true),
          .called 2 (.more true), .called 0 (.item (.ok .null)),
          .called 1 (.item (.error .exhausted))]
    | .error _ _ => False :=
  ⟨rfl, rfl⟩

end Sequence

end LazySeq
