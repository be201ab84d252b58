import LazySeq.Proofs.Endless
import LazySeq.Proofs.Signals
import LazySeq.Proofs.Stage.Guarded
import LazySeq.Proofs.Stage.Lockstep
import Mathlib.Data.ENat.Lattice

/-!
# Rows are taken in step

Cursors over sequences, finite or endless, that are walked in lockstep. Row number `r` has element
number `r` of every sequence, and there are as many rows as the shortest sequence has elements
(`isSome_rowAt_iff`). Of every cursor so many elements were asked for as rows were handed out,
at any time (`InStep`); so when one of them runs dry, wherever it stands, the others have lost
nothing.

Whatever the cursors do, the first answer that nothing is left is the last that is heard of any of
them (`Hushed`).
-/

namespace LazySeq

open LazySeq.Frame
open Signal (pulls)

variable {ω σ α : Type}

/-! ## Rows -/

/-- Row number `r` of several columns: there is one if all columns have an element of that number. -/
def rowAt (cols : List (Stream'.Seq α)) (r : Nat) : Option (List α) :=
  cols.mapM (·.get? r)

theorem rowAt_cons (L : Stream'.Seq α) (cols : List (Stream'.Seq α)) (r : Nat) :
    rowAt (L :: cols) r = (L.get? r).bind fun a => (rowAt cols r).map (a :: ·) := by
  rw [rowAt, List.mapM_cons]
  cases L.get? r with
  | none => rfl
  | some a => cases h : rowAt cols r <;> rw [rowAt] at h <;> simp [h]

theorem rowAt_eq_some_cons {L : Stream'.Seq α} {cols : List (Stream'.Seq α)} {r : Nat}
    {row : List α} (h : rowAt (L :: cols) r = some row) :
    ∃ a rest, L.get? r = some a ∧ rowAt cols r = some rest ∧ row = a :: rest := by
  rw [rowAt_cons] at h
  obtain ⟨a, ha, h⟩ := Option.bind_eq_some_iff.mp h
  obtain ⟨rest, hrest, rfl⟩ := Option.map_eq_some_iff.mp h
  exact ⟨a, rest, ha, hrest, rfl⟩

theorem isSome_rowAt {cols : List (Stream'.Seq α)} {r : Nat} :
    (rowAt cols r).isSome ↔ ∀ L ∈ cols, (L.get? r).isSome := by
  induction cols with
  | nil => simp [rowAt]
  | cons L cols ih =>
    rw [List.forall_mem_cons, ← ih, rowAt_cons]
    cases L.get? r <;> simp

/-- There are as many rows as the shortest column has elements. -/
theorem isSome_rowAt_iff (cols : List (Stream'.Seq α)) (r : Nat) :
    (rowAt cols r).isSome ↔ (r : ℕ∞) < ⨅ L ∈ cols, L.length' := by
  have hlt : (r : ℕ∞) < ⨅ L ∈ cols, L.length' ↔ ∀ L ∈ cols, (r : ℕ∞) < L.length' := by
    simp only [← ENat.add_one_le_iff (ENat.natCast_ne_top r), le_iInf_iff]
  rw [hlt, isSome_rowAt]
  refine forall₂_congr fun L _ => ?_
  rw [Stream'.Seq.lt_length'_iff]
  exact Option.isSome_iff_exists

/-- The rows of several columns. -/
def rowsOf (cols : List (Stream'.Seq α)) : Stream'.Seq (List α) where
  val := rowAt cols
  property := by
    intro r hr
    -- where one column has ended it has no later element either
    refine Option.not_isSome_iff_eq_none.mp fun hsome => ?_
    have hall : (rowAt cols r).isSome := isSome_rowAt.mpr fun L hL => by
      have hlater := isSome_rowAt.mp hsome L hL
      obtain ⟨a, ha⟩ := Option.isSome_iff_exists.mp hlater
      obtain ⟨b, hb⟩ := L.ge_stable (Nat.le_succ r) ha
      exact Option.isSome_iff_exists.mpr ⟨b, hb⟩
    rw [hr] at hall
    cases hall

@[simp]
theorem get?_rowsOf (cols : List (Stream'.Seq α)) (r : Nat) :
    (rowsOf cols).get? r = rowAt cols r := rfl

/-- What comes first of what is left of the columns. -/
theorem rowAt_drop (cols : List (Stream'.Seq α)) (d : Nat) :
    rowAt (cols.map (·.drop d)) 0 = rowAt cols d := by
  induction cols with
  | nil => rfl
  | cons L cols ih =>
    rw [List.map_cons, rowAt_cons, rowAt_cons, ih, Stream'.Seq.drop_get?, Nat.add_zero]

theorem map_tail_drop (cols : List (Stream'.Seq α)) (d : Nat) :
    (cols.map (·.drop d)).map (·.tail) = cols.map (·.drop (d + 1)) := by
  rw [List.map_map]
  rfl

/-! ## Columns side by side -/

namespace Frame

variable {fr : Frame ω} {m : Machine ω σ α} {U : Stream'.Seq α → σ → fr.Assertion}
variable {cols : List (Stream'.Seq α)} {F : fr.Region}

/-- The cursors stand side by side, each with its column left. -/
def Columns (U : Stream'.Seq α → σ → fr.Assertion) :
    List (Stream'.Seq α) → List σ → fr.Assertion
  | [], [] => fun F _ => F = Region.none ∧ True
  | L :: cols, s :: cs => Sep (U L s) (Columns U cols cs)
  | _, _ => fun _ _ => False

theorem keeps_columns (hm : fr.Produces m U) (cols : List (Stream'.Seq α)) (cs : List σ) :
    fr.Keeps (Columns U cols cs) := by
  induction cols generalizing cs with
  | nil =>
    cases cs with
    | nil => exact keeps_none
    | cons s cs => exact ⟨fun h => h.elim, fun h => h.elim⟩
  | cons L cols ih =>
    cases cs with
    | nil => exact ⟨fun h => h.elim, fun h => h.elim⟩
    | cons s cs => exact (hm.keeps L s).sep (ih cs)

variable {cs : List (Nat × σ)} {v : Noted ω Signal}

/-- Every cursor is asked up to the first that has nothing left. -/
theorem Produces.allHaveNext (hm : fr.Produces m U)
    (h : Columns U cols (cs.map Prod.snd) F v.world) :
    (m.named.allHaveNext cs).Returns v fun r v' => r.1 = (rowAt cols 0).isSome ∧
      Reaches (Columns U cols (r.2.map Prod.snd)) F v.world v'.world := by
  induction cols generalizing cs F v with
  | nil =>
    cases cs with
    | nil => exact Comp.returns_pure.mpr ⟨rfl, .refl h⟩
    | cons c cs => exact h.elim
  | cons L cols ih =>
    cases cs with
    | nil => exact h.elim
    | cons c cs =>
      obtain ⟨F₁, hs, hback⟩ := Sep.left h (keeps_columns hm cols _)
      refine (hm.hasNext hs).named_hasNext.bind ?_
      intro ⟨more, c'⟩ v₁ ⟨⟨hmore, hs⟩, _⟩
      obtain rfl : more = L.head.isSome := hmore
      obtain ⟨F', hstep, hsep⟩ := hback hs
      rw [rowAt_cons]
      cases hhead : L.get? 0 with
      | none =>
        -- the first that is dry ends the question; those after it are not asked
        have hdry : L.head.isSome = false := congrArg Option.isSome hhead
        rw [hdry]
        exact Comp.returns_pure.mpr ⟨rfl, F', hstep, hsep⟩
      | some a =>
        have hmore : L.head.isSome = true := congrArg Option.isSome hhead
        rw [hmore]
        obtain ⟨F₂, hcs, hback⟩ := hsep.right (hm.keeps L c'.2)
        refine (ih hcs).bind ?_
        intro ⟨more, cs⟩ v₂ ⟨hmore, hcs⟩
        obtain rfl : more = (rowAt cols 0).isSome := hmore
        refine Comp.returns_pure.mpr ⟨?_, (hback hcs).trans hstep⟩
        cases rowAt cols 0 <;> rfl

/-- Where there is a row, it is taken, and the columns are shorter by it. -/
theorem Produces.nextOfAll (hm : fr.Produces m U) {row : List α} (hrow : rowAt cols 0 = some row)
    (h : Columns U cols (cs.map Prod.snd) F v.world) :
    (m.named.nextOfAll cs).Returns v fun r v' => r.1 = .ok row ∧
      Reaches (Columns U (cols.map (·.tail)) (r.2.map Prod.snd)) F v.world v'.world := by
  induction cols generalizing cs F v row with
  | nil =>
    cases cs with
    | nil =>
      obtain rfl : [] = row := Option.some.inj hrow
      exact Comp.returns_pure.mpr ⟨rfl, .refl h⟩
    | cons c cs => exact h.elim
  | cons L cols ih =>
    cases cs with
    | nil => exact h.elim
    | cons c cs =>
      obtain ⟨a, rest, ha, hrest, rfl⟩ := rowAt_eq_some_cons hrow
      obtain ⟨F₁, hs, hback⟩ := Sep.left h (keeps_columns hm cols _)
      rw [Stream'.Seq.head_eq_some ha] at hs ⊢
      refine (hm.next_cons hs).named_next.bind ?_
      intro ⟨answer, c'⟩ v₁ ⟨⟨hanswer, hs⟩, _⟩
      obtain rfl : answer = .ok a := hanswer
      obtain ⟨F', hstep, hsep⟩ := hback hs
      obtain ⟨F₂, hcs, hback⟩ := hsep.right (hm.keeps _ c'.2)
      refine (ih hrest hcs).bind ?_
      intro ⟨answer, cs⟩ v₂ ⟨hanswer, hcs⟩
      obtain rfl : answer = .ok rest := hanswer
      exact Comp.returns_pure.mpr ⟨rfl, (hback hcs).trans hstep⟩

end Frame

/-! ## How often each cursor is pulled -/

section Pulls

variable {m : Machine ω σ α} {cs : List (Nat × σ)} {v : Noted ω Signal}

/-- Asking for a row pulls no cursor. -/
theorem ensures_allHaveNext_named :
    (m.named.allHaveNext cs).Ensures v fun r v' => r.2.map Prod.fst = cs.map Prod.fst ∧
      ∀ i, pulls i v'.notes = pulls i v.notes := by
  induction cs generalizing v with
  | nil => exact Comp.ensures_pure.mpr ⟨rfl, fun _ => rfl⟩
  | cons c cs ih =>
    refine ensures_named_hasNext.bind ?_
    intro ⟨more, c'⟩ v₁ ⟨hname, hnotes⟩
    have hsame : ∀ i, pulls i v₁.notes = pulls i v.notes := by
      intro i
      rw [hnotes, Signal.pulls_append, Signal.pulls_hasNext, Nat.add_zero]
    cases more with
    | false =>
      refine Comp.ensures_pure.mpr ⟨?_, hsame⟩
      rw [List.map_cons, List.map_cons, hname]
    | true =>
      refine ih.bind ?_
      intro ⟨more, rest⟩ v₂ ⟨hrest, hsame'⟩
      refine Comp.ensures_pure.mpr ⟨?_, fun i => (hsame' i).trans (hsame i)⟩
      rw [List.map_cons, List.map_cons, hname, hrest]

/-- Taking a row pulls every cursor once. -/
theorem ensures_nextOfAll_named :
    (m.named.nextOfAll cs).Ensures v fun r v' => r.2.map Prod.fst = cs.map Prod.fst ∧
      ∀ row, r.1 = .ok row → ∀ i,
        pulls i v'.notes = pulls i v.notes + (cs.map Prod.fst).count i := by
  induction cs generalizing v with
  | nil => exact Comp.ensures_pure.mpr ⟨rfl, fun _ _ _ => rfl⟩
  | cons c cs ih =>
    refine ensures_named_next.bind ?_
    intro ⟨answer, c'⟩ v₁ ⟨hname, hnotes⟩
    have hmore : ∀ i, pulls i v₁.notes = pulls i v.notes + if c.1 = i then 1 else 0 := by
      intro i
      rw [hnotes, Signal.pulls_append, Signal.pulls_next]
    cases answer with
    | error e =>
      refine Comp.ensures_pure.mpr ⟨?_, nofun⟩
      rw [List.map_cons, List.map_cons, hname]
    | ok a =>
      refine ih.bind ?_
      intro ⟨answer, rest⟩ v₂ ⟨hrest, hcount⟩
      refine Comp.ensures_pure.mpr ⟨?_, fun row hrow i => ?_⟩
      · rw [List.map_cons, List.map_cons, hname, hrest]
      · cases answer with
        | error e => cases hrow
        | ok row' =>
          rw [hcount row' rfl i, hmore, List.map_cons, List.count_cons]
          simp only [beq_iff_eq]
          omega

end Pulls

/-! ## In step -/

section Steps

variable {fr : Frame ω} {m : Machine ω σ α} {U : Stream'.Seq α → σ → fr.Assertion}
variable {cols : List (Stream'.Seq α)} {names : List Nat} {F : fr.Region} {w : ω}
variable {d : Nat} {v : Noted ω Signal} {l : Latched (List (Nat × σ))}

/-- After `d` rows. -/
structure Standing (U : Stream'.Seq α → σ → fr.Assertion) (cols : List (Stream'.Seq α))
    (names : List Nat) (F : fr.Region) (w : ω) (d : Nat) (v : Noted ω Signal)
    (l : Latched (List (Nat × σ))) : Prop where
  named : l.cursors.map Prod.fst = names
  pulled (i : Nat) : i ∈ names → pulls i v.notes = d
  left : Reaches (Columns U (cols.map (·.drop d)) (l.cursors.map Prod.snd)) F w v.world
  dry : l.dry = true → rowAt cols d = none

/-- The latch closes where there is no further row. -/
theorem Standing.latchHasNext (h : Standing U cols names F w d v l) (hm : fr.Produces m U)
    (hnames : names ≠ []) :
    (m.named.listRow.latchHasNext l).Returns v fun r v' => r.1 = (rowAt cols d).isSome ∧
      Standing U cols names F w d v' r.2 ∧ r.2.dry = !r.1 := by
  obtain ⟨cs, dry⟩ := l
  cases dry with
  | true =>
    have hnone : rowAt cols d = none := h.dry rfl
    exact Comp.returns_pure.mpr ⟨by rw [hnone]; rfl, h, rfl⟩
  | false =>
    obtain ⟨F', hstep, hcs⟩ := h.left
    -- a row of no cursors would be missing from the start
    have hsome : m.named.listRow.hasNext cs = m.named.allHaveNext cs := by
      refine if_neg fun hempty => hnames ?_
      rw [← h.named, List.isEmpty_iff.mp hempty]
      rfl
    rw [Machine.latchHasNext_open, hsome]
    refine ((hm.allHaveNext hcs).and_ensures ensures_allHaveNext_named).bind ?_
    intro ⟨more, cs'⟩ v' ⟨⟨hmore, hcs'⟩, hsame, hpulls⟩
    rw [rowAt_drop] at hmore
    obtain rfl : more = (rowAt cols d).isSome := hmore
    refine Comp.returns_pure.mpr ⟨rfl, ⟨hsame.trans h.named, ?_, hcs'.trans hstep, ?_⟩, rfl⟩
    · intro i hi
      rw [hpulls, h.pulled i hi]
    · intro hdry
      simpa using hdry

/-- A call is answered as by the cursor over the rows, and a row that is handed out takes one
element of every cursor. -/
theorem Standing.call (h : Standing U cols names F w d v l) (hm : fr.Produces m U)
    (hnames : names ≠ []) (hnodup : names.Nodup) (ask : Ask) :
    (m.named.listRow.latch.call ask l).Returns v fun r v' =>
      r.1 = (SeqCursor.call ask ((rowsOf cols).drop d)).1 ∧
      ∃ d', d' = d + (Reply.items [r.1]).length ∧
        (SeqCursor.call ask ((rowsOf cols).drop d)).2 = (rowsOf cols).drop d' ∧
        Standing U cols names F w d' v' r.2 ∧ (d' = d ∨ d' = d + 1 ∧ (rowAt cols d).isSome) := by
  have hhead : ((rowsOf cols).drop d).head = rowAt cols d := Stream'.Seq.head_dropn _ d
  refine Machine.returns_call ?_ ?_
  · rintro rfl
    refine (h.latchHasNext hm hnames).mono ?_
    intro ⟨more, l'⟩ v' ⟨hmore, h', _⟩
    obtain rfl : more = (rowAt cols d).isSome := hmore
    have hreply : Reply.more (rowAt cols d).isSome =
        (SeqCursor.call .hasNext ((rowsOf cols).drop d)).1 :=
      congrArg (fun row => Reply.more row.isSome) hhead.symm
    exact ⟨hreply, d, rfl, rfl, h', .inl rfl⟩
  · rintro rfl
    refine (h.latchHasNext hm hnames).bind ?_
    intro ⟨more, l'⟩ v₁ ⟨hmore, h', hdry⟩
    obtain rfl : more = (rowAt cols d).isSome := hmore
    cases hrow : rowAt cols d with
    | none =>
      have hnil : (rowsOf cols).drop d = .nil := Stream'.Seq.head_eq_none (hhead.trans hrow)
      refine Comp.returns_pure.mpr ⟨?_, d, rfl, ?_, h', .inl rfl⟩
      · rw [hnil]
        rfl
      · rw [hnil]
        rfl
    | some row =>
      -- every cursor was asked and has an element, so none of the pulls can fail
      obtain ⟨F', hstep, hcs⟩ := h'.left
      have hfirst : rowAt (cols.map (·.drop d)) 0 = some row := (rowAt_drop cols d).trans hrow
      refine ((hm.nextOfAll hfirst hcs).and_ensures ensures_nextOfAll_named).bind ?_
      intro ⟨answer, cs'⟩ v₂ ⟨⟨hanswer, hcs'⟩, hsame, hpulls⟩
      obtain rfl : answer = .ok row := hanswer
      rw [map_tail_drop] at hcs'
      have hcons : (rowsOf cols).drop d = .cons row ((rowsOf cols).drop (d + 1)) :=
        Stream'.Seq.head_eq_some (hhead.trans hrow)
      refine Comp.returns_pure.mpr
        ⟨?_, d + 1, rfl, ?_, ⟨hsame.trans h'.named, ?_, hcs'.trans hstep, ?_⟩, .inr ⟨rfl, rfl⟩⟩
      · rw [hcons]
        rfl
      · rw [hcons]
        rfl
      · intro i hi
        rw [hpulls row rfl i, h'.pulled i hi, h'.named, List.count_eq_one_of_mem hnodup hi]
      · intro hdry'
        rw [hrow] at hdry
        rw [hdry] at hdry'
        cases hdry'

/-- What a schedule of calls, with these replies, has come to. -/
structure InStep (U : Stream'.Seq α → σ → fr.Assertion) (cols : List (Stream'.Seq α))
    (names : List Nat) (F : fr.Region) (w : ω) (asks : List Ask) (replies : List (Reply (List α)))
    (v : Noted ω Signal) (cs : List (Nat × σ)) : Prop where
  /-- the cursors stand where they stood -/
  named : cs.map Prod.fst = names
  /-- the rows are handed out -/
  replied : replies = SeqCursor.run asks (rowsOf cols)
  /-- every cursor was pulled as often as a row was handed out -/
  pulled (i : Nat) : i ∈ names → pulls i v.notes = (Reply.items replies).length
  /-- and has left what comes after -/
  left : Reaches (Columns U (cols.map (·.drop (Reply.items replies).length)) (cs.map Prod.snd))
    F w v.world
  /-- when a call was refused, it is as many rows as the shortest column has elements -/
  spent : (∃ reply ∈ replies, reply.Refuses) →
    ((Reply.items replies).length : ℕ∞) = ⨅ L ∈ cols, L.length'

/-- What every schedule of calls keeps up. -/
structure Stepped (U : Stream'.Seq α → σ → fr.Assertion) (cols : List (Stream'.Seq α))
    (names : List Nat) (F : fr.Region) (w : ω) (done : List Ask) (replies : List (Reply (List α)))
    (v : Noted ω Signal) (l : Latched (List (Nat × σ))) : Prop where
  replied : replies = SeqCursor.run done (rowsOf cols)
  rest : SeqCursor.after done (rowsOf cols) = (rowsOf cols).drop (Reply.items replies).length
  le : ((Reply.items replies).length : ℕ∞) ≤ ⨅ L ∈ cols, L.length'
  stands : Standing U cols names F w (Reply.items replies).length v l

theorem stepped_nil {cs : List (Nat × σ)} (h : Columns U cols (cs.map Prod.snd) F w) :
    Stepped U cols (cs.map Prod.fst) F w [] [] ⟨w, []⟩ ⟨cs, false⟩ := by
  have hnone : ((Reply.items ([] : List (Reply (List α)))).length : ℕ∞) = 0 := Nat.cast_zero
  have hcols : cols.map (·.drop 0) = cols := List.map_id cols
  refine ⟨rfl, rfl, hnone.trans_le zero_le, rfl, fun _ _ => rfl, ?_, nofun⟩
  show Reaches (Columns U (cols.map (·.drop 0)) (cs.map Prod.snd)) F w w
  rw [hcols]
  exact .refl h

theorem Stepped.call {done : List Ask} {replies : List (Reply (List α))}
    (h : Stepped U cols names F w done replies v l) (hm : fr.Produces m U) (hnames : names ≠ [])
    (hnodup : names.Nodup) (ask : Ask) :
    (m.named.listRow.latch.call ask l).Returns v fun r v' =>
      Stepped U cols names F w (done ++ [ask]) (replies ++ [r.1]) v' r.2 := by
  refine (h.stands.call hm hnames hnodup ask).mono ?_
  intro r v' ⟨hreply, d, hd, hrest, hstands, hmore⟩
  have hlen : (Reply.items (replies ++ [r.1])).length = d := by
    rw [Reply.items_append, List.length_append, hd]
  refine ⟨?_, ?_, ?_, ?_⟩
  · rw [SeqCursor.run_concat, ← h.replied, h.rest, hreply]
  · rw [SeqCursor.after_concat, h.rest, hrest, hlen]
  · rw [hlen]
    rcases hmore with hsame | ⟨hsucc, hrow⟩
    · rw [hsame]
      exact h.le
    · rw [hsucc, Nat.cast_succ]
      exact Order.add_one_le_of_lt ((isSome_rowAt_iff cols _).mp hrow)
  · rw [hlen]
    exact hstands

theorem Stepped.inStep {done : List Ask} {replies : List (Reply (List α))}
    (h : Stepped U cols names F w done replies v l) :
    InStep U cols names F w done replies v l.cursors where
  named := h.stands.named
  replied := h.replied
  pulled := h.stands.pulled
  left := h.stands.left
  spent hrefused := by
    rw [h.replied] at hrefused
    have hnil : (rowsOf cols).drop (Reply.items replies).length = .nil :=
      h.rest.symm.trans (SeqCursor.after_eq_nil_of_refuses hrefused)
    have hnone : rowAt cols (Reply.items replies).length = none := by
      rw [← get?_rowsOf, ← Stream'.Seq.head_dropn, hnil]
      rfl
    refine le_antisymm h.le (le_of_not_gt fun hlt => ?_)
    rw [← isSome_rowAt_iff, hnone] at hlt
    cases hlt

/-- Over a list of cursors that differ. -/
theorem inStep_list (hm : fr.Produces m U) {cs : List (Nat × σ)} (hcs : cs ≠ [])
    (hdistinct : Machine.Distinct cs) (h : Columns U cols (cs.map Prod.snd) F w) (asks : List Ask) :
    (m.named.listRow.latch.run asks ⟨cs, false⟩).Returns ⟨w, []⟩ fun r v =>
      InStep U cols (cs.map Prod.fst) F w asks r.1 v r.2.cursors := by
  have hnames : cs.map Prod.fst ≠ [] := fun hnil => hcs (List.map_eq_nil_iff.mp hnil)
  refine (Machine.returns_run (Stepped U cols (cs.map Prod.fst) F w)
    (fun ask _ _ _ _ hr => hr.call hm hnames hdistinct ask) asks (stepped_nil h)).mono ?_
  intro r v hr
  exact hr.inStep

end Steps

/-! ## What is heard last -/

namespace Signal

/-- That a cursor has nothing left is the last that is heard. -/
def Hushed (signals : List Signal) : Prop :=
  ∀ before i after, signals = before ++ .replies i (.more false) :: after → after = []

/-- No cursor has said that it has nothing left. -/
def Unrefused (signals : List Signal) : Prop :=
  ∀ i, .replies i (.more false) ∉ signals

variable {signals : List Signal} {e : Signal}

theorem Unrefused.concat (h : Unrefused signals) (he : ∀ i, e ≠ .replies i (.more false)) :
    Unrefused (signals ++ [e]) := by
  intro i hi
  rcases List.mem_append.mp hi with hi | hi
  · exact h i hi
  · exact he i (List.mem_singleton.mp hi).symm

/-- Whatever is heard next may be that. -/
theorem Unrefused.hushed_concat (h : Unrefused signals) (e : Signal) : Hushed (signals ++ [e]) := by
  intro before i after heq
  cases after.eq_nil_or_concat with
  | inl hnil => exact hnil
  | inr hlast =>
    -- then it was heard before the last signal
    obtain ⟨after, b, rfl⟩ := hlast
    have hearlier : signals = before ++ .replies i (.more false) :: after := by
      have hsplit : signals ++ [e] = (before ++ .replies i (.more false) :: after) ++ [b] := by
        rw [heq]
        simp
      exact (List.append_singleton_inj.mp hsplit).1
    exact absurd (by rw [hearlier]; simp) (h i)

theorem Unrefused.hushed (h : Unrefused signals) : Hushed signals := by
  intro before i after heq
  exact absurd (by rw [heq]; simp) (h i)

end Signal

open Signal (Hushed Unrefused)

/-- The signals given so far are hushed. -/
abbrev Quietly (v : Noted ω Signal) : Prop := Hushed v.notes

section Hush

variable {m : Machine ω σ α} {cs : List (Nat × σ)} {v : Noted ω Signal}

theorem upholds_hasNext_quietly {c : Nat × σ} (hv : Unrefused v.notes) :
    (m.named.hasNext c).Upholds Quietly v fun r v' =>
      r.2.1 = c.1 ∧ (r.1 = true → Unrefused v'.notes) := by
  have hasked : Unrefused (v.notes ++ [.asks c.1 .hasNext]) := hv.concat nofun
  refine (upholds_named_hasNext_of hasked.hushed fun _ => hasked.hushed_concat _).mono ?_
  intro r v' ⟨hname, hnotes⟩
  refine ⟨hname, fun hmore => ?_⟩
  rw [hnotes, hmore]
  exact hasked.concat nofun

theorem upholds_next_quietly {c : Nat × σ} (hv : Unrefused v.notes) :
    (m.named.next c).Upholds Quietly v fun _ v' => Unrefused v'.notes := by
  have hasked : Unrefused (v.notes ++ [.asks c.1 .next]) := hv.concat nofun
  refine (upholds_named_next_of hasked.hushed fun _ => hasked.hushed_concat _).mono ?_
  intro r v' ⟨_, hnotes⟩
  rw [hnotes]
  exact hasked.concat nofun

/-- After the first cursor that has nothing left no other is asked. -/
theorem upholds_allHaveNext_quietly (hv : Unrefused v.notes) :
    (m.named.allHaveNext cs).Upholds Quietly v fun r v' => r.1 = true → Unrefused v'.notes := by
  induction cs generalizing v with
  | nil => exact Comp.upholds_pure.mpr ⟨hv.hushed, fun _ => hv⟩
  | cons c cs ih =>
    refine (upholds_hasNext_quietly hv).bind ?_
    intro ⟨more, c'⟩ v₁ hv₁ ⟨_, hmore⟩
    cases more with
    | false => exact Comp.upholds_pure.mpr ⟨hv₁, nofun⟩
    | true =>
      refine (ih (hmore rfl)).bind ?_
      intro ⟨more, rest⟩ v₂ hv₂ hmore'
      exact Comp.upholds_pure.mpr ⟨hv₂, hmore'⟩

theorem upholds_nextOfAll_quietly (hv : Unrefused v.notes) :
    (m.named.nextOfAll cs).Upholds Quietly v fun _ v' => Unrefused v'.notes := by
  induction cs generalizing v with
  | nil => exact Comp.upholds_pure.mpr ⟨hv.hushed, hv⟩
  | cons c cs ih =>
    refine (upholds_next_quietly hv).bind ?_
    intro ⟨answer, c'⟩ v₁ hv₁ hopen
    cases answer with
    | error e => exact Comp.upholds_pure.mpr ⟨hv₁, hopen⟩
    | ok a =>
      refine (ih hopen).bind ?_
      intro ⟨row, rest⟩ v₂ hv₂ hopen'
      exact Comp.upholds_pure.mpr ⟨hv₂, hopen'⟩

/-- Until the latch closes, no cursor has said that it has nothing left. -/
theorem upholds_latchHasNext_quietly {l : Latched (List (Nat × σ))} (hv : Quietly v)
    (hl : l.dry = false → Unrefused v.notes) :
    (m.named.listRow.latchHasNext l).Upholds Quietly v fun r v' =>
      r.2.dry = !r.1 ∧ (l.dry = true → r.2.dry = true) ∧
        (r.2.dry = false → Unrefused v'.notes) := by
  obtain ⟨cs, dry⟩ := l
  cases dry with
  | true => exact Comp.upholds_pure.mpr ⟨hv, rfl, id, nofun⟩
  | false =>
    have hrow : (m.named.listRow.hasNext cs).Upholds Quietly v fun r v' =>
        r.1 = true → Unrefused v'.notes := by
      -- without cursors there is no row, and nobody is asked
      cases cs with
      | nil => exact Comp.upholds_pure.mpr ⟨hv, nofun⟩
      | cons c cs => exact upholds_allHaveNext_quietly (hl rfl)
    refine hrow.bind ?_
    intro ⟨more, cs'⟩ v' hv' hmore
    refine Comp.upholds_pure.mpr ⟨hv', rfl, nofun, fun hdry => hmore ?_⟩
    simpa using hdry

/-- What every schedule of calls keeps up, whatever the cursors do. -/
structure Latching (replies : List (Reply (List α))) (v : Noted ω Signal)
    (l : Latched (List (Nat × σ))) : Prop where
  heard : l.dry = false → Unrefused v.notes
  dry : .more false ∈ replies → l.dry = true

theorem Latching.call {replies : List (Reply (List α))} {l : Latched (List (Nat × σ))}
    (h : Latching replies v l) (hv : Quietly v) (ask : Ask) :
    (m.named.listRow.latch.call ask l).Upholds Quietly v fun r v' =>
      Latching (replies ++ [r.1]) v' r.2 := by
  refine Machine.upholds_call ?_ ?_
  · intro _
    refine (upholds_latchHasNext_quietly hv h.heard).mono ?_
    intro ⟨more, l'⟩ v' ⟨hdry, hstays, hheard⟩
    refine ⟨hheard, fun hmem => ?_⟩
    rcases List.mem_append.mp hmem with hmem | hmem
    · exact hstays (h.dry hmem)
    · obtain rfl : more = false := by simpa using (List.mem_singleton.mp hmem).symm
      exact hdry
  · intro _
    have hnext : (m.named.listRow.latch.next l).Upholds Quietly v fun r v' =>
        (r.2.dry = false → Unrefused v'.notes) ∧ (l.dry = true → r.2.dry = true) := by
      refine (upholds_latchHasNext_quietly hv h.heard).bind ?_
      intro ⟨more, l'⟩ v₁ hv₁ ⟨hdry, hstays, hheard⟩
      cases more with
      | false => exact Comp.upholds_pure.mpr ⟨hv₁, hheard, hstays⟩
      | true =>
        refine (upholds_nextOfAll_quietly (hheard hdry)).bind ?_
        intro ⟨answer, cs⟩ v₂ hv₂ hopen
        exact Comp.upholds_pure.mpr ⟨hv₂, fun _ => hopen, hstays⟩
    refine hnext.mono ?_
    intro ⟨answer, l'⟩ v' ⟨hheard, hstays⟩
    refine ⟨hheard, fun hmem => ?_⟩
    rcases List.mem_append.mp hmem with hmem | hmem
    · exact hstays (h.dry hmem)
    · cases List.mem_singleton.mp hmem

/-- Over any list of cursors. -/
theorem hushed_list (m : Machine ω σ α) (cs : List (Nat × σ)) (asks : List Ask) (w : ω) :
    (m.named.listRow.latch.run asks ⟨cs, false⟩).Upholds Quietly ⟨w, []⟩ fun r _ =>
      .more false ∈ r.1 → r.2.dry = true := by
  have hnone : Unrefused ([] : List Signal) := fun _ => List.not_mem_nil
  have hstart : Latching [] ⟨w, []⟩ (⟨cs, false⟩ : Latched (List (Nat × σ))) (α := α) :=
    ⟨fun _ => hnone, nofun⟩
  refine (Machine.upholds_run Quietly Latching (fun ask _ _ _ hv hl => hl.call hv ask) asks
    hnone.hushed hstart).mono ?_
  intro r v hr
  exact hr.dry

end Hush

/-! ## Lists and tuples -/

/-- A closed latch stays closed, and no cursor is called. -/
theorem run_dry {ρ : Type} (row : Machine ω ρ α) {l : Latched ρ} (hl : l.dry = true)
    (later : List Ask) : row.latch.run later l = pure (later.map Ask.refusal, l) := by
  obtain ⟨cursors, dry⟩ := l
  obtain rfl : dry = true := hl
  exact Machine.run_of_refuses rfl rfl later

theorem mem_map_more {β : Type} {f : α → β} {replies : List (Reply α)} {left : Bool} :
    .more left ∈ replies.map (Reply.map f) ↔ .more left ∈ replies := by
  constructor
  · intro h
    obtain ⟨reply, hmem, hreply⟩ := List.mem_map.mp h
    cases reply with
    | more left' =>
      cases hreply
      exact hmem
    | item answer => cases hreply
  · intro h
    exact List.mem_map.mpr ⟨_, h, rfl⟩

/-- Cursors in lockstep, in a list or in a tuple, are walked in step, and they are not called when
one has said that it has nothing left.

Over cursors that differ, and are lawful over finite or endless sequences, row number `r` is made of
the elements of number `r`, and there is one if `r` is below all lengths. At any time every cursor
was pulled as often as a row was handed out, and has left what comes after; and when a call was
refused, these are as many as the shortest sequence has elements. Over any cursors, the first answer
that nothing is left is the last signal, and from then on every call is refused with no change of
world or state. -/
theorem zip_in_step (m : Machine ω σ α) (w : ω) (asks : List Ask) :
    (∀ {fr : Frame ω} {U : Stream'.Seq α → σ → fr.Assertion} {cols : List (Stream'.Seq α)}
      {F : fr.Region}, fr.Produces m U →
      (∀ r : Nat, (rowsOf cols).get? r = cols.mapM (·.get? r) ∧
        (((rowsOf cols).get? r).isSome ↔ (r : ℕ∞) < ⨅ L ∈ cols, L.length')) ∧
      (∀ cs : List (Nat × σ), cs ≠ [] → Machine.Distinct cs →
        Columns U cols (cs.map Prod.snd) F w →
        (m.named.listRow.latch.run asks ⟨cs, false⟩).Returns ⟨w, []⟩ fun r v =>
          InStep U cols (cs.map Prod.fst) F w asks r.1 v r.2.cursors) ∧
      ∀ t : Tuple (Nat × σ), Machine.Distinct t.toList →
        Columns U cols (t.toList.map Prod.snd) F w →
        (m.named.tupleRow.latch.run asks ⟨t, false⟩).Returns ⟨w, []⟩ fun r v =>
          InStep U cols (t.toList.map Prod.fst) F w asks (r.1.map (Reply.map Tuple.toList)) v
            r.2.cursors.toList) ∧
    (∀ cs : List (Nat × σ), (m.named.listRow.latch.run asks ⟨cs, false⟩).Upholds
      (fun v => Hushed v.notes) ⟨w, []⟩ fun r v => .more false ∈ r.1 →
        ∀ later, m.named.listRow.latch.run later r.2 v = .ok (later.map Ask.refusal, r.2) v) ∧
    ∀ t : Tuple (Nat × σ), (m.named.tupleRow.latch.run asks ⟨t, false⟩).Upholds
      (fun v => Hushed v.notes) ⟨w, []⟩ fun r v => .more false ∈ r.1 →
        ∀ later, m.named.tupleRow.latch.run later r.2 v = .ok (later.map Ask.refusal, r.2) v := by
  have hseen := (Machine.tupleRow_seenAs_listRow m.named).latch
  refine ⟨fun hm => ⟨fun r => ⟨rfl, isSome_rowAt_iff _ r⟩, ?_, ?_⟩, ?_, ?_⟩
  · intro cs hcs hdistinct h
    exact inStep_list hm hcs hdistinct h asks
  · intro t hdistinct h
    have hcs : t.toList ≠ [] := by cases t <;> exact List.cons_ne_nil _ _
    have hlist := inStep_list hm hcs hdistinct h asks
    rw [← hseen.run asks ⟨t, false⟩, Comp.returns_bind] at hlist
    refine hlist.mono ?_
    intro r v hr
    rwa [Comp.returns_pure] at hr
  · intro cs
    refine (hushed_list m cs asks w).mono ?_
    intro r v hdry hrefused later
    rw [run_dry _ (hdry hrefused)]
    rfl
  · intro t
    have hlist := hushed_list m t.toList asks w
    rw [← hseen.run asks ⟨t, false⟩, Comp.upholds_bind_pure] at hlist
    refine hlist.mono ?_
    intro r v hdry hrefused later
    have hclosed : r.2.dry = true := hdry (mem_map_more.mpr hrefused)
    rw [run_dry _ hclosed]
    rfl

/-- An endless sequence and one of two elements, in a tuple. -/
theorem zip_in_step_naturals :
    let t : Tuple (Nat × Stream'.Seq Nat) := .pair (0, .nats) (1, .ofList [7, 8])
    let asks : List Ask := [.next, .next, .hasNext, .next]
    (SeqCursor.machine.named.tupleRow.latch.run asks ⟨t, false⟩).Returns ⟨(), []⟩ fun r v =>
      r.1.map (Reply.map Tuple.toList) =
        [.item (.ok [0, 7]), .item (.ok [1, 8]), .more false, .item (.error .exhausted)] ∧
      pulls 0 v.notes = 2 ∧ pulls 1 v.notes = 2 := by
  intro t asks
  obtain ⟨hlawful, -, -⟩ := zip_in_step (SeqCursor.machine : Machine Unit (Stream'.Seq Nat) Nat) ()
    asks
  have hcols : Columns (fun xs s F _ => F = Region.none ∧ s = xs) [.nats, .ofList [7, 8]]
      (t.toList.map Prod.snd) (Region.none : (Frame.bare Unit).Region) () :=
    Sep.of_none ⟨rfl, rfl⟩ (Sep.of_none ⟨rfl, rfl⟩ ⟨rfl, trivial⟩)
  have hdistinct : Machine.Distinct t.toList := by
    show [0, 1].Nodup
    decide
  refine ((hlawful (Frame.produces_machine (Frame.bare Unit))).2.2 t hdistinct hcols).mono ?_
  intro r v hr
  have hgiven := hr.replied
  have hrows : SeqCursor.run asks (rowsOf [.nats, .ofList [7, 8]]) =
      [.item (.ok [0, 7]), .item (.ok [1, 8]), .more false, .item (.error .exhausted)] := rfl
  rw [hrows] at hgiven
  refine ⟨hgiven, ?_, ?_⟩
  · rw [hr.pulled 0 (by decide), hgiven]
    rfl
  · rw [hr.pulled 1 (by decide), hgiven]
    rfl

end LazySeq
