import LazySeq.Cursor.Start
import LazySeq.Proofs.Sequence.Rows
import LazySeq.Proofs.Simulation.Basic

/-!
# What a start opens

Starting a cursor opens sources (`Opening`), and nothing else: `Sequence.openings` lists the sources
that a start reaches, and `Sequence.start_opens` says that starting is opening these one after the
other. Opening a source asks its cursor nothing, and no callable and no machine of the sequence
occurs in it. The cursor that comes of the start stands on the cursors that were opened
(`Cursor.Over`), each as it was opened and under stages that have not looked ahead.

What a start does beyond that is to shelve a cursor that is to be cut into batches, which is told by
the shared readers alone (`beside`).
-/

namespace LazySeq

variable {ω τ α α' β β' : Type}

/-! ## Opening sources -/

/-- How a source is opened. -/
inductive Opening (ω τ : Type) where
  | source (iterator : Iterator ω τ)
  | once (cell : Nat)
  | given (begin : Comp ω τ) (machine : Machine ω τ Value)
  /-- what a probe writes when a cursor is started on what it watches -/
  | probe (started : Comp ω Unit)

namespace Opening

/-- Opens a source. The cursor on it is the answer; a probe has none of its own. -/
def run : Opening ω τ → Comp (World ω τ) (List (Cursor ω τ))
  | source iterator => return [.reading (.fresh iterator)]
  | once cell => return [.reading (.fresh (← World.takePass cell))]
  | given begin machine => return [.given machine (← World.onOuter begin)]
  | probe started => do
    World.onOuter started
    return []

/-- Opens sources one after the other. -/
def runAll : List (Opening ω τ) → Comp (World ω τ) (List (Cursor ω τ))
  | [] => return []
  | o :: os => return (← o.run) ++ (← runAll os)

theorem runAll_append (xs ys : List (Opening ω τ)) :
    runAll (xs ++ ys) = do return (← runAll xs) ++ (← runAll ys) := by
  induction xs with
  | nil => simp [runAll]
  | cons x xs ih =>
    simp only [List.cons_append, runAll, ih, bind_assoc, pure_bind, List.append_assoc]

theorem runAll_singleton (o : Opening ω τ) : runAll [o] = o.run := by
  simp [runAll]

end Opening

namespace Sequence

mutual

/-- The sources that a start opens, in order. -/
def openings : Sequence ω τ → List (Opening ω τ)
  | source iterator => [.source iterator]
  | once cell => [.once cell]
  | given begin machine => [.given begin machine]
  | cursors _ => []
  | onStart act of => .probe act :: of.openings
  | map _ of | each _ of | filter _ of | takeWhile _ of | dropWhile _ of | slice _ of
  | concat of | batch _ _ of => of.openings
  | chain a b => a.openings ++ b.openings
  | replay _ _ => []
  | pairs a _ => a.openings
  | zip of => (openingsTuple of).flatten
  | zipAll of => (openingsList of).flatten

/-- The openings of each sequence of a tuple. -/
def openingsTuple : Tuple (Sequence ω τ) → List (List (Opening ω τ))
  | .pair a b => [a.openings, b.openings]
  | .cons a others => a.openings :: openingsTuple others

/-- The openings of each sequence of a list. -/
def openingsList : List (Sequence ω τ) → List (List (Opening ω τ))
  | [] => []
  | a :: others => a.openings :: openingsList others

end

end Sequence

/-! ## Cursors as they were started -/

/-- The cursor stands on the cursors in the list, from left to right, and no stage in between has
asked for anything. -/
inductive Cursor.Over (readers : Array (Batching (Cursor ω τ) Value)) :
    Cursor ω τ → List (Cursor ω τ) → Prop where
  | reading (iterator : Iterator ω τ) :
    Over readers (.reading (.fresh iterator)) [.reading (.fresh iterator)]
  | given (machine : Machine ω τ Value) (state : τ) :
    Over readers (.given machine state) [.given machine state]
  | cursors (of : List (Sequence ω τ)) : Over readers (.cursors (.fresh of)) []
  | map (f : Fn ω) {c cs} (h : Over readers c cs) : Over readers (.map f c) cs
  | each (act : Value → Comp ω Unit) {c cs} (h : Over readers c cs) :
    Over readers (.each act c) cs
  | filter (p : Test ω) {c cs} (h : Over readers c cs) : Over readers (.filter p (.fresh c)) cs
  | takeWhile (p : Test ω) {c cs} (h : Over readers c cs) :
    Over readers (.takeWhile p (.fresh c)) cs
  | dropWhile (p : Test ω) {c cs} (h : Over readers c cs) :
    Over readers (.dropWhile p (.fresh ⟨c, true⟩)) cs
  | slice (window : Window) {c cs} (h : Over readers c cs) :
    Over readers (.slice window (.fresh ⟨c, 0⟩)) cs
  | chain {c d cs ds} (hc : Over readers c cs) (hd : Over readers d ds) :
    Over readers (.chain (.first c d)) (cs ++ ds)
  | concat {c cs} (h : Over readers c cs) : Over readers (.concat ⟨c, none⟩) cs
  | replay (of : Sequence ω τ) (passes : Option Nat) : Over readers (.replay of (.fresh passes)) []
  | pairs (inner : Sequence ω τ) {c cs} (h : Over readers c cs) :
    Over readers (.pairs inner ⟨c, none⟩) cs
  | zip {of : Tuple (Cursor ω τ)} {css} (h : List.Forall₂ (Over readers) of.toList css) :
    Over readers (.zip ⟨of, false⟩) css.flatten
  | zipAll {of : List (Cursor ω τ)} {css} (h : List.Forall₂ (Over readers) of css) :
    Over readers (.zipAll ⟨of, false⟩) css.flatten
  | batches (size : Nat) {reader c cs} (hreader : readers[reader]? = some (.fresh c))
    (h : Over readers c cs) : Over readers (.batches size reader) cs

/-! ## Starting is opening -/

open Comparison

/-- Worlds that differ in the shared readers alone. The bond is the readers of the first, and more
of them come to stand behind. -/
def beside : Comparison (World ω τ) (World ω τ) where
  Bond := Array (Batching (Cursor ω τ) Value)
  Le b b' := ∃ added, b' = b ++ added
  Holds b w w' := w = { w' with readers := b }
  le_refl b := ⟨#[], by simp⟩
  le_trans := by
    rintro b _ _ ⟨added, rfl⟩ ⟨more, rfl⟩
    exact ⟨added ++ more, by simp⟩

/-- A new cursor and the cursors it stands on, for good. -/
def standing : (beside (ω := ω) (τ := τ)).Rel (Cursor ω τ) (List (Cursor ω τ)) where
  Holds b c cs := ∀ b', beside.Le b b' → c.Over b' cs
  mono hle h b' hle' := h b' (beside.le_trans hle hle')

/-- New cursors side by side. -/
def standingAll : (beside (ω := ω) (τ := τ)).Rel (List (Cursor ω τ)) (List (Cursor ω τ)) where
  Holds b cs ds := ∃ css, ds = css.flatten ∧ List.Forall₂ (standing b) cs css
  mono hle := by
    rintro ⟨css, hds, hcss⟩
    exact ⟨css, hds, hcss.imp fun _ _ => standing.mono hle⟩

/-- New cursors side by side, as a tuple. -/
def standingTuple : (beside (ω := ω) (τ := τ)).Rel (Tuple (Cursor ω τ)) (List (Cursor ω τ)) where
  Holds b cs ds := standingAll b cs.toList ds
  mono := standingAll.mono

variable {b : Array (Batching (Cursor ω τ) Value)}

/-- What is done to the world of the caller does not see the readers. -/
theorem matches_onOuter {α : Type} (act : Comp ω α) :
    beside.Matches b (World.onOuter (τ := τ) act) (World.onOuter act) Rel.eq := by
  rintro _ w rfl
  unfold World.onOuter Comp.within World.putOuter
  dsimp only
  cases act w.outer with
  | ok a outer => exact .ok (beside.le_refl b) rfl rfl
  | error halt outer => exact .error halt (beside.le_refl b) rfl

/-- Taking an iterator out of its place, said without steps. -/
theorem takePass_eq (cell : Nat) (w : World ω τ) : World.takePass cell w =
    match w.passes.getD cell none with
    | none => .ok (.list []) w
    | some iterator => .ok iterator { w with passes := w.passes.setIfInBounds cell none } := by
  unfold World.takePass
  change EStateM.bind (EStateM.get) _ w = _
  unfold EStateM.bind EStateM.get
  dsimp only
  cases w.passes.getD cell none <;> rfl

theorem matches_takePass (cell : Nat) :
    beside.Matches b (World.takePass (ω := ω) (τ := τ) cell) (World.takePass cell) Rel.eq := by
  rintro _ w rfl
  rw [takePass_eq, takePass_eq]
  dsimp only
  cases w.passes.getD cell none with
  | none => exact .ok (beside.le_refl b) rfl rfl
  | some iterator => exact .ok (beside.le_refl b) rfl rfl

/-- A shelved cursor can be found again, and stands where it stood. -/
theorem adoptReader_matches (size : Nat) {c : Cursor ω τ} {cs : List (Cursor ω τ)}
    (h : standing b c cs) :
    beside.Matches b (do return Cursor.batches size (← World.adoptReader c)) (pure cs) standing := by
  rintro _ w rfl
  have hpush : beside.Le b (b.push (.fresh c)) := ⟨#[.fresh c], Array.push_eq_append⟩
  refine .ok hpush rfl ?_
  rintro _ ⟨added, rfl⟩
  refine .batches size ?_ (h _ (beside.le_trans hpush ⟨added, rfl⟩))
  rw [Array.getElem?_append_left (by simp), Array.getElem?_push_size]

/-! ## The start of a sequence -/

/-- A stage on the cursor that comes of a start. -/
theorem Comparison.Matches.stage {act : Comp (World ω τ) (Cursor ω τ)}
    {act' : Comp (World ω τ) (List (Cursor ω τ))} (h : beside.Matches b act act' standing)
    {wrap : Cursor ω τ → Cursor ω τ}
    (hwrap : ∀ {readers c cs}, Cursor.Over readers c cs → (wrap c).Over readers cs) :
    beside.Matches b (do return wrap (← act)) act' standing := by
  rw [← bind_pure act']
  exact h.bind fun _ hc => matches_pure fun b' hle => hwrap (hc b' hle)

mutual

/-- Starting is opening. Each stage starts its operands and wraps what comes of them; the readers
shelved by one operand stay where they are while the next is started. -/
theorem Sequence.start_matches (b : Array (Batching (Cursor ω τ) Value)) :
    (s : Sequence ω τ) → beside.Matches b s.start (Opening.runAll s.openings) standing
  | .source iterator => by
    rw [Sequence.start, Sequence.openings, Opening.runAll_singleton]
    exact matches_pure fun _ _ => .reading iterator
  | .once cell => by
    rw [Sequence.start, Sequence.openings, Opening.runAll_singleton]
    refine (matches_takePass cell).bind ?_
    rintro b' iterator _ _ rfl
    exact matches_pure fun _ _ => .reading iterator
  | .given begin machine => by
    rw [Sequence.start, Sequence.openings, Opening.runAll_singleton]
    refine (matches_onOuter begin).bind ?_
    rintro b' state _ _ rfl
    exact matches_pure fun _ _ => .given machine state
  | .cursors of => by
    rw [Sequence.start, Sequence.openings]
    exact matches_pure fun _ _ => .cursors of
  | .onStart act of => by
    rw [Sequence.start, Sequence.openings, Opening.runAll, Opening.run, bind_assoc]
    refine (matches_onOuter act).bind fun _ _ => ?_
    simpa using Sequence.start_matches _ of
  | .map f of => by
    rw [Sequence.start, Sequence.openings]
    exact (Sequence.start_matches b of).stage (.map f)
  | .each act of => by
    rw [Sequence.start, Sequence.openings]
    exact (Sequence.start_matches b of).stage (.each act)
  | .filter p of => by
    rw [Sequence.start, Sequence.openings]
    exact (Sequence.start_matches b of).stage (.filter p)
  | .takeWhile p of => by
    rw [Sequence.start, Sequence.openings]
    exact (Sequence.start_matches b of).stage (.takeWhile p)
  | .dropWhile p of => by
    rw [Sequence.start, Sequence.openings]
    exact (Sequence.start_matches b of).stage (.dropWhile p)
  | .slice window of => by
    rw [Sequence.start, Sequence.openings]
    exact (Sequence.start_matches b of).stage (.slice window)
  | .concat of => by
    rw [Sequence.start, Sequence.openings]
    exact (Sequence.start_matches b of).stage .concat
  | .chain a c => by
    rw [Sequence.start, Sequence.openings, Opening.runAll_append]
    refine (Sequence.start_matches b a).bind fun _ hfirst => ?_
    refine (Sequence.start_matches _ c).bind fun hle hsecond => ?_
    exact matches_pure fun b' hle' => .chain (standing.mono hle hfirst b' hle') (hsecond b' hle')
  | .replay passes of => by
    rw [Sequence.start, Sequence.openings]
    exact matches_pure fun _ _ => .replay of passes
  | .pairs a inner => by
    rw [Sequence.start, Sequence.openings]
    exact (Sequence.start_matches b a).stage (.pairs inner)
  | .zip of => by
    rw [Sequence.start, Sequence.openings,
      ← bind_pure (Opening.runAll (Sequence.openingsTuple of).flatten)]
    refine (Sequence.startTuple_matches b of).bind ?_
    rintro b' cs _ _ ⟨css, rfl, hcss⟩
    exact matches_pure fun b'' hle => .zip (hcss.imp fun _ _ hc => hc b'' hle)
  | .zipAll of => by
    rw [Sequence.start, Sequence.openings,
      ← bind_pure (Opening.runAll (Sequence.openingsList of).flatten)]
    refine (Sequence.startList_matches b of).bind ?_
    rintro b' cs _ _ ⟨css, rfl, hcss⟩
    exact matches_pure fun b'' hle => .zipAll (hcss.imp fun _ _ hc => hc b'' hle)
  | .batch size _ of => by
    rw [Sequence.start, Sequence.openings, ← bind_pure (Opening.runAll of.openings)]
    exact (Sequence.start_matches b of).bind fun _ hc => adoptReader_matches size hc

theorem Sequence.startTuple_matches (b : Array (Batching (Cursor ω τ) Value)) :
    (of : Tuple (Sequence ω τ)) →
    beside.Matches b (Sequence.startTuple of)
      (Opening.runAll (Sequence.openingsTuple of).flatten) standingTuple
  | .pair a c => by
    rw [Sequence.startTuple, Sequence.openingsTuple, List.flatten_cons, List.flatten_singleton,
      Opening.runAll_append]
    refine (Sequence.start_matches b a).bind fun _ hfirst => ?_
    refine (Sequence.start_matches _ c).bind fun hle hsecond => ?_
    exact matches_pure
      ⟨[_, _], by simp, .cons (standing.mono hle hfirst) (.cons hsecond .nil)⟩
  | .cons a others => by
    rw [Sequence.startTuple, Sequence.openingsTuple, List.flatten_cons, Opening.runAll_append]
    refine (Sequence.start_matches b a).bind fun _ hc => ?_
    refine (Sequence.startTuple_matches _ others).bind fun hle hcs => ?_
    obtain ⟨css, rfl, hcss⟩ := hcs
    exact matches_pure ⟨_ :: css, rfl, .cons (standing.mono hle hc) hcss⟩

theorem Sequence.startList_matches (b : Array (Batching (Cursor ω τ) Value)) :
    (of : List (Sequence ω τ)) →
    beside.Matches b (Sequence.startList of)
      (Opening.runAll (Sequence.openingsList of).flatten) standingAll
  | [] => by
    rw [Sequence.startList, Sequence.openingsList]
    exact matches_pure ⟨[], rfl, .nil⟩
  | a :: others => by
    rw [Sequence.startList, Sequence.openingsList, List.flatten_cons, Opening.runAll_append]
    refine (Sequence.start_matches b a).bind fun _ hc => ?_
    refine (Sequence.startList_matches _ others).bind fun hle hcs => ?_
    obtain ⟨css, rfl, hcss⟩ := hcs
    exact matches_pure ⟨_ :: css, rfl, .cons (standing.mono hle hc) hcss⟩

end

/-- Starting a cursor on `s` comes to opening these sources, one after the other: it answers or
halts as they do and leaves the world as they do, but for cursors shelved to be cut into batches.
The new cursor stands on theirs, and nothing has been asked of them. -/
def Sequence.OpensAs (s : Sequence ω τ) (openings : List (Opening ω τ)) : Prop :=
  ∀ w : World ω τ, match s.start w, Opening.runAll openings w with
    | .ok c v, .ok cs v' =>
      (∃ added, v = { v' with readers := w.readers ++ added }) ∧ c.Over v.readers cs
    | .error halt v, .error halt' v' =>
      halt = halt' ∧ ∃ added, v = { v' with readers := w.readers ++ added }
    | _, _ => False

theorem Sequence.opensAs_openings (s : Sequence ω τ) : s.OpensAs s.openings := by
  intro w
  have h := Sequence.start_matches w.readers s w w rfl
  generalize s.start w = r at h ⊢
  generalize Opening.runAll s.openings w = r' at h ⊢
  cases h with
  | ok hle hv hover =>
    obtain ⟨added, rfl⟩ := hle
    subst hv
    exact ⟨⟨added, rfl⟩, hover _ (beside.le_refl _)⟩
  | error halt hle hv =>
    obtain ⟨added, rfl⟩ := hle
    subst hv
    exact ⟨rfl, added, rfl⟩

end LazySeq
