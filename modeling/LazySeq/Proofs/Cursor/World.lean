import LazySeq.Proofs.Frame
import LazySeq.Cursor.Basic

/-!
# The places of a world

The places of a `World` are the part of the caller and the shared readers. Of the caller's part only
what `watch` sees counts, so that callables may act on the rest of it. Cells are not owned: the only
cursors that are put into cells here are batches, which stay as they are, so a cell that is there
stays as it is; and a shared reader only ever hands out more batches (`World.Later`).

Calling a cursor that lives in a cell (`World.inCell_returns`) or on a shared reader
(`World.inReader_returns`) is calling it where it is; for a reader this takes the place of the
reader, beside the places of the cursor it reads from.
-/

namespace LazySeq

namespace World

open LazySeq.Frame

variable {ω τ υ α β : Type} {watch : ω → υ}

/-- A part of a world that one cursor may own. -/
inductive Place where
  | caller
  | reader (id : Nat)

/-- What no call undoes: cells stay as they are, readers stay and hand out more and more batches. -/
structure Later (w w' : World ω τ) : Prop where
  cells (id : CursorId) (c : Cursor ω τ) : w.cells[id]? = some c → w'.cells[id]? = some c
  readers (id : Nat) (b : Batching (Cursor ω τ) Value) : w.readers[id]? = some b →
    ∃ b', w'.readers[id]? = some b' ∧ b.shelves.size ≤ b'.shelves.size

theorem Later.refl (w : World ω τ) : Later w w :=
  ⟨fun _ _ h => h, fun _ b h => ⟨b, h, Nat.le_refl _⟩⟩

theorem Later.trans {w w' w'' : World ω τ} (h : Later w w') (h' : Later w' w'') : Later w w'' where
  cells id c hc := h'.cells id c (h.cells id c hc)
  readers id b hb := by
    obtain ⟨b', hb', hle⟩ := h.readers id b hb
    obtain ⟨b'', hb'', hle'⟩ := h'.readers id b' hb'
    exact ⟨b'', hb'', Nat.le_trans hle hle'⟩

theorem Later.size_le {w w' : World ω τ} (h : Later w w') {id : Nat} (hid : id < w.readers.size) :
    id < w'.readers.size := by
  obtain ⟨b', hb', -⟩ := h.readers id _ (Array.getElem?_eq_getElem hid)
  exact (Array.getElem?_eq_some_iff.mp hb').1

/-- How a world is divided. -/
abbrev frame (τ : Type) (watch : ω → υ) : Frame (World ω τ) where
  Place := Place
  Has w
    | .caller => True
    | .reader id => id < w.readers.size
  Same p w w' :=
    match p with
    | .caller => watch w'.outer = watch w.outer
    | .reader id => w'.readers[id]? = w.readers[id]?
  Grows := Later
  same_refl p w := by cases p <;> rfl
  same_trans {p w w' w''} h h' := by
    cases p with
    | caller => exact Eq.trans h' h
    | reader id => exact Eq.trans h' h
  grows_refl := Later.refl
  grows_trans := Later.trans
  has_mono {p w w'} h hp := by
    cases p with
    | caller => trivial
    | reader id => exact h.size_le hp

/-! ## The caller's part -/

theorem quiet_putOuter {w : World ω τ} {outer : ω} (h : watch outer = watch w.outer) :
    (frame τ watch).Quiet w (putOuter outer w) where
  grows := ⟨fun _ _ hc => hc, fun _ b hb => ⟨b, hb, Nat.le_refl _⟩⟩
  same p := by
    cases p with
    | caller => exact h
    | reader id => rfl

/-- A callable that leaves alone what is watched is quiet. -/
theorem computes_onOuter {f : α → Comp ω β} {g : α → β}
    (h : Comp.Computes (fun o o' => watch o' = watch o) f g) :
    Comp.Computes (frame τ watch).Quiet (fun a => onOuter (τ := τ) (f a)) g := by
  intro a w
  refine (h a w.outer).within.mono ?_
  rintro b w' ⟨outer, rfl, hb, hwatch⟩
  exact ⟨hb, quiet_putOuter hwatch⟩

/-! ## Cells -/

/-- Calling a cursor in a cell. It has to be put back as it was found. -/
theorem inCell_returns {call : Cursor ω τ → Comp (World ω τ) (α × Cursor ω τ)} {id : CursorId}
    {c : Cursor ω τ} {w : World ω τ} {Q : α → World ω τ → Prop} (hc : w.cells[id]? = some c)
    (hcall : (call c).Returns w fun r w' =>
      r.2 = c ∧ Later w w' ∧ Q r.1 w') :
    (inCell call id).Returns w fun r w' => r.2 = id ∧ Q r.1 w' := by
  have hget : w.cells.getD id (.ofList []) = c := by
    simp [Array.getD_eq_getD_getElem?, hc]
  rw [inCell, Comp.returns_bind, Comp.returns_get, hget, Comp.returns_bind]
  refine hcall.mono ?_
  rintro ⟨a, c⟩ w' ⟨rfl, hgrows, hq⟩
  rw [Comp.returns_bind, Comp.returns_modify, Comp.returns_pure]
  -- the cell still holds what was read from it, so writing it back writes nothing
  have hput : w'.cells.setIfInBounds id c = w'.cells := by
    have hc' := hgrows.cells id c hc
    obtain ⟨hlt, hget'⟩ := Array.getElem?_eq_some_iff.mp hc'
    refine Array.ext_getElem? fun j => ?_
    rw [Array.getElem?_setIfInBounds]
    split
    · next hj =>
      subst hj
      simp [hlt, hget']
    · rfl
  refine ⟨rfl, ?_⟩
  show Q a { w' with cells := w'.cells.setIfInBounds id c }
  rw [hput]
  exact hq

theorem cellMachine_call (m : Machine (World ω τ) (Cursor ω τ) Value) (ask : Ask)
    (id : CursorId) : (cellMachine m).call ask id = inCell (m.call ask) id := by
  cases ask with
  | hasNext => simp only [Machine.call, cellMachine, inCell, bind_assoc, pure_bind]
  | next => simp only [Machine.call, cellMachine, inCell, bind_assoc, pure_bind]

/-- A new cell touches no place. -/
theorem adopt_returns (watch : ω → υ) {c : Cursor ω τ} {w : World ω τ} :
    (adopt c).Returns w fun id w' => w'.cells[id]? = some c ∧ (frame τ watch).Quiet w w' := by
  rw [adopt, Comp.returns_bind, Comp.returns_get, Comp.returns_bind, Comp.returns_set,
    Comp.returns_pure]
  refine ⟨by simp, ⟨fun id c' hc => ?_, fun _ b hb => ⟨b, hb, Nat.le_refl _⟩⟩, fun p => ?_⟩
  · have hlt := (Array.getElem?_eq_some_iff.mp hc).1
    show (w.cells.push c)[id]? = some c'
    rw [Array.getElem?_push_lt hlt, ← hc, Array.getElem?_eq_getElem hlt]
  · cases p with
    | caller => rfl
    | reader id => rfl

/-! ## Readers -/

/-- The place of a reader, alone. -/
def onReader (id : Nat) : (frame τ watch).Region := fun p => p = .reader id

/-- The reader is there and stands at `b`, and its place is owned. -/
def ReaderAt (watch : ω → υ) (id : Nat) (b : Batching (Cursor ω τ) Value) :
    (frame τ watch).Assertion :=
  fun F w => F = onReader id ∧ w.readers[id]? = some b

theorem keeps_readerAt (id : Nat) (b : Batching (Cursor ω τ) Value) :
    (frame τ watch).Keeps (ReaderAt watch id b) where
  has := by
    intro F w ⟨hF, hb⟩ p hp
    rw [hF] at hp
    subst hp
    exact (Array.getElem?_eq_some_iff.mp hb).1
  stable := by
    intro F w w' ⟨hF, hb⟩ _ hsame
    refine ⟨hF, ?_⟩
    have hreader := hsame (.reader id) (by rw [hF]; rfl)
    exact hreader.trans hb

/-- Writing a reader back with no fewer batches is a step of the owner of its place, whoever else
owns places beside. -/
theorem step_putReader {id : Nat} {b b' : Batching (Cursor ω τ) Value} {w : World ω τ}
    (hb : w.readers[id]? = some b) (hsize : b.shelves.size ≤ b'.shelves.size) :
    (frame τ watch).Step (onReader id) w (onReader id)
      { w with readers := w.readers.setIfInBounds id b' } where
  grows := by
    refine ⟨fun _ _ hc => hc, fun j b₁ hb₁ => ?_⟩
    show ∃ b₂, (w.readers.setIfInBounds id b')[j]? = some b₂ ∧ _
    by_cases hj : id = j
    · subst hj
      obtain rfl := Option.some.inj (hb.symm.trans hb₁)
      have hlt : id < w.readers.size := (Array.getElem?_eq_some_iff.mp hb).1
      exact ⟨b', by rw [Array.getElem?_setIfInBounds_self_of_lt hlt], hsize⟩
    · exact ⟨b₁, by rw [Array.getElem?_setIfInBounds_ne hj, hb₁], Nat.le_refl _⟩
  same p _ hp := by
    cases p with
    | caller => rfl
    | reader j =>
      refine Array.getElem?_setIfInBounds_ne ?_
      rintro rfl
      exact hp rfl
  owned _ hp := .inl hp

/-- Calling on a shared reader, where the cursor it reads from stands beside it. What the call does
to that cursor is done; the reader is put back as the call left it. -/
theorem inReader_returns
    {call : Batching (Cursor ω τ) Value → Comp (World ω τ) (α × Batching (Cursor ω τ) Value)}
    {id : Nat} {b : Batching (Cursor ω τ) Value} {B : (frame τ watch).Assertion}
    {P : α → Batching (Cursor ω τ) Value → (frame τ watch).Assertion}
    {Q : α → Batching (Cursor ω τ) Value → Prop} {F : (frame τ watch).Region} {w : World ω τ}
    (h : Sep (ReaderAt watch id b) B F w) (hP : ∀ a b', (frame τ watch).Keeps (P a b'))
    (hcall : ∀ F₂, B F₂ w → (call b).Returns w fun r w' =>
      b.shelves.size ≤ r.2.shelves.size ∧ Q r.1 r.2 ∧ Reaches (P r.1 r.2) F₂ w w') :
    (inReader call id).Returns w fun r w' => r.2 = id ∧
      ∃ b', Q r.1 b' ∧ Reaches (Sep (ReaderAt watch id b') (P r.1 b')) F w w' := by
  have hget : w.readers.getD id (.fresh (.ofList [])) = b := by
    obtain ⟨F₁, F₂, -, -, ⟨-, hb⟩, -⟩ := h
    simp [Array.getD_eq_getD_getElem?, hb]
  rw [inReader, Comp.returns_bind, Comp.returns_get, hget, Comp.returns_bind]
  obtain ⟨F₂, hB, hback⟩ := h.right (keeps_readerAt id b)
  refine (hcall F₂ hB).mono ?_
  intro ⟨a, b'⟩ w' ⟨hsize, hQ, hreach⟩
  rw [Comp.returns_bind, Comp.returns_modify, Comp.returns_pure]
  refine ⟨rfl, b', hQ, ?_⟩
  -- the call stayed off the place of the reader, which still stands at `b`
  obtain ⟨F', hstep, G₁, G₂, rfl, hapart, ⟨rfl, hb⟩, hP'⟩ := hback hreach
  have hput : (frame τ watch).Step (onReader id) w' (onReader id)
      { w' with readers := w'.readers.setIfInBounds id b' } := step_putReader hb hsize
  obtain ⟨hboth, hapart', hsame⟩ := hput.beside hapart ((hP a b').has hP')
  have hbeside := (hP a b').stable hP' hput.grows hsame
  refine ⟨_, hstep.trans hboth, _, G₂, rfl, hapart', ⟨rfl, ?_⟩, hbeside⟩
  have hlt : id < w'.readers.size := (Array.getElem?_eq_some_iff.mp hb).1
  show (w'.readers.setIfInBounds id b')[id]? = some b'
  rw [Array.getElem?_setIfInBounds_self_of_lt hlt]

theorem readerMachine_call (m : Machine (World ω τ) (Batching (Cursor ω τ) Value) α) (ask : Ask)
    (id : Nat) : (readerMachine m).call ask id = inReader (m.call ask) id := by
  cases ask with
  | hasNext => simp only [Machine.call, readerMachine, inReader, bind_assoc, pure_bind]
  | next => simp only [Machine.call, readerMachine, inReader, bind_assoc, pure_bind]

/-- A new reader is a new place, beside what is owned already. -/
theorem adoptReader_returns {c : Cursor ω τ} {A : (frame τ watch).Assertion}
    (hA : (frame τ watch).Keeps A) {F : (frame τ watch).Region} {w : World ω τ} (h : A F w) :
    (adoptReader c).Returns w fun id w' =>
      Reaches (Sep (ReaderAt watch id (.fresh c)) A) F w w' := by
  rw [adoptReader, Comp.returns_bind, Comp.returns_get, Comp.returns_bind, Comp.returns_set,
    Comp.returns_pure]
  have hother : ∀ j, j < w.readers.size → (w.readers.push (.fresh c))[j]? = w.readers[j]? :=
    fun j hj => by rw [Array.getElem?_push_lt hj, Array.getElem?_eq_getElem hj]
  have hgrows : (frame τ watch).Grows w { w with readers := w.readers.push (.fresh c) } := by
    refine ⟨fun _ _ hc => hc, fun j b hb => ⟨b, ?_, Nat.le_refl _⟩⟩
    show (w.readers.push (.fresh c))[j]? = some b
    rw [hother j (Array.getElem?_eq_some_iff.mp hb).1, hb]
  have hsame : ∀ p : Place, (frame τ watch).Has w p →
      (frame τ watch).Same p w { w with readers := w.readers.push (.fresh c) } := by
    intro p hp
    cases p with
    | caller => rfl
    | reader j => exact hother j hp
  refine ⟨(onReader w.readers.size).both F, ⟨hgrows, fun p hp _ => hsame p hp, ?_⟩,
    onReader w.readers.size, F, rfl, ?_, ⟨rfl, ?_⟩, ?_⟩
  · intro p hp
    rcases hp with rfl | hp
    · exact .inr (Nat.lt_irrefl _)
    · exact .inl hp
  · -- what is owned was there before, and the new place was not
    rintro p rfl hp
    exact Nat.lt_irrefl _ (hA.has h _ hp)
  · show (w.readers.push (.fresh c))[w.readers.size]? = some (.fresh c)
    simp
  · exact hA.stable h hgrows fun p hp => hsame p (hA.has h p hp)

end World

end LazySeq
