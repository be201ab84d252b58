import LazySeq.Proofs.Independence.Cursor
import Mathlib.Logic.Function.Basic

/-!
# Worlds apart

Two worlds are compared spot by spot. `Apart keep keep'` says that what stands in two paired spots
is alike, and that spots whose content is to be kept, in the one world or in the other, still hold
it and are paired with nothing. So whatever may be done to paired spots, and to spots that are new,
keeps the rest of both worlds as it was. Of the caller's part, and of the iterators that are handed
out once, nothing is known.

A world changes in three ways: a call on the caller's part touches no spot (`follows_onOuter`), a
cursor or a reader is put into a new spot (`follows_adopt`, `follows_adoptReader`), and what stands
in a spot is called and put back (`Carries.inCell`, `Carries.inReader`).
-/

namespace LazySeq

variable {ω τ α α' β : Type}

/-! ## Contents -/

/-- What stands in a spot. -/
inductive Content (ω τ : Type) where
  | cell (c : Cursor ω τ)
  | reader (r : Batching (Cursor ω τ) Value)

inductive Content.Alike (b : Pairing) : Content ω τ → Content ω τ → Prop where
  | cell {c c' : Cursor ω τ} (h : c.Alike b c') : Alike b (.cell c) (.cell c')
  | reader {r r' : Batching (Cursor ω τ) Value}
    (h : r.Alike (Cursor.Alike b) (Value.Alike b.cells) r') : Alike b (.reader r) (.reader r')

theorem Content.Alike.imp {b b' : Pairing} {c c' : Content ω τ} (hle : b.Le b')
    (h : c.Alike b c') : c.Alike b' c' := by
  cases h with
  | cell h => exact .cell (h.imp hle)
  | reader h => exact .reader (h.imp (fun hc => hc.imp hle) fun hv => hv.imp fun _ _ => hle _ _)

namespace World

/-- What stands in each spot that is there. -/
def content (w : World ω τ) : Spot → Option (Content ω τ)
  | .cell id => w.cells[id]?.map .cell
  | .reader id => w.readers[id]?.map .reader

theorem content_newCell (w : World ω τ) : w.content (.cell w.cells.size) = none := by
  simp [content]

theorem content_newReader (w : World ω τ) : w.content (.reader w.readers.size) = none := by
  simp [content]

theorem content_pushCell (w : World ω τ) (c : Cursor ω τ) :
    content { w with cells := w.cells.push c } =
      Function.update w.content (.cell w.cells.size) (some (.cell c)) := by
  funext p
  cases p with
  | reader id => simp [content]
  | cell id =>
    by_cases hid : id = w.cells.size <;> simp [content, Array.getElem?_push, hid]

theorem content_pushReader (w : World ω τ) (r : Batching (Cursor ω τ) Value) :
    content { w with readers := w.readers.push r } =
      Function.update w.content (.reader w.readers.size) (some (.reader r)) := by
  funext p
  cases p with
  | cell id => simp [content]
  | reader id =>
    by_cases hid : id = w.readers.size <;> simp [content, Array.getElem?_push, hid]

theorem content_setCell {w : World ω τ} {id : CursorId} (hid : id < w.cells.size)
    (c : Cursor ω τ) : content { w with cells := w.cells.setIfInBounds id c } =
      Function.update w.content (.cell id) (some (.cell c)) := by
  funext p
  cases p with
  | reader j => simp [content]
  | cell j =>
    by_cases hj : id = j
    · subst hj
      simp [content, hid]
    · simp [content, Array.getElem?_setIfInBounds_ne hj, Ne.symm hj]

theorem content_setReader {w : World ω τ} {id : Nat} (hid : id < w.readers.size)
    (r : Batching (Cursor ω τ) Value) :
    content { w with readers := w.readers.setIfInBounds id r } =
      Function.update w.content (.reader id) (some (.reader r)) := by
  funext p
  cases p with
  | cell j => simp [content]
  | reader j =>
    by_cases hj : id = j
    · subst hj
      simp [content, hid]
    · simp [content, Array.getElem?_setIfInBounds_ne hj, Ne.symm hj]

end World

/-! ## Pairs of worlds -/

/-- What stands in paired spots is alike. -/
def World.Alike (b : Pairing) (w w' : World ω τ) : Prop :=
  ∀ {p p'}, b p p' → ∃ c c', w.content p = some c ∧ w'.content p' = some c' ∧ c.Alike b c'

/-- What is to be kept is kept besides, and is not paired. -/
structure Apart (keep keep' : Spot → Option (Content ω τ)) (b : Pairing) (w w' : World ω τ) :
    Prop where
  alike : w.Alike b w'
  free {p p' : Spot} : b p p' → keep p = none ∧ keep' p' = none
  kept {p : Spot} {c : Content ω τ} : keep p = some c → w.content p = some c
  kept' {p' : Spot} {c : Content ω τ} : keep' p' = some c → w'.content p' = some c

namespace Apart

variable {keep keep' : Spot → Option (Content ω τ)} {b b' : Pairing} {w w' v v' : World ω τ}
variable {p p' : Spot} {c c' : Content ω τ}

theorem congr (h : Apart keep keep' b w w') (hv : v.content = w.content)
    (hv' : v'.content = w'.content) : Apart keep keep' b v v' where
  alike {p p'} hp := by rw [hv, hv']; exact h.alike hp
  free := h.free
  kept := by rw [hv]; exact h.kept
  kept' := by rw [hv']; exact h.kept'

/-- Spots that are paired now are written; all other pairs were paired before. -/
theorem write (h : Apart keep keep' b w w') (hle : b.Le b') (hpair : b' p p')
    (honly : ∀ q q', b' q q' → b q q' ∨ q = p ∧ q' = p') (hkeep : keep p = none)
    (hkeep' : keep' p' = none) (hc : c.Alike b' c')
    (hv : v.content = Function.update w.content p (some c))
    (hv' : v'.content = Function.update w'.content p' (some c')) : Apart keep keep' b' v v' where
  alike {q q'} hq := by
    rw [hv, hv']
    by_cases hqp : q = p
    · subst hqp
      obtain rfl := b'.biUnique.2 hq hpair
      exact ⟨c, c', by simp, by simp, hc⟩
    · -- a spot has one partner, so the partner of another spot is another spot
      have hqp' : q' ≠ p' := fun hq' => hqp (b'.biUnique.1 (hq' ▸ hq) hpair)
      obtain hq | ⟨hq, -⟩ := honly q q' hq
      · obtain ⟨d, d', hd, hd', halike⟩ := h.alike hq
        exact ⟨d, d', by simpa [hqp] using hd, by simpa [hqp'] using hd', halike.imp hle⟩
      · exact absurd hq hqp
  free {q q'} hq := by
    obtain hq | ⟨rfl, rfl⟩ := honly q q' hq
    · exact h.free hq
    · exact ⟨hkeep, hkeep'⟩
  kept {q d} hd := by
    have hqp : q ≠ p := by
      rintro rfl
      simp [hkeep] at hd
    simpa [hv, hqp] using h.kept hd
  kept' {q d} hd := by
    have hqp : q ≠ p' := by
      rintro rfl
      simp [hkeep'] at hd
    simpa [hv', hqp] using h.kept' hd

/-- What stands in paired spots is replaced. -/
theorem put (h : Apart keep keep' b w w') (hp : b p p') (hc : c.Alike b c')
    (hv : v.content = Function.update w.content p (some c))
    (hv' : v'.content = Function.update w'.content p' (some c')) : Apart keep keep' b v v' :=
  h.write (fun _ _ hq => hq) hp (fun _ _ hq => .inl hq) (h.free hp).1 (h.free hp).2 hc hv hv'

/-- Spots that are new are paired. -/
theorem extend (h : Apart keep keep' b w w') (hp : w.content p = none) (hp' : w'.content p' = none)
    (hc : c.Alike b c') (hv : v.content = Function.update w.content p (some c))
    (hv' : v'.content = Function.update w'.content p' (some c')) :
    ∃ b', b.Le b' ∧ b' p p' ∧ Apart keep keep' b' v v' := by
  have hfree : ∀ q', ¬ b p q' := by
    intro q' hq
    obtain ⟨d, -, hd, -⟩ := h.alike hq
    simp [hp] at hd
  have hfree' : ∀ q, ¬ b q p' := by
    intro q hq
    obtain ⟨-, d, -, hd, -⟩ := h.alike hq
    simp [hp'] at hd
  have hkeep : keep p = none := by
    refine Option.eq_none_iff_forall_ne_some.mpr fun d hd => ?_
    simpa [hp] using h.kept hd
  have hkeep' : keep' p' = none := by
    refine Option.eq_none_iff_forall_ne_some.mpr fun d hd => ?_
    simpa [hp'] using h.kept' hd
  have hle : b.Le (b.add p p' hfree hfree') := fun _ _ hq => .inl hq
  have hpair : (b.add p p' hfree hfree') p p' := .inr ⟨rfl, rfl⟩
  exact ⟨_, hle, hpair, h.write hle hpair (fun _ _ hq => hq) hkeep hkeep' (hc.imp hle) hv hv'⟩

theorem cell (h : Apart keep keep' b w w') {i j : CursorId} (hij : b.cells i j) :
    ∃ c c', w.cells[i]? = some c ∧ w'.cells[j]? = some c' ∧ c.Alike b c' := by
  obtain ⟨_, _, hc, hc', halike⟩ := h.alike hij
  obtain ⟨c, hcell, rfl⟩ := Option.map_eq_some_iff.mp hc
  obtain ⟨c', hcell', rfl⟩ := Option.map_eq_some_iff.mp hc'
  obtain hcursor | _ := halike
  exact ⟨c, c', hcell, hcell', hcursor⟩

theorem reader (h : Apart keep keep' b w w') {i j : Nat} (hij : b (.reader i) (.reader j)) :
    ∃ r r', w.readers[i]? = some r ∧ w'.readers[j]? = some r' ∧
      r.Alike (Cursor.Alike b) (Value.Alike b.cells) r' := by
  obtain ⟨_, _, hr, hr', halike⟩ := h.alike hij
  obtain ⟨r, hreader, rfl⟩ := Option.map_eq_some_iff.mp hr
  obtain ⟨r', hreader', rfl⟩ := Option.map_eq_some_iff.mp hr'
  obtain _ | hbatching := halike
  exact ⟨r, r', hreader, hreader', hbatching⟩

end Apart

/-! ## The comparison -/

variable (keep keep' : Spot → Option (Content ω τ))

/-- Worlds apart, and a pairing of their spots that grows. -/
def apart : Comparison (World ω τ) (World ω τ) where
  Bond := Pairing
  Le := Pairing.Le
  Holds := Apart keep keep'
  le_refl _ _ _ h := h
  le_trans h h' p p' hp := h' p p' (h p p' hp)

namespace Comparison

open World

variable {keep keep'} {b : Pairing}

namespace Rel

/-- Values that are alike under the pairing. -/
def values : (apart keep keep').Rel Value Value :=
  ⟨fun b : Pairing => Value.Alike b.cells, fun hle h => h.imp fun _ _ => hle _ _⟩

def cursors : (apart keep keep').Rel (Cursor ω τ) (Cursor ω τ) :=
  ⟨Cursor.Alike, fun hle h => h.imp hle⟩

def iterators : (apart keep keep').Rel (Iterator ω τ) (Iterator ω τ) :=
  ⟨Iterator.Alike, fun hle h => h.imp hle⟩

/-- Cells that are paired. -/
def cells : (apart keep keep').Rel CursorId CursorId :=
  ⟨Pairing.cells, fun hle h => hle _ _ h⟩

def readers : (apart keep keep').Rel Nat Nat :=
  ⟨fun (b : Pairing) r r' => b (.reader r) (.reader r'), fun hle h => hle _ _ h⟩

end Rel

open LazySeq.Comparison.Rel

theorem onOuter_eq {f : α → Comp ω β} {g : α → β} (hf : Comp.Answers f g) (a : α)
    (w : World ω τ) : ∃ o, onOuter (f a) w = .ok (g a) (putOuter o w) := by
  obtain ⟨_, o, hrun, rfl, -⟩ := hf a w.outer
  exact ⟨o, by simp only [onOuter, Comp.within, hrun]⟩

/-- A callable of the caller, which answers by its argument alone. -/
theorem follows_onOuter {f : α → Comp ω β} {g : α → β} (hf : Comp.Answers f g) (a a' : α)
    {Q : (apart keep keep').Rel β β} (hQ : Q b (g a) (g a')) :
    (apart keep keep').Follows b (onOuter (f a)) (onOuter (f a')) Q := by
  intro w v w' x hw hrun
  obtain ⟨o, hact⟩ := onOuter_eq hf a w
  obtain ⟨o', hact'⟩ := onOuter_eq hf a' w'
  rw [hact] at hrun
  cases hrun
  exact ⟨b, _, _, (apart keep keep').le_refl b, hact', hw.congr rfl rfl, hQ⟩

/-- A new cell for each of two cursors that are alike. -/
theorem follows_adopt {c c' : Cursor ω τ} (hc : c.Alike b c') :
    (apart keep keep').Follows b (adopt c) (adopt c') cells := by
  intro w v w' id hw hrun
  cases hrun
  obtain ⟨b', hle, hpair, hv⟩ := hw.extend (content_newCell w) (content_newCell w') (.cell hc)
    (content_pushCell w c) (content_pushCell w' c')
  exact ⟨b', w'.cells.size, _, hle, rfl, hv, hpair⟩

theorem follows_adoptReader {c c' : Cursor ω τ} (hc : c.Alike b c') :
    (apart keep keep').Follows b (adoptReader c) (adoptReader c') readers := by
  intro w v w' id hw hrun
  cases hrun
  obtain ⟨b', hle, hpair, hv⟩ := hw.extend (content_newReader w) (content_newReader w')
    (.reader (.fresh hc)) (content_pushReader w _) (content_pushReader w' _)
  exact ⟨b', w'.readers.size, _, hle, rfl, hv, hpair⟩

/-- A cursor in a cell is called and put back. -/
theorem Carries.inCell {P : (apart keep keep').Rel α α'}
    {call : Cursor ω τ → Comp (World ω τ) (α × Cursor ω τ)}
    {call' : Cursor ω τ → Comp (World ω τ) (α' × Cursor ω τ)}
    (hcall : (apart keep keep').Carries cursors (P.prod cursors) call call') :
    (apart keep keep').Carries cells (P.prod cells) (World.inCell call) (World.inCell call') := by
  intro b i j hij
  refine hcall.visit (fun w => w.cells.getD i (.ofList [])) (fun w => w.cells.getD j (.ofList []))
    (fun c w => { w with cells := w.cells.setIfInBounds i c })
    (fun c w => { w with cells := w.cells.setIfInBounds j c }) (·, i) (·, j) ?_ ?_ ?_
  · intro w w' hw
    obtain ⟨c, c', hc, hc', halike⟩ := hw.cell hij
    show Cursor.Alike b _ _
    simpa [Array.getD_eq_getD_getElem?, hc, hc'] using halike
  · intro b' v v' c c' hle hv hc
    obtain ⟨_, _, hi, hj, -⟩ := hv.cell (hle _ _ hij)
    have hlt := (Array.getElem?_eq_some_iff.mp hi).1
    have hlt' := (Array.getElem?_eq_some_iff.mp hj).1
    exact hv.put (hle _ _ hij) (.cell hc) (content_setCell hlt c) (content_setCell hlt' c')
  · intro b' a a' hle ha
    exact ⟨ha, cells.mono hle hij⟩

/-- A shared reader is called and put back. -/
theorem Carries.inReader {P : (apart keep keep').Rel α α'}
    {call : Batching (Cursor ω τ) Value → Comp (World ω τ) (α × Batching (Cursor ω τ) Value)}
    {call' : Batching (Cursor ω τ) Value → Comp (World ω τ) (α' × Batching (Cursor ω τ) Value)}
    (hcall : (apart keep keep').Carries (cursors.batching values)
      (P.prod (cursors.batching values)) call call') :
    (apart keep keep').Carries readers (P.prod readers) (World.inReader call)
      (World.inReader call') := by
  intro b i j hij
  refine hcall.visit (fun w => w.readers.getD i (.fresh (.ofList [])))
    (fun w => w.readers.getD j (.fresh (.ofList [])))
    (fun r w => { w with readers := w.readers.setIfInBounds i r })
    (fun r w => { w with readers := w.readers.setIfInBounds j r }) (·, i) (·, j) ?_ ?_ ?_
  · intro w w' hw
    obtain ⟨r, r', hr, hr', halike⟩ := hw.reader hij
    show Batching.Alike (Cursor.Alike b) (Value.Alike b.cells) _ _
    simpa [Array.getD_eq_getD_getElem?, hr, hr'] using halike
  · intro b' v v' r r' hle hv hr
    obtain ⟨_, _, hi, hj, -⟩ := hv.reader (hle _ _ hij)
    have hlt := (Array.getElem?_eq_some_iff.mp hi).1
    have hlt' := (Array.getElem?_eq_some_iff.mp hj).1
    exact hv.put (hle _ _ hij) (.reader hr) (content_setReader hlt r) (content_setReader hlt' r')
  · intro b' a a' hle ha
    exact ⟨ha, readers.mono hle hij⟩

theorem Mimics.cellMachine {m m' : Machine (World ω τ) (Cursor ω τ) Value}
    (h : (apart keep keep').Mimics cursors values m m') :
    (apart keep keep').Mimics cells values (World.cellMachine m) (World.cellMachine m') :=
  ⟨h.hasNext.inCell, h.next.inCell⟩

theorem Mimics.readerMachine {V : (apart keep keep').Rel α α'}
    {m : Machine (World ω τ) (Batching (Cursor ω τ) Value) α}
    {m' : Machine (World ω τ) (Batching (Cursor ω τ) Value) α'}
    (h : (apart keep keep').Mimics (cursors.batching values) V m m') :
    (apart keep keep').Mimics readers V (World.readerMachine m) (World.readerMachine m') :=
  ⟨h.hasNext.inReader, h.next.inReader⟩

end Comparison

end LazySeq
