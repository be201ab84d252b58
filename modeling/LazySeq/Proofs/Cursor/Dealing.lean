import LazySeq.Proofs.Batch.AnyOrder
import LazySeq.Proofs.Cursor.Batches
import LazySeq.Proofs.Simulation.Batch

/-!
# Dealing out batches of batches

A reader over a batching cursor, which reads from another reader in its turn. What the outer reader
hands out or sets aside are cursors on the batches of the inner one, the chunks, and it is known of
them only that they are, in order, on the chunks of certain numbers.

So the outer reader is compared with a reader over a bare list of numbers, which shares nothing
(`Comparison.dealing`), and of that one it is known already what its batches have left. `UpperBench`
is the desk of these numbers together with what is left of the chunks. A call on the upper level moves
the desk and leaves the chunks; reading a chunk leaves the desk.
-/

namespace LazySeq

open LazySeq.Frame World Batching

variable {ω τ υ α β : Type} {watch : ω → υ}

/-! ## Numbers without anything shared -/

/-- Hands out the elements of a list, which is the world. -/
def Machine.pile : Machine (List α) Unit α where
  hasNext _ := do
    let xs ← get
    return (!xs.isEmpty, ())
  next _ := do
    match ← get with
    | [] => return (.error .exhausted, ())
    | x :: xs => do
      set xs
      return (.ok x, ())

/-- What the pile has left is the world. -/
def PileLeft (xs w : List α) (_ : Unit) : Prop :=
  w = xs

theorem lawful_pile : (Machine.pile : Machine (List α) Unit α).Lawful PileLeft where
  hasNext := by
    rintro xs _ _ rfl
    exact ⟨_, _, rfl, rfl, rfl⟩
  next_cons := by
    rintro a xs _ _ rfl
    exact ⟨_, _, rfl, rfl, rfl⟩
  next_nil := by
    rintro _ _ rfl
    exact ⟨_, _, rfl, rfl, rfl⟩

/-! ## The outer reader -/

/-- The second reply brings cursors on the batches of reader `r` of which the first brings the
numbers. -/
abbrev BatchReplies (r : Nat) (w : World ω τ) : Reply Nat → Reply Value → Prop :=
  Comparison.Rel.Replies fun k v => BatchValue r w v k

section Upper

variable {U : (frame τ watch).Account Value (Cursor ω τ)} {size n N : Nat} {all : List Value}
variable {r r' : Nat} {left : Nat → List Value} {F : (frame τ watch).Region} {w : World ω τ}

namespace Comparison

/-- On the one side the numbers of the chunks that the inner reader `r` has still to hand out, on
the other the world of that reader. The bond is the world with what the inner reader owns of it. -/
def dealing (U : (frame τ watch).Account Value (Cursor ω τ)) (size : Nat) (all : List Value)
    (r : Nat) (left : Nat → List Value) : Comparison (List Nat) (World ω τ) where
  Bond := (frame τ watch).Region × World ω τ
  Le b b' := (frame τ watch).Step b.1 b.2 b'.1 b'.2
  Holds b ks w := b.2 = w ∧ Handing U size all r left ks (.batches size r) b.1 w
  le_refl b := Step.refl b.1 b.2
  le_trans := Step.trans

/-- The inner batching cursor. -/
def dealer : (dealing U size all r left).Rel Unit (Cursor ω τ) :=
  ⟨fun _ _ c => c = .batches size r, fun _ h => h⟩

/-- A number, and a cursor on the chunk of this number. -/
def dealt : (dealing U size all r left).Rel Nat Value :=
  ⟨fun b k v => BatchValue r b.2 v k, fun hle h => h.mono hle.grows⟩

theorem mimics_dealing (hsize : 0 < size)
    (hU : (frame τ watch).Supplies True Machine.Exactly (Cursor.machine N) U) :
    (dealing U size all r left).Mimics dealer dealt Machine.pile (Cursor.machine (N + 1)) where
  hasNext := by
    rintro b _ c rfl
    refine follows_iff.mpr ?_
    rintro ks w ⟨rfl, hks⟩ _ _ ⟨⟩
    refine ((supplies_handing hsize hU).hasNext (fun _ => trivial) hks).mono ?_
    rintro ⟨more, c⟩ w' ⟨rfl, F', hstep, rfl, hks'⟩
    exact ⟨(F', w'), hstep, ⟨rfl, rfl, hks'⟩, rfl, rfl⟩
  next := by
    rintro b _ c rfl
    refine follows_iff.mpr ?_
    rintro ks w ⟨rfl, hks⟩
    cases ks with
    | nil =>
      rintro _ _ ⟨⟩
      refine ((supplies_handing hsize hU).next_nil trivial hks).mono ?_
      rintro ⟨answer, c⟩ w' ⟨rfl, F', hstep, rfl, hks'⟩
      exact ⟨(F', w'), hstep, ⟨rfl, rfl, hks'⟩, .error _, rfl⟩
    | cons k ks =>
      rintro _ _ ⟨⟩
      refine ((supplies_handing hsize hU).next_cons hks).mono ?_
      rintro ⟨answer, c⟩ w' ⟨⟨v, rfl, hv⟩, F', hstep, rfl, hks'⟩
      exact ⟨(F', w'), hstep, ⟨rfl, rfl, hks'⟩, .ok hv, rfl⟩

end Comparison

open Comparison

/-- A reader over the inner batching cursor, which has handed out what the desk `d` says. -/
def Decked (U : (frame τ watch).Account Value (Cursor ω τ)) (size n : Nat) (all : List Value)
    (r : Nat) (left : Nat → List Value) (d : Desk Nat) (b : Batching (Cursor ω τ) Value) :
    (frame τ watch).Assertion := fun F w =>
  ∃ ks b' lefts rest, d.Agrees n (List.range (runs size all).length) lefts rest ∧
    Account PileLeft lefts rest ks b' ∧ Handing U size all r left ks (.batches size r) F w ∧
    b'.Alike (fun _ c => c = .batches size r) (fun k v => BatchValue r w v k) b

/-- The desk `d` over the numbers of the chunks, laid out on reader `r'`, where what is left of the
chunks of reader `r` is `left`. -/
def UpperBench (U : (frame τ watch).Account Value (Cursor ω τ)) (size n : Nat) (all : List Value)
    (r r' : Nat) (left : Nat → List Value) (d : Desk Nat) : (frame τ watch).Assertion := fun F w =>
  ∃ b, Sep (ReaderAt watch r' b) (Decked U size n all r left d b) F w

variable {d : Desk Nat}

theorem keeps_decked (hsize : 0 < size)
    (hU : (frame τ watch).Supplies True Machine.Exactly (Cursor.machine N) U)
    (b : Batching (Cursor ω τ) Value) :
    (frame τ watch).Keeps (Decked U size n all r left d b) := by
  refine .of_follows ?_
  rintro F w ⟨ks, b', lefts, rest, hd, hacc, hks, halike⟩
  refine ⟨_, (supplies_handing hsize hU).keeps ks _, hks, fun hgrows hks' => ?_⟩
  exact ⟨ks, b', lefts, rest, hd, hacc, hks', halike.imp id (BatchValue.mono hgrows)⟩

theorem keeps_upperBench (hsize : 0 < size)
    (hU : (frame τ watch).Supplies True Machine.Exactly (Cursor.machine N) U) :
    (frame τ watch).Keeps (UpperBench U size n all r r' left d) := by
  refine .of_follows ?_
  rintro F w ⟨b, hb⟩
  exact ⟨_, (keeps_readerAt r' b).sep (keeps_decked hsize hU b), hb, fun _ hb' => ⟨b, hb'⟩⟩

theorem Decked.size_eq {b : Batching (Cursor ω τ) Value}
    (h : Decked U size n all r left d b F w) : b.shelves.size = d.handed := by
  obtain ⟨ks, b', lefts, rest, hd, ⟨_, -, hst⟩, -, halike⟩ := h
  rw [← halike.size, hst.size_eq, hd.length_eq]

/-- The outer reader is there, and has handed out as many batches as the desk. -/
theorem UpperBench.reader (h : UpperBench U size n all r r' left d F w) :
    ∃ b, w.readers[r']? = some b ∧ b.shelves.size = d.handed := by
  obtain ⟨b, F₁, F₂, -, -, ⟨-, hb⟩, hdeck⟩ := h
  exact ⟨b, hb, hdeck.size_eq⟩

section InReader

variable {P : (dealing U size all r left).Rel α β} {R : World ω τ → α → β → Prop} {Q : α → Prop}
variable {call : Batching Unit Nat → Comp (List Nat) (α × Batching Unit Nat)}
variable {call' : Batching (Cursor ω τ) Value → Comp (World ω τ) (β × Batching (Cursor ω τ) Value)}

/-- The call is made on a reader over bare numbers, where it does to the account what the desk does,
and it is made on a reader over the inner batching cursor. `R` is what is known of the answers. -/
theorem Decked.answers (ask : BatchAsk)
    (hcalls : (dealing U size all r left).Carries (dealer.batching dealt)
      (P.prod (dealer.batching dealt)) call call')
    (hP : ∀ {b a a'}, P b a a' → R b.2 a a')
    (hcall : ∀ {lefts rest ks b}, d.Agrees n (List.range (runs size all).length) lefts rest →
      Account PileLeft lefts rest ks b → (call b).Returns ks fun x ks' => Q x.1 ∧
        ∃ lefts rest, (d.call n (runs size all).length ask).2.Agrees n
          (List.range (runs size all).length) lefts rest ∧ Account PileLeft lefts rest ks' x.2)
    {b : Batching (Cursor ω τ) Value} (h : Decked U size n all r left d b F w) :
    (call' b).Returns w fun x w' => ∃ a, Q a ∧ R w' a x.1 ∧ Reaches
      (Decked U size n all r left (d.call n (runs size all).length ask).2 x.2) F w w' := by
  obtain ⟨ks, pile, lefts, rest, hd, hacc, hks, halike⟩ := h
  -- what is alike is so at the bond that this world and this region are
  have hfollows := @hcalls (F, w) pile b halike
  refine (hfollows.returns ⟨rfl, hks⟩ (hcall hd hacc)).mono ?_
  rintro ⟨x, b'⟩ _ ⟨⟨F', w'⟩, ⟨a, pile'⟩, ks', hstep, ⟨rfl, hks'⟩, ⟨ha, halike'⟩, hq, lefts', rest',
    hd', hacc'⟩
  exact ⟨a, hq, hP ha, F', hstep, ks', pile', lefts', rest', hd', hacc', hks', halike'⟩

/-- The same where the reader is shared. -/
theorem UpperBench.answers (ask : BatchAsk) (hsize : 0 < size)
    (hU : (frame τ watch).Supplies True Machine.Exactly (Cursor.machine N) U)
    (hcalls : (dealing U size all r left).Carries (dealer.batching dealt)
      (P.prod (dealer.batching dealt)) call call')
    (hP : ∀ {b a a'}, P b a a' → R b.2 a a')
    (hR : ∀ {w w' a a'}, Later w w' → R w a a' → R w' a a')
    (hcall : ∀ {lefts rest ks b}, d.Agrees n (List.range (runs size all).length) lefts rest →
      Account PileLeft lefts rest ks b → (call b).Returns ks fun x ks' => Q x.1 ∧
        ∃ lefts rest, (d.call n (runs size all).length ask).2.Agrees n
          (List.range (runs size all).length) lefts rest ∧ Account PileLeft lefts rest ks' x.2)
    (h : UpperBench U size n all r r' left d F w) :
    (inReader call' r').Returns w fun x w' => x.2 = r' ∧ ∃ a, Q a ∧ R w' a x.1 ∧ Reaches
      (UpperBench U size n all r r' left (d.call n (runs size all).length ask).2) F w w' := by
  obtain ⟨b, hb⟩ := h
  refine (inReader_returns (Q := fun _ _ => True) (P := fun x b' F w => ∃ a, Q a ∧ R w a x ∧
    Decked U size n all r left (d.call n (runs size all).length ask).2 b' F w) hb
    (fun x b' => .of_follows ?_) fun F₂ hdeck => ?_).mono ?_
  · rintro F w ⟨a, hq, ha, hdeck⟩
    exact ⟨_, keeps_decked hsize hU b', hdeck, fun hlater hdeck' => ⟨a, hq, hR hlater ha, hdeck'⟩⟩
  · refine (hdeck.answers ask hcalls hP hcall).mono ?_
    rintro x w' ⟨a, hq, ha, F', hstep, hdeck'⟩
    refine ⟨?_, trivial, F', hstep, a, hq, ha, hdeck'⟩
    rw [hdeck.size_eq, hdeck'.size_eq]
    exact Desk.handed_le_call n _ ask d
  · rintro ⟨x, _⟩ w' ⟨rfl, b', -, F', hstep, F₁, F₂, hF, hapart, hr, a, hq, ha, hdeck⟩
    exact ⟨rfl, a, hq, ha, F', hstep, b', F₁, F₂, hF, hapart, hr, hdeck⟩

end InReader

/-- The outer cursor hands out the next number. -/
theorem UpperBench.batches_call (hsize : 0 < size)
    (hU : (frame τ watch).Supplies True Machine.Exactly (Cursor.machine N) U) {ask : Ask}
    {reply : Reply Nat} (hreply : (d.call n (runs size all).length (.outer ask)).1 = .outer reply)
    (h : UpperBench U size n all r r' left d F w) :
    (World.inReader (((Cursor.machine (N + 1)).batches n).call ask) r').Returns w fun x w' =>
      x.2 = r' ∧ x.1 = reply ∧ Reaches (UpperBench U size n all r r' left
        (d.call n (runs size all).length (.outer ask)).2) F w w' := by
  have hmimics : (dealing U size all r left).Mimics (dealer.batching dealt) Rel.eq
      (Machine.pile.batches n) ((Cursor.machine (N + 1)).batches n) :=
    (mimics_dealing hsize hU).batches n
  refine (h.answers (.outer ask) (R := fun _ a a' => a = a') (Q := fun a => a = reply) hsize hU
    (fun _ _ _ hs => hmimics.call ask hs) Rel.eq_of_replies (fun _ ha => ha) ?_).mono ?_
  · intro lefts rest ks b hd hb
    have hcall := lawful_pile.batchCall_outer hd hb ask
    rw [Machine.batchCall, Comp.returns_bind, List.length_range] at hcall
    refine hcall.mono ?_
    rintro ⟨a, b⟩ w' ha
    obtain ⟨ha, hacc⟩ := Comp.returns_pure.mp ha
    exact ⟨BatchReply.outer.inj (ha.trans hreply), hacc⟩
  · rintro ⟨a', _⟩ w' ⟨rfl, _, rfl, rfl, hreach⟩
    exact ⟨rfl, rfl, hreach⟩

/-- An outer batch hands out a cursor on the chunk of its next number. -/
theorem UpperBench.batch_call (hsize : 0 < size)
    (hU : (frame τ watch).Supplies True Machine.Exactly (Cursor.machine N) U) {i : Nat}
    (hi : i < d.handed) {ask : Ask} {reply : Reply Nat}
    (hreply : (d.call n (runs size all).length (.batch i ask)).1 = .batch i reply)
    (h : UpperBench U size n all r r' left d F w) :
    (World.inReader (((Cursor.machine (N + 1)).batch i).call ask) r').Returns w fun x w' =>
      x.2 = r' ∧ BatchReplies r w' reply x.1 ∧
        Reaches (UpperBench U size n all r r' left
          (d.call n (runs size all).length (.batch i ask)).2) F w w' := by
  have hmimics : (dealing U size all r left).Mimics (dealer.batching dealt) dealt
      (Machine.pile.batch i) ((Cursor.machine (N + 1)).batch i) := (mimics_dealing hsize hU).batch i
  refine (h.answers (.batch i ask) (R := BatchReplies r)
    (Q := fun a => a = reply) hsize hU (fun _ _ _ hs => hmimics.call ask hs) id
    (fun hlater h => h.imp (BatchValue.mono hlater)) ?_).mono ?_
  · intro lefts rest ks b hd hb
    have hcall := lawful_pile.batchCall_batch hd hb hi ask
    rw [Comp.returns_bind, List.length_range] at hcall
    refine hcall.mono ?_
    rintro ⟨a, b⟩ w' ha
    obtain ⟨ha, hacc⟩ := Comp.returns_pure.mp ha
    exact ⟨(BatchReply.batch.inj (ha.trans hreply)).2, hacc⟩
  · rintro ⟨a', _⟩ w' ⟨rfl, _, rfl, hreplies, hreach⟩
    exact ⟨rfl, hreplies, hreach⟩

/-- An inner batch that was handed out reads its chunk. The outer reader does not notice. -/
theorem UpperBench.inner_call
    (hU : (frame τ watch).Supplies True Machine.Exactly (Cursor.machine N) U) {v : Value} {k : Nat}
    (hv : BatchValue r w v k) (ask : Ask) (h : UpperBench U size n all r r' left d F w) :
    (World.inReader (((Cursor.machine N).batch k).call ask) r).Returns w fun x w' =>
      x.2 = r ∧ x.1 = (ListCursor.call ask (left k)).1 ∧
        Reaches (UpperBench U size n all r r'
          (fun j => if j = k then (ListCursor.call ask (left k)).2 else left j) d) F w w' := by
  obtain ⟨b, hb⟩ := h
  obtain ⟨F₂, ⟨ks, pile, lefts, rest, hd, hacc, ⟨-, handed, hks, hbench⟩, halike⟩, hback⟩ :=
    hb.right (keeps_readerAt r' b)
  have hk : k < handed := by
    obtain ⟨_, b₁, -, -, hb₁, hk⟩ := hv
    rwa [hbench.size_eq hb₁] at hk
  refine (hbench.batch_call hU hk ask).mono ?_
  rintro x w' ⟨hr, hx, F', hstep, hbench'⟩
  have hreach : Reaches (Decked U size n all r
      (fun j => if j = k then (ListCursor.call ask (left k)).2 else left j) d b) F₂ w w' :=
    ⟨F', hstep, ks, pile, lefts, rest, hd, hacc, ⟨rfl, handed, hks, hbench'⟩,
      halike.imp id (BatchValue.mono hstep.grows)⟩
  exact ⟨hr, hx, (hback hreach).mono fun _ h => ⟨b, h⟩⟩

end Upper

/-! ## Calls through cells -/

section Cells

open Comparison

variable {U : (frame τ watch).Account Value (Cursor ω τ)} {size n N : Nat} {all : List Value}
variable {r r' : Nat} {left : Nat → List Value} {F : (frame τ watch).Region} {w : World ω τ}
variable {d : Desk Nat} {id : CursorId}

/-- A batch stays the cursor it is: all that moves is the reader it points to. -/
theorem Cursor.cells_call_batch {k : Nat} (hcell : w.cells[id]? = some (.batch k r)) {ask : Ask}
    {Q : Reply Value → World ω τ → Prop}
    (hcall : (World.inReader (((machine N).batch k).call ask) r).Returns w fun x w' =>
      x.2 = r ∧ Later w w' ∧ Q x.1 w') :
    ((cells (N + 1)).call ask id).Returns w fun x w' => Q x.1 w' := by
  rw [cells, cellMachine_call]
  refine (inCell_returns (Q := Q) hcell ?_).mono fun _ _ h => h.2
  rw [machine_call (Cursor.batch k) rfl, readerMachine_call]
  refine hcall.bind ?_
  rintro x w' ⟨hr, hlater, hq⟩
  exact Comp.returns_pure.mpr ⟨congrArg (Cursor.batch k) hr, hlater, hq⟩

/-- A batch of the outer reader that is handed out gets a cell, which touches no place. -/
theorem UpperBench.adopted (hsize : 0 < size)
    (hU : (frame τ watch).Supplies True Machine.Exactly (Cursor.machine N) U) {w' : World ω τ}
    (h : Reaches (UpperBench U size n all r r' left d) F w w') {reply : Reply Nat}
    (hlt : ∀ k, reply = .item (.ok k) → k < d.handed) :
    (Machine.mapReply (fun k => return .cursor (← adopt (.batch k r'))) reply :
      Comp (World ω τ) (Reply Value)).Returns w' fun x w' =>
        BatchReplies r' w' reply x ∧
          Reaches (UpperBench U size n all r r' left d) F w w' := by
  cases reply with
  | more left => exact Comp.returns_pure.mpr ⟨.more left, h⟩
  | item answer =>
    cases answer with
    | error e => exact Comp.returns_pure.mpr ⟨.item (.error e), h⟩
    | ok k =>
      simp only [Machine.mapReply, bind_assoc, pure_bind]
      refine (adopt_returns watch).bind ?_
      rintro id w'' ⟨hcell, hquiet⟩
      obtain ⟨F', hstep, hbench⟩ := h.quiet (keeps_upperBench hsize hU) hquiet
      obtain ⟨b, hb, hhanded⟩ := hbench.reader
      refine Comp.returns_pure.mpr ⟨.item (.ok ⟨id, b, rfl, hcell, hb, ?_⟩), F', hstep, hbench⟩
      rw [hhanded]
      exact hlt k rfl

/-- The outer cursor hands out a cursor on the batch of the next number. -/
theorem UpperBench.cell_outer (hsize : 0 < size)
    (hU : (frame τ watch).Supplies True Machine.Exactly (Cursor.machine N) U)
    (hcell : w.cells[id]? = some (.batches n r')) {ask : Ask} {reply : Reply Nat}
    (hreply : (d.call n (runs size all).length (.outer ask)).1 = .outer reply)
    (h : UpperBench U size n all r r' left d F w) :
    ((Cursor.cells (N + 2)).call ask id).Returns w fun x w' =>
      BatchReplies r' w' reply x.1 ∧
        Reaches (UpperBench U size n all r r' left
          (d.call n (runs size all).length (.outer ask)).2) F w w' := by
  rw [Cursor.cells, cellMachine_call]
  refine (inCell_returns hcell (Q := fun x w' => BatchReplies r' w' reply x ∧
    Reaches (UpperBench U size n all r r' left (d.call n (runs size all).length (.outer ask)).2) F w
      w') ?_).mono fun _ _ h => h.2
  rw [Cursor.machine_call (Cursor.batches n) rfl, Machine.call_map, readerMachine_call]
  simp only [bind_assoc, pure_bind]
  refine (h.batches_call hsize hU hreply).bind ?_
  rintro ⟨_, _⟩ w' ⟨rfl, rfl, hreach⟩
  refine (UpperBench.adopted hsize hU hreach ?_).bind ?_
  · rintro k rfl
    exact Desk.lt_handed_of_call hreply
  · rintro x w'' ⟨hx, F', hstep, h'⟩
    exact Comp.returns_pure.mpr ⟨rfl, hstep.grows, hx, F', hstep, h'⟩

/-- An outer batch hands out a cursor on the chunk of its next number. -/
theorem UpperBench.cell_batch (hsize : 0 < size)
    (hU : (frame τ watch).Supplies True Machine.Exactly (Cursor.machine N) U) {i : Nat}
    (hcell : w.cells[id]? = some (.batch i r')) (hi : i < d.handed) {ask : Ask} {reply : Reply Nat}
    (hreply : (d.call n (runs size all).length (.batch i ask)).1 = .batch i reply)
    (h : UpperBench U size n all r r' left d F w) :
    ((Cursor.cells (N + 2)).call ask id).Returns w fun x w' =>
      BatchReplies r w' reply x.1 ∧
        Reaches (UpperBench U size n all r r' left
          (d.call n (runs size all).length (.batch i ask)).2) F w w' := by
  refine Cursor.cells_call_batch (Q := fun x w' => BatchReplies r w' reply x ∧
    Reaches (UpperBench U size n all r r' left (d.call n (runs size all).length (.batch i ask)).2) F
      w w') hcell ((h.batch_call hsize hU hi hreply).mono ?_)
  rintro x w' ⟨hr, hx, F', hstep, h'⟩
  exact ⟨hr, hstep.grows, hx, F', hstep, h'⟩

/-- An inner batch reads its chunk. -/
theorem UpperBench.cell_inner
    (hU : (frame τ watch).Supplies True Machine.Exactly (Cursor.machine N) U) {k : Nat}
    (hid : BatchValue r w (.cursor id) k) (ask : Ask)
    (h : UpperBench U size n all r r' left d F w) :
    ((Cursor.cells (N + 1)).call ask id).Returns w fun x w' =>
      x.1 = (ListCursor.call ask (left k)).1 ∧ Reaches (UpperBench U size n all r r'
        (fun j => if j = k then (ListCursor.call ask (left k)).2 else left j) d) F w w' := by
  refine Cursor.cells_call_batch (Q := fun x w' => x = (ListCursor.call ask (left k)).1 ∧
    Reaches (UpperBench U size n all r r'
      (fun j => if j = k then (ListCursor.call ask (left k)).2 else left j) d) F w w') hid.cell
    ((h.inner_call hU hid ask).mono ?_)
  rintro x w' ⟨hr, hx, F', hstep, h'⟩
  exact ⟨hr, hstep.grows, hx, F', hstep, h'⟩

end Cells

end LazySeq
