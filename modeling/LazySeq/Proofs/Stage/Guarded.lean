import LazySeq.Proofs.Batch.Schedule
import LazySeq.Proofs.Named
import LazySeq.Proofs.Stage.Lockstep
import LazySeq.Proofs.Stage.Replay
import LazySeq.Sequence.Basic
import LazySeq.Stage.Join
import LazySeq.Stage.Product
import LazySeq.Stage.Select
import LazySeq.Stage.Transform

/-!
# Every pull is guarded

A stage asks a cursor below for an element only where the last reply of that cursor was that one is
left. It is so whatever the cursors below do, and however the stage is called: what a stage needs of
them is only that such pulls do no harm (`Machine.Guards`), and a stage over them then does no harm
under any calls at all (`Machine.Upholds`).

`pulls_guarded` says this for all stages that pull, over cursors with names: in the list of all
signals every pull is guarded. So if the cursors below hand out what they announce, no pull fails, and
no stage comes to where it has to deal with a failure.
-/

namespace LazySeq

variable {ω σ τ ρ α β : Type} {I : ω → Prop}

namespace Machine

/-! ## Below and above a stage -/

/-- The cursors of `m` leave a world of `I`, as long as an element is taken only from a cursor that
is `Told` to have one. -/
structure Guards (I : ω → Prop) (Told : σ → ω → Prop) (m : Machine ω σ α) : Prop where
  hasNext (s : σ) (w : ω) : I w → (m.hasNext s).Upholds I w fun r w' => r.1 = true → Told r.2 w'
  next (s : σ) (w : ω) : Told s w → I w → (m.next s).Upholds I w fun _ _ => True

/-- The cursors of `k` that stand `Well` leave a world of `I` and stand well again, whatever they
are asked. -/
structure Upholds (I : ω → Prop) (Well : σ → Prop) (k : Machine ω σ α) : Prop where
  hasNext (s : σ) (w : ω) : Well s → I w → (k.hasNext s).Upholds I w fun r _ => Well r.2
  next (s : σ) (w : ω) : Well s → I w → (k.next s).Upholds I w fun r _ => Well r.2

theorem upholds_of_keeps {k : Machine ω σ α} (hasNext : ∀ s, (k.hasNext s).Keeps I)
    (next : ∀ s, (k.next s).Keeps I) : k.Upholds I fun _ => True where
  hasNext s w _ hw := hasNext s w hw
  next s w _ hw := next s w hw

theorem Upholds.call {k : Machine ω σ α} {Well : σ → Prop} (h : k.Upholds I Well) (ask : Ask)
    {s : σ} {w : ω} (hs : Well s) (hw : I w) : (k.call ask s).Upholds I w fun r _ => Well r.2 :=
  upholds_call (fun _ => h.hasNext s w hs hw) fun _ => h.next s w hs hw

theorem Upholds.run {k : Machine ω σ α} {Well : σ → Prop} (h : k.Upholds I Well) {asks : List Ask}
    {s : σ} {w : ω} (hs : Well s) (hw : I w) : (k.run asks s).Upholds I w fun _ _ => True := by
  have hrun := upholds_run I (fun (_ : List (Reply α)) _ s => Well s)
    (fun ask _ _ _ hw hs => h.call ask hs hw) asks hw hs
  exact hrun.mono fun _ _ _ => trivial

/-! ## Pulls -/

variable {Told : σ → ω → Prop} {m : Machine ω σ α}

theorem Guards.pull? (h : m.Guards I Told) (s : σ) : (m.pull? s).Keeps I := by
  intro w hw
  refine (h.hasNext s w hw).bind ?_
  rintro ⟨more, s⟩ w hw htold
  cases more with
  | false => exact Comp.upholds_pure.mpr ⟨hw, trivial⟩
  | true =>
    refine (h.next s w (htold rfl) hw).bind ?_
    rintro ⟨answer, s⟩ w hw _
    exact Comp.upholds_pure.mpr ⟨hw, trivial⟩

theorem Guards.collect (h : m.Guards I Told) (n : Nat) (s : σ) : (m.collect n s).Keeps I := by
  suffices hgather : ∀ taken, (m.gather (pure ()) n taken s).Keeps I from hgather []
  induction n generalizing s with
  | zero => exact fun taken => (Comp.keeps_pure ()).bind fun _ => Comp.keeps_pure _
  | succ n ih =>
    intro taken
    refine (h.pull? s).bind ?_
    rintro ⟨answer, s⟩
    cases answer with
    | none => exact Comp.keeps_pure _
    | some a => exact ih s (a :: taken)

/-- Whatever is done with the elements handed out, the cursors are as careful as before. -/
theorem Guards.map (h : m.Guards I Told) {f : α → Comp ω β} (hf : ∀ a, (f a).Keeps I) :
    (m.map f).Guards I Told where
  hasNext := h.hasNext
  next s w htold hw := by
    refine (h.next s w htold hw).bind ?_
    rintro ⟨answer, s⟩ w hw _
    cases answer with
    | error e => exact Comp.upholds_pure.mpr ⟨hw, trivial⟩
    | ok a => exact ((hf a).bind fun _ => Comp.keeps_pure _) w hw

/-! ## Looking ahead -/

theorem upholds_peek {fetch : σ → Comp ω (Option α × σ)} (hfetch : ∀ s, (fetch s).Keeps I) :
    (peek fetch).Upholds I fun _ => True := by
  have hfill (p : Peeked σ α) : (fill fetch p).Keeps I := by
    obtain ⟨s, slot⟩ := p
    cases slot with
    | held a => exact Comp.keeps_pure _
    | closed => exact Comp.keeps_pure _
    | empty =>
      refine (hfetch s).bind ?_
      rintro ⟨answer, s⟩
      cases answer <;> exact Comp.keeps_pure _
  refine upholds_of_keeps hfill fun p => (hfill p).bind ?_
  rintro ⟨more, s, slot⟩
  cases slot <;> exact Comp.keeps_pure _

variable {test : α → Comp ω Bool}

theorem Guards.filter (h : m.Guards I Told) (htest : ∀ a, (test a).Keeps I) (fuel : Nat) :
    (m.filter fuel test).Upholds I fun _ => True := by
  refine upholds_peek fun s => ?_
  induction fuel generalizing s with
  | zero => exact Comp.keeps_throw _
  | succ n ih =>
    refine (h.pull? s).bind ?_
    rintro ⟨answer, s⟩
    cases answer with
    | none => exact Comp.keeps_pure _
    | some a =>
      refine (htest a).bind fun passed => ?_
      cases passed with
      | false => exact ih s
      | true => exact Comp.keeps_pure _

theorem Guards.takeWhile (h : m.Guards I Told) (htest : ∀ a, (test a).Keeps I) :
    (m.takeWhile test).Upholds I fun _ => True := by
  refine upholds_peek fun s => (h.pull? s).bind ?_
  rintro ⟨answer, s⟩
  cases answer with
  | none => exact Comp.keeps_pure _
  | some a =>
    refine (htest a).bind fun passed => ?_
    cases passed <;> exact Comp.keeps_pure _

theorem Guards.dropWhile (h : m.Guards I Told) (htest : ∀ a, (test a).Keeps I) (fuel : Nat) :
    (m.dropWhile fuel test).Upholds I fun _ => True := by
  refine upholds_peek fun d => ?_
  induction fuel generalizing d with
  | zero => exact Comp.keeps_throw _
  | succ n ih =>
    refine (h.pull? d.source).bind ?_
    rintro ⟨answer, s⟩
    cases answer with
    | none => exact Comp.keeps_pure _
    | some a =>
      obtain ⟨source, dropping⟩ := d
      cases dropping with
      | false => exact Comp.keeps_pure _
      | true =>
        refine (htest a).bind fun passed => ?_
        cases passed with
        | false => exact Comp.keeps_pure _
        | true => exact ih ⟨s, true⟩

theorem Guards.slice (h : m.Guards I Told) (win : Window) (fuel : Nat) :
    (m.slice fuel win).Upholds I fun _ => True := by
  refine upholds_peek fun c => ?_
  induction fuel generalizing c with
  | zero => exact Comp.keeps_throw _
  | succ n ih =>
    rw [seekWindow]
    split
    · exact Comp.keeps_pure _
    · refine (h.pull? c.source).bind ?_
      rintro ⟨answer, s⟩
      cases answer with
      | none => exact Comp.keeps_pure _
      | some a =>
        dsimp only
        split
        · exact Comp.keeps_pure _
        · exact ih ⟨s, c.index + 1⟩

/-! ## Batches -/

theorem Guards.batchesHasNext (h : m.Guards I Told) (b : Batching σ α) :
    (m.batchesHasNext b).Keeps I := by
  refine ((h.collect b.quota b.reader).bind fun _ => Comp.keeps_pure _).bind ?_
  intro b
  exact (Comp.Upholds.keeps (h.hasNext b.reader)).bind fun _ => Comp.keeps_pure _

/-- A batch that says yes has an element set aside, or was told so by the cursor below. -/
theorem Guards.batchHasNext (h : m.Guards I Told) (k : Nat) (b : Batching σ α) {w : ω} (hw : I w) :
    (m.batchHasNext k b).Upholds I w fun r w' =>
      b.shelf k = [] → r.1 = true → Told r.2.reader w' := by
  rw [Machine.batchHasNext]
  split
  · next hshelf => exact Comp.upholds_pure.mpr ⟨hw, fun hnil => by simp [hnil] at hshelf⟩
  · split
    · refine (h.hasNext b.reader w hw).bind ?_
      rintro ⟨more, s⟩ w hw htold
      exact Comp.upholds_pure.mpr ⟨hw, fun _ => htold⟩
    · exact Comp.upholds_pure.mpr ⟨hw, nofun⟩

theorem Guards.batches (h : m.Guards I Told) (size : Nat) :
    (m.batches size).Upholds I fun _ => True := by
  refine upholds_of_keeps h.batchesHasNext fun b => (h.batchesHasNext b).bind ?_
  rintro ⟨more, b⟩
  cases more <;> exact Comp.keeps_pure _

theorem Guards.batch (h : m.Guards I Told) (k : Nat) : (m.batch k).Upholds I fun _ => True := by
  refine upholds_of_keeps (fun b => .keeps fun w => h.batchHasNext k b) fun b => ?_
  cases hshelf : b.shelf k with
  | cons a rest =>
    simp only [Machine.batch, hshelf]
    exact Comp.keeps_pure _
  | nil =>
    simp only [Machine.batch, hshelf]
    intro w hw
    refine (h.batchHasNext k b hw).bind ?_
    rintro ⟨more, b⟩ w hw htold
    cases more with
    | false => exact Comp.upholds_pure.mpr ⟨hw, trivial⟩
    | true =>
      refine (h.next b.reader w (htold hshelf rfl) hw).bind ?_
      intro _ w hw _
      exact Comp.upholds_pure.mpr ⟨hw, trivial⟩

theorem Guards.batchRun (h : m.Guards I Told) (size : Nat) (asks : List BatchAsk)
    (b : Batching σ α) : (m.batchRun size asks b).Keeps I := by
  induction asks generalizing b with
  | nil => exact Comp.keeps_pure _
  | cons ask asks ih =>
    have hcall : (m.batchCall size ask b).Keeps I := by
      cases ask with
      | outer ask =>
        exact (Comp.Upholds.keeps fun w => (h.batches size).call ask trivial).bind fun _ =>
          Comp.keeps_pure _
      | batch k ask =>
        rw [Machine.batchCall]
        split
        · exact (Comp.Upholds.keeps fun w => (h.batch k).call ask trivial).bind fun _ =>
            Comp.keeps_pure _
        · exact Comp.keeps_pure _
    refine hcall.bind ?_
    rintro ⟨reply, b⟩
    exact (ih b).bind fun _ => Comp.keeps_pure _

/-! ## Cursors of cursors -/

variable {Told' : τ → ω → Prop} {k : Machine ω τ β}

/-- If there is an element, there is a current cursor, and it has said so. -/
theorem Guards.settle {outer : Machine ω σ τ} (h : outer.Guards I Told) (hk : k.Guards I Told')
    (fuel : Nat) {c : Nested σ τ} {w : ω} (hw : I w) :
    (settle outer k fuel c).Upholds I w fun r w' =>
      r.1 = true → ∀ t, r.2.current = some t → Told' t w' := by
  induction fuel generalizing c w with
  | zero => exact Comp.upholds_throw.mpr hw
  | succ n ih =>
    have hcurrent : (k.currentHasNext c.current).Upholds I w fun r w' =>
        r.1 = true → ∀ t, r.2 = some t → Told' t w' := by
      cases c.current with
      | none => exact Comp.upholds_pure.mpr ⟨hw, nofun⟩
      | some t =>
        refine (hk.hasNext t w hw).bind ?_
        rintro ⟨more, t⟩ w hw htold
        refine Comp.upholds_pure.mpr ⟨hw, ?_⟩
        rintro hmore _ ⟨⟩
        exact htold hmore
    refine hcurrent.bind ?_
    rintro ⟨more, current⟩ w hw htold
    cases more with
    | true => exact Comp.upholds_pure.mpr ⟨hw, fun _ => htold rfl⟩
    | false =>
      refine (h.hasNext c.outer w hw).bind ?_
      rintro ⟨more, s⟩ w hw htold
      cases more with
      | false => exact Comp.upholds_pure.mpr ⟨hw, nofun⟩
      | true =>
        refine (h.next s w (htold rfl) hw).bind ?_
        rintro ⟨answer, s⟩ w hw _
        exact ih hw

theorem Guards.flatten {outer : Machine ω σ τ} (h : outer.Guards I Told) (hk : k.Guards I Told')
    (fuel : Nat) : (flatten fuel outer k).Upholds I fun _ => True := by
  refine upholds_of_keeps (fun c => .keeps fun w => h.settle hk fuel) fun c w hw => ?_
  refine (h.settle hk fuel hw).bind ?_
  rintro ⟨more, s, current⟩ w hw htold
  cases more with
  | false => exact Comp.upholds_pure.mpr ⟨hw, trivial⟩
  | true =>
    cases current with
    | none => exact Comp.upholds_pure.mpr ⟨hw, trivial⟩
    | some t =>
      refine (hk.next t w (htold rfl t rfl) hw).bind ?_
      intro _ w hw _
      exact Comp.upholds_pure.mpr ⟨hw, trivial⟩

/-! ## Rows and passes that are started anew -/

theorem Guards.seekRow (h : m.Guards I Told) {start : Comp ω τ} (hstart : start.Keeps I)
    (hk : k.Guards I Told') (fuel : Nat) {c : Rowed σ τ α} {w : ω} (hw : I w) :
    (m.seekRow start k fuel c).Upholds I w fun r w' =>
      r.1 = true → ∀ a t, r.2.row = some (a, t) → Told' t w' := by
  induction fuel generalizing c w with
  | zero => exact Comp.upholds_throw.mpr hw
  | succ n ih =>
    have hrow : (k.rowHasNext c.row).Upholds I w fun r w' =>
        r.1 = true → ∀ a t, r.2 = some (a, t) → Told' t w' := by
      cases c.row with
      | none => exact Comp.upholds_pure.mpr ⟨hw, nofun⟩
      | some row =>
        refine (hk.hasNext row.2 w hw).bind ?_
        rintro ⟨more, t⟩ w hw htold
        refine Comp.upholds_pure.mpr ⟨hw, ?_⟩
        rintro hmore _ _ ⟨⟩
        exact htold hmore
    refine hrow.bind ?_
    rintro ⟨more, row⟩ w hw htold
    cases more with
    | true => exact Comp.upholds_pure.mpr ⟨hw, fun _ => htold rfl⟩
    | false =>
      refine (h.pull? c.outer w hw).bind ?_
      rintro ⟨answer, s⟩ w hw _
      cases answer with
      | none => exact Comp.upholds_pure.mpr ⟨hw, nofun⟩
      | some a =>
        refine (hstart w hw).bind ?_
        intro t w hw _
        exact ih hw

theorem Guards.pairs (h : m.Guards I Told) {start : Comp ω τ} (hstart : start.Keeps I)
    (hk : k.Guards I Told') (fuel : Nat) : (m.pairs fuel start k).Upholds I fun _ => True := by
  refine upholds_of_keeps (fun c => .keeps fun w => h.seekRow hstart hk fuel) fun c w hw => ?_
  refine (h.seekRow hstart hk fuel hw).bind ?_
  rintro ⟨more, s, row⟩ w hw htold
  cases more with
  | false => exact Comp.upholds_pure.mpr ⟨hw, trivial⟩
  | true =>
    cases row with
    | none => exact Comp.upholds_pure.mpr ⟨hw, trivial⟩
    | some row =>
      refine (hk.next row.2 w (htold rfl row.1 row.2 rfl) hw).bind ?_
      intro _ w hw _
      exact Comp.upholds_pure.mpr ⟨hw, trivial⟩

/-- What a replay says it will hand out, the running pass has said before. -/
def PassTold (Told : σ → ω → Prop) (r : Bool × Replay σ) (w : ω) : Prop :=
  r.1 = true → ∀ s yielded left, r.2 = .running s yielded left → Told s w

theorem Guards.startPass (h : m.Guards I Told) {start : Comp ω σ} (hstart : start.Keeps I)
    (left : Option Nat) {w : ω} (hw : I w) :
    (m.startPass start left).Upholds I w (PassTold Told) := by
  by_cases hzero : left = some 0
  · rw [hzero]
    exact Comp.upholds_pure.mpr ⟨hw, nofun⟩
  · rw [Frame.startPass_of_ne_zero hzero]
    refine (hstart w hw).bind ?_
    intro s w hw _
    refine (h.hasNext s w hw).bind ?_
    rintro ⟨more, s⟩ w hw htold
    cases more with
    | false => exact Comp.upholds_pure.mpr ⟨hw, nofun⟩
    | true =>
      refine Comp.upholds_pure.mpr ⟨hw, ?_⟩
      rintro - _ _ _ ⟨⟩
      exact htold rfl

theorem Guards.replayHasNext (h : m.Guards I Told) {start : Comp ω σ} (hstart : start.Keeps I)
    (r : Replay σ) {w : ω} (hw : I w) :
    (m.replayHasNext start r).Upholds I w (PassTold Told) := by
  cases r with
  | fresh left => exact h.startPass hstart left hw
  | ended => exact Comp.upholds_pure.mpr ⟨hw, nofun⟩
  | running s yielded left =>
    refine (h.hasNext s w hw).bind ?_
    rintro ⟨more, s⟩ w hw htold
    cases more with
    | true =>
      refine Comp.upholds_pure.mpr ⟨hw, ?_⟩
      rintro - _ _ _ ⟨⟩
      exact htold rfl
    | false =>
      cases yielded with
      | true => exact h.startPass hstart left hw
      | false => exact Comp.upholds_pure.mpr ⟨hw, nofun⟩

theorem Guards.replay (h : m.Guards I Told) {start : Comp ω σ} (hstart : start.Keeps I) :
    (m.replay start).Upholds I fun _ => True := by
  refine upholds_of_keeps (fun r => .keeps fun w => h.replayHasNext hstart r) fun r w hw => ?_
  refine (h.replayHasNext hstart r hw).bind ?_
  rintro ⟨more, r⟩ w hw htold
  cases more with
  | false => exact Comp.upholds_pure.mpr ⟨hw, trivial⟩
  | true =>
    cases r with
    | fresh left => exact Comp.upholds_pure.mpr ⟨hw, trivial⟩
    | ended => exact Comp.upholds_pure.mpr ⟨hw, trivial⟩
    | running s yielded left =>
      refine (h.next s w (htold rfl s yielded left rfl) hw).bind ?_
      intro _ w hw _
      exact Comp.upholds_pure.mpr ⟨hw, trivial⟩

/-! ## Rows in lockstep -/

/-- A latch takes a row only after every cursor of it was asked. -/
theorem upholds_latch {row : Machine ω ρ α} (Well : ρ → Prop) (Told : ρ → ω → Prop)
    (hasNext : ∀ c w, Well c → I w → (row.hasNext c).Upholds I w fun r w' =>
      Well r.2 ∧ (r.1 = true → Told r.2 w'))
    (next : ∀ c w, Well c → Told c w → I w → (row.next c).Upholds I w fun r _ => Well r.2) :
    row.latch.Upholds I fun l => Well l.cursors := by
  have hlatch (l : Latched ρ) (w : ω) (hl : Well l.cursors) (hw : I w) :
      (row.latchHasNext l).Upholds I w fun r w' =>
        Well r.2.cursors ∧ (r.1 = true → Told r.2.cursors w') := by
    rw [latchHasNext]
    split
    · exact Comp.upholds_pure.mpr ⟨hw, hl, nofun⟩
    · refine (hasNext l.cursors w hl hw).bind ?_
      intro _ w hw hrow
      exact Comp.upholds_pure.mpr ⟨hw, hrow⟩
  constructor
  · intro l w hl hw
    exact (hlatch l w hl hw).mono fun _ _ h => h.1
  · intro l w hl hw
    refine (hlatch l w hl hw).bind ?_
    rintro ⟨more, l⟩ w hw ⟨hl, htold⟩
    cases more with
    | false => exact Comp.upholds_pure.mpr ⟨hw, hl⟩
    | true =>
      refine (next l.cursors w hl (htold rfl) hw).bind ?_
      intro _ w hw hl
      exact Comp.upholds_pure.mpr ⟨hw, hl⟩

/-! ## Over cursors with names -/

section Named

variable {m : Machine ω σ α}

/-- No two cursors of a row have the same name. -/
def Distinct (cs : List (Nat × σ)) : Prop :=
  (cs.map Prod.fst).Nodup

theorem distinct_of_eq {names : List Nat} {cs : List (Nat × σ)} (h : cs.map Prod.fst = names)
    (hnames : names.Nodup) : Distinct cs := by
  rw [Distinct, h]
  exact hnames

/-- Every cursor of a row has announced an element. -/
def AllTold (cs : List (Nat × σ)) (v : Noted ω Signal) : Prop :=
  ∀ c ∈ cs, Announced v.notes c.1

/-- What was announced by cursors other than those of `names` in the one list of signals, is so in
the other. -/
def Undisturbed (names : List Nat) (signals signals' : List Signal) : Prop :=
  ∀ i ∉ names, Announced signals i → Announced signals' i

theorem guards_named : m.named.Guards InOrder fun c v => Announced v.notes c.1 where
  hasNext c v hv := by
    refine (upholds_named_hasNext hv).mono ?_
    rintro ⟨more, c'⟩ v' ⟨hname, hnotes⟩ (hmore : more = true)
    rw [hname, hnotes, hmore]
    exact announced_concat_self
  next c v hc hv := (upholds_named_next hv hc).mono fun _ _ _ => trivial

theorem keeps_enrol (s : σ) : (enrol s : Comp (Noted ω Signal) _).Keeps InOrder :=
  .keeps fun _ => upholds_enrol

theorem keeps_below (act : Comp ω α) :
    (Noted.below act : Comp (Noted ω Signal) α).Keeps InOrder :=
  .keeps fun _ => Noted.upholds_below

/-- Two signals about one cursor. -/
theorem undisturbed_concat {signals : List Signal} {e e' : Signal} {names : List Nat}
    (he : e.cursor ∈ names) (he' : e'.cursor ∈ names) :
    Undisturbed names signals (signals ++ [e] ++ [e']) := by
  intro i hi h
  rw [announced_concat_of_ne (ne_of_mem_of_not_mem he' hi),
    announced_concat_of_ne (ne_of_mem_of_not_mem he hi)]
  exact h

theorem Undisturbed.trans {names : List Nat} {signals signals' signals'' : List Signal}
    (h : Undisturbed names signals signals') (h' : Undisturbed names signals' signals'') :
    Undisturbed names signals signals'' :=
  fun i hi ha => h' i hi (h i hi ha)

theorem Undisturbed.mono {names names' : List Nat} {signals signals' : List Signal}
    (h : Undisturbed names signals signals') (hsub : names ⊆ names') :
    Undisturbed names' signals signals' :=
  fun i hi => h i fun hmem => hi (hsub hmem)

/-- Cursors with different names are asked one after the other, and what one has announced still
stands when all were asked. -/
theorem upholds_allHaveNext {cs : List (Nat × σ)} {v : Noted ω Signal}
    (hnames : Distinct cs) (hv : InOrder v) :
    (m.named.allHaveNext cs).Upholds InOrder v fun r v' => r.2.map Prod.fst = cs.map Prod.fst ∧
      (r.1 = true → AllTold r.2 v') ∧
      Undisturbed (cs.map Prod.fst) v.notes v'.notes := by
  induction cs generalizing v with
  | nil =>
    refine Comp.upholds_pure.mpr ⟨hv, rfl, ?_, fun _ _ h => h⟩
    exact fun _ _ hc => absurd hc List.not_mem_nil
  | cons c cs ih =>
    obtain ⟨hfst, hnames⟩ := List.nodup_cons.mp hnames
    refine (upholds_named_hasNext hv).bind ?_
    rintro ⟨more, c'⟩ v₁ hv₁ ⟨hname, hnotes⟩
    have hquiet : Undisturbed ((c :: cs).map Prod.fst) v.notes v₁.notes := by
      rw [hnotes]
      exact undisturbed_concat (by simp [Signal.cursor]) (by simp [Signal.cursor])
    dsimp only at hname hnotes ⊢
    cases more with
    | false =>
      refine Comp.upholds_pure.mpr ⟨hv₁, ?_, fun h => absurd h Bool.false_ne_true, hquiet⟩
      rw [List.map_cons, List.map_cons, hname]
    | true =>
      have htold : Announced v₁.notes c.1 := by
        rw [hnotes]
        exact announced_concat_self
      refine (ih hnames hv₁).bind ?_
      rintro ⟨more, rest⟩ v₂ hv₂ ⟨hrest, hall, hquiet'⟩
      refine Comp.upholds_pure.mpr ⟨hv₂, ?_, ?_, ?_⟩
      · rw [List.map_cons, List.map_cons, hname, hrest]
      · intro hmore d hd
        rcases List.mem_cons.mp hd with rfl | hd
        · rw [hname]
          exact hquiet' c.1 hfst htold
        · exact hall hmore d hd
      · exact hquiet.trans (hquiet'.mono (List.subset_cons_self _ _))

/-- Taking an element of each leaves the announcements of those that come after. -/
theorem upholds_nextOfAll {cs : List (Nat × σ)} {v : Noted ω Signal}
    (hnames : Distinct cs) (htold : AllTold cs v) (hv : InOrder v) :
    (m.named.nextOfAll cs).Upholds InOrder v fun r _ => r.2.map Prod.fst = cs.map Prod.fst := by
  induction cs generalizing v with
  | nil => exact Comp.upholds_pure.mpr ⟨hv, rfl⟩
  | cons c cs ih =>
    obtain ⟨hfst, hnames⟩ := List.nodup_cons.mp hnames
    refine (upholds_named_next hv (htold c List.mem_cons_self)).bind ?_
    rintro ⟨answer, c'⟩ v₁ hv₁ ⟨hname, hnotes⟩
    have hquiet : Undisturbed [c.1] v.notes v₁.notes := by
      rw [hnotes]
      exact undisturbed_concat List.mem_cons_self List.mem_cons_self
    dsimp only at hname ⊢
    cases answer with
    | error e =>
      refine Comp.upholds_pure.mpr ⟨hv₁, ?_⟩
      rw [List.map_cons, List.map_cons, hname]
    | ok a =>
      have hrest (d : Nat × σ) (hd : d ∈ cs) : Announced v₁.notes d.1 := by
        have hne : d.1 ≠ c.1 := ne_of_mem_of_not_mem (List.mem_map_of_mem hd) hfst
        exact hquiet d.1 (by simpa using hne) (htold d (List.mem_cons_of_mem c hd))
      refine (ih hnames hrest hv₁).bind ?_
      rintro ⟨row, rest⟩ v₂ hv₂ hsame
      refine Comp.upholds_pure.mpr ⟨hv₂, ?_⟩
      rw [List.map_cons, List.map_cons, hname, hsame]

theorem upholds_listRow : (m.named.listRow.latch).Upholds InOrder fun l => Distinct l.cursors := by
  refine upholds_latch Distinct AllTold ?_ ?_
  · intro cs v hnames hv
    rw [listRow]
    dsimp only
    split
    · exact Comp.upholds_pure.mpr ⟨hv, hnames, fun h => absurd h Bool.false_ne_true⟩
    · refine (upholds_allHaveNext hnames hv).mono ?_
      rintro r v' ⟨hsame, htold, _⟩
      exact ⟨distinct_of_eq hsame hnames, htold⟩
  · intro cs v hnames htold hv
    refine (upholds_nextOfAll hnames htold hv).mono ?_
    intro r v' hsame
    exact distinct_of_eq hsame hnames

theorem upholds_tupleRow :
    (m.named.tupleRow.latch).Upholds InOrder fun l => Distinct l.cursors.toList := by
  refine upholds_latch (fun t : Tuple (Nat × σ) => Distinct t.toList)
    (fun t => AllTold t.toList) ?_ ?_
  · intro t v hnames hv
    have hlist := upholds_allHaveNext (m := m) hnames hv
    rw [← tupleHasNext_toList, Comp.upholds_bind_pure] at hlist
    refine hlist.mono ?_
    rintro r v' ⟨hsame, htold, _⟩
    exact ⟨distinct_of_eq hsame hnames, htold⟩
  · intro t v hnames htold hv
    have hlist := upholds_nextOfAll (m := m) hnames htold hv
    rw [← tupleNext_toList, Comp.upholds_bind_pure] at hlist
    refine hlist.mono ?_
    intro r v' hsame
    exact distinct_of_eq hsame hnames

end Named

end Machine

/-! ## Every stage that pulls -/

/-- Run where nothing has been signalled yet, `act` guards every pull it makes, whether it answers
or halts; and if all cursors have handed out what they announced, none of its pulls has failed. -/
def PullsGuarded (act : Comp (Noted ω Signal) α) : Prop :=
  ∀ w, Guarded (act.left ⟨w, []⟩).notes ∧
    (Honoured (act.left ⟨w, []⟩).notes → Unfailing (act.left ⟨w, []⟩).notes)

theorem pullsGuarded_of_upholds {act : Comp (Noted ω Signal) α} {Q : α → Noted ω Signal → Prop}
    (h : ∀ v, InOrder v → act.Upholds InOrder v Q) : PullsGuarded act := by
  intro w
  have hleft := (h ⟨w, []⟩ orderly_nil).left
  exact ⟨hleft.guarded, hleft.unfailing⟩

open Machine in
/-- Whatever the cursors below do, whatever the test says, and whatever is asked of the stage: every
pull is guarded that is made by a filter, a takeWhile, a dropWhile, a slice, a batching cursor and
its batches, a flattening cursor (below it the outer cursor and every cursor it hands out), the
pairs of an outer cursor with the rows of an inner sequence, rows over a tuple or over a list of
cursors, and a replay with all its passes. Cursors that a stage is handed or starts itself are given
their names as they come into being. -/
theorem pulls_guarded (m : Machine ω σ α) (outer : Machine ω ρ τ) (k : Machine ω τ β)
    (inner : Comp ω τ) (test : α → Comp ω Bool) (win : Window) (fuel size : Nat)
    (passes : Option Nat) (s : σ) (r : ρ) (t : Tuple σ) (ss : List σ) (asks : List Ask)
    (calls : List BatchAsk) :
    PullsGuarded (do
        (m.named.filter fuel fun a => Noted.below (test a)).run asks (.fresh (← enrol s))) ∧
      PullsGuarded (do
        (m.named.takeWhile fun a => Noted.below (test a)).run asks (.fresh (← enrol s))) ∧
      PullsGuarded (do
        (m.named.dropWhile fuel fun a => Noted.below (test a)).run asks
          (.fresh ⟨← enrol s, true⟩)) ∧
      PullsGuarded (do (m.named.slice fuel win).run asks (.fresh ⟨← enrol s, 0⟩)) ∧
      PullsGuarded (do m.named.batchRun size calls (.fresh (← enrol s))) ∧
      PullsGuarded (do (flatten fuel (outer.named.map enrol) k.named).run asks ⟨← enrol r, none⟩) ∧
      PullsGuarded (do
        (m.named.pairs fuel (do enrol (← Noted.below inner)) k.named).run asks
          ⟨← enrol s, none⟩) ∧
      PullsGuarded (do m.named.tupleRow.latch.run asks ⟨← enrolTuple t, false⟩) ∧
      PullsGuarded (do m.named.listRow.latch.run asks ⟨← enrolList ss, false⟩) ∧
      PullsGuarded (k.named.replay (do enrol (← Noted.below inner)) |>.run asks (.fresh passes)) := by
  have hstart : (do enrol (← Noted.below inner) : Comp (Noted ω Signal) _).Keeps InOrder :=
    (keeps_below inner).bind keeps_enrol
  have htest (a : α) := keeps_below (test a)
  refine ⟨?_, ?_, ?_, ?_, ?_, ?_, ?_, ?_, ?_, ?_⟩
  · exact pullsGuarded_of_upholds fun v hv => (upholds_enrol hv).bind fun c v' hv' _ =>
      (guards_named.filter htest fuel).run trivial hv'
  · exact pullsGuarded_of_upholds fun v hv => (upholds_enrol hv).bind fun c v' hv' _ =>
      (guards_named.takeWhile htest).run trivial hv'
  · exact pullsGuarded_of_upholds fun v hv => (upholds_enrol hv).bind fun c v' hv' _ =>
      (guards_named.dropWhile htest fuel).run trivial hv'
  · exact pullsGuarded_of_upholds fun v hv => (upholds_enrol hv).bind fun c v' hv' _ =>
      (guards_named.slice win fuel).run trivial hv'
  · exact pullsGuarded_of_upholds fun v hv => (upholds_enrol hv).bind fun c v' hv' _ =>
      guards_named.batchRun size calls _ v' hv'
  · exact pullsGuarded_of_upholds fun v hv => (upholds_enrol hv).bind fun c v' hv' _ =>
      ((guards_named.map keeps_enrol).flatten guards_named fuel).run trivial hv'
  · exact pullsGuarded_of_upholds fun v hv => (upholds_enrol hv).bind fun c v' hv' _ =>
      (guards_named.pairs hstart guards_named fuel).run trivial hv'
  · exact pullsGuarded_of_upholds fun v hv => (upholds_enrolTuple hv).bind fun cs v' hv' hnames =>
      upholds_tupleRow.run (distinct_of_eq hnames.1 List.nodup_range') hv'
  · exact pullsGuarded_of_upholds fun v hv => (upholds_enrolList hv).bind fun cs v' hv' hnames =>
      upholds_listRow.run (distinct_of_eq hnames.1 List.nodup_range') hv'
  · exact pullsGuarded_of_upholds fun v hv => (guards_named.replay hstart).run trivial hv

/-- Two cursors of one element each, walked in lockstep: both are asked before either is pulled. -/
example :
    let row : Comp (Noted Unit Signal) (List (Reply (Tuple Nat)) × _) := do
      let cursors ← enrolTuple (.pair (.fresh [1]) (.fresh [2]))
      (Machine.peek pullHead).named.tupleRow.latch.run [.next] ⟨cursors, false⟩
    (row.left ⟨(), []⟩).notes =
      [.begins 0, .begins 1, .asks 0 .hasNext, .replies 0 (.more true), .asks 1 .hasNext,
        .replies 1 (.more true), .asks 0 .next, .replies 0 (.item (.ok ())), .asks 1 .next,
        .replies 1 (.item (.ok ()))] := by
  rfl

end LazySeq
