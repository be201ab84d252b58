import LazySeq.Proofs.Batch.Rack
import LazySeq.Proofs.Cursor.Dealing
import LazySeq.Proofs.Independence.Session

/-!
# Batches of batches can be read in any order

A caller cuts a sequence into batches and the batches into batches again. It holds the outer cursor,
the outer batches and the inner batches, and calls them in any order (`Nest.run`). Two readers are
shared, one inside the other: what the outer one sets aside are cursors on inner batches, and to get
at them it makes the inner one set aside elements.

`Nest.run_opened` says that the caller cannot tell this from a rack, on which nothing is shared.
-/

namespace LazySeq

open LazySeq.Frame World Batching

variable {ω τ υ α β : Type} {watch : ω → υ}

/-! ## A caller -/

/-- What a caller holds: the outer cursor, the outer batches, and the inner batches that each of
them has handed out. -/
structure Nest where
  outer : CursorId
  batches : List CursorId
  inner : Nat → List CursorId

namespace Nest

/-- No batch was handed out. -/
def opened (outer : CursorId) : Nest := ⟨outer, [], fun _ => []⟩

/-- Makes one call. A call on a batch that was not handed out yet is skipped. -/
def call (fuel : Nat) : NestedAsk → Nest → Comp (World ω τ) (NestedReply Value × Nest)
  | .outer ask, s => do
    let (reply, _) ← (Cursor.cells fuel).call ask s.outer
    return (.outer reply.plain, ⟨s.outer, s.batches ++ reply.cursors, s.inner⟩)
  | .batch i ask, s =>
    match s.batches[i]? with
    | none => return (.absent, s)
    | some id => do
      let (reply, _) ← (Cursor.cells fuel).call ask id
      return (.batch i reply.plain,
        ⟨s.outer, s.batches, Function.update s.inner i (s.inner i ++ reply.cursors)⟩)
  | .inner i j ask, s =>
    match (s.inner i)[j]? with
    | none => return (.absent, s)
    | some id => do
      let (reply, _) ← (Cursor.cells fuel).call ask id
      return (.inner i j reply, s)

/-- Makes the calls of a schedule, in order. -/
def run (fuel : Nat) : List NestedAsk → Nest → Comp (World ω τ) (List (NestedReply Value))
  | [], _ => return []
  | ask :: asks, s => do
    let (reply, s) ← s.call fuel ask
    return reply :: (← run fuel asks s)

end Nest

/-! ## One call and a schedule -/

/-- The reply of a reader over bare numbers says as much as that of the outer reader. -/
theorem Reply.plain_of_replies {R : α → β → Prop} {reply : Reply α} {reply' : Reply β}
    (h : Comparison.Rel.Replies R reply reply') : reply'.plain = reply.plain := by
  obtain left | h := h
  · rfl
  · cases h <;> rfl

/-- The cursors that a reply brings are on the batches of the numbers that it brings. -/
theorem cursors_of_batchValues {r : Nat} {w : World ω τ} {reply : Reply Nat} {reply' : Reply Value}
    (h : BatchReplies r w reply reply') :
    List.Forall₂ (fun k id => BatchValue r w (.cursor id) k) (Reply.items [reply])
      reply'.cursors := by
  obtain left | h := h
  · exact .nil
  · obtain ⟨id, b, rfl, hb⟩ | e := h
    · exact .cons ⟨id, b, rfl, hb⟩ .nil
    · exact .nil

namespace Nest

variable {U : (frame τ watch).Account Value (Cursor ω τ)} {size n N fuel : Nat} {all : List Value}
variable {r r' : Nat} {left : Nat → List Value} {w : World ω τ} {k : Rack Value} {s : Nest}

/-- What the caller holds, and the world, are as the rack says. -/
structure Stands (U : (frame τ watch).Account Value (Cursor ω τ)) (size n : Nat) (all : List Value)
    (r r' : Nat) (k : Rack Value) (s : Nest) (w : World ω τ) : Prop where
  bench : ∃ F d, UpperBench U size n all r r' k.left d F w ∧ k.Fits n (runs size all).length d
  outer : w.cells[s.outer]? = some (.batches n r')
  batches : List.Forall₂ (fun i id => BatchValue r' w (.cursor id) i) (List.range k.handed)
    s.batches
  inner (i : Nat) : List.Forall₂ (fun j id => BatchValue r w (.cursor id) j)
    (Rack.issued n i (k.taken i)) (s.inner i)

/-- The reply is that of the rack, and everything is as the rack says afterwards. -/
def RepliedAs (U : (frame τ watch).Account Value (Cursor ω τ)) (size n : Nat) (all : List Value)
    (r r' : Nat) (onRack : NestedReply Value × Rack Value) (x : NestedReply Value × Nest)
    (w : World ω τ) : Prop :=
  x.1 = onRack.1 ∧ Stands U size n all r r' onRack.2 x.2 w

theorem Stands.call_outer (hsize : 0 < size) (hn : 0 < n)
    (hU : (frame τ watch).Supplies True Machine.Exactly (Cursor.machine N) U)
    (h : Stands U size n all r r' k s w) (ask : Ask) :
    (s.call (N + 2) (.outer ask)).Returns w
      (RepliedAs U size n all r r' (k.call n (runs size all).length (.outer ask))) := by
  obtain ⟨F, d, hbench, hfits⟩ := h.bench
  obtain ⟨reply, handed, hreply, hrack, hfits', hhanded⟩ := hfits.outer hn ask
  rw [Nest.call, hrack]
  refine (hbench.cell_outer hsize hU h.outer hreply).bind ?_
  rintro ⟨x, _⟩ w' ⟨hx, F', hstep, hbench'⟩
  refine Comp.returns_pure.mpr ⟨congrArg _ (Reply.plain_of_replies hx), ⟨F', _, hbench', hfits'⟩,
    hstep.grows.cells _ _ h.outer, ?_, fun i => ?_⟩
  · rw [hhanded]
    exact List.rel_append (h.batches.imp fun _ _ => BatchValue.mono hstep.grows)
      (cursors_of_batchValues hx)
  · exact (h.inner i).imp fun _ _ => BatchValue.mono hstep.grows

theorem Stands.call_batch (hsize : 0 < size)
    (hU : (frame τ watch).Supplies True Machine.Exactly (Cursor.machine N) U)
    (h : Stands U size n all r r' k s w) (i : Nat) (ask : Ask) :
    (s.call (N + 2) (.batch i ask)).Returns w
      (RepliedAs U size n all r r' (k.call n (runs size all).length (.batch i ask))) := by
  obtain ⟨F, d, hbench, hfits⟩ := h.bench
  have hhandle := getElem?_rel_of_forall₂ h.batches i
  rw [Nest.call]
  by_cases hi : i < k.handed
  · rw [List.getElem?_range hi] at hhandle
    generalize s.batches[i]? = handle at hhandle ⊢
    obtain hid | _ := hhandle
    obtain ⟨reply, taken, hreply, hrack, hfits', hissued⟩ := hfits.batch hi ask
    rw [hrack]
    have hid' : i < d.handed := hfits.handed_eq ▸ hi
    refine (hbench.cell_batch hsize hU hid.cell hid' hreply).bind ?_
    rintro ⟨x, _⟩ w' ⟨hx, F', hstep, hbench'⟩
    refine Comp.returns_pure.mpr ⟨congrArg _ (Reply.plain_of_replies hx), ⟨F', _, hbench', hfits'⟩,
      hstep.grows.cells _ _ h.outer, h.batches.imp fun _ _ => BatchValue.mono hstep.grows,
      fun j => ?_⟩
    have hinner := (h.inner j).imp fun _ _ => BatchValue.mono hstep.grows
    dsimp only
    rw [hissued]
    by_cases hj : j = i
    · subst hj
      rw [if_pos rfl, Function.update_self]
      exact List.rel_append hinner (cursors_of_batchValues hx)
    · rw [if_neg hj, Function.update_of_ne hj, List.append_nil]
      exact hinner
  · rw [List.getElem?_eq_none (by simpa using hi)] at hhandle
    generalize s.batches[i]? = handle at hhandle ⊢
    cases hhandle
    simp only [Rack.call, hi, if_false]
    exact Comp.returns_pure.mpr ⟨rfl, h⟩

theorem Stands.call_inner
    (hU : (frame τ watch).Supplies True Machine.Exactly (Cursor.machine N) U)
    (h : Stands U size n all r r' k s w) (i j : Nat) (ask : Ask) :
    (s.call (N + 1) (.inner i j ask)).Returns w
      (RepliedAs U size n all r r' (k.call n (runs size all).length (.inner i j ask))) := by
  obtain ⟨F, d, hbench, hfits⟩ := h.bench
  have hhandle := getElem?_rel_of_forall₂ (h.inner i) j
  rw [Nest.call]
  by_cases hj : j < k.taken i
  · rw [Rack.issued, List.getElem?_range' hj, Nat.one_mul] at hhandle
    generalize (s.inner i)[j]? = handle at hhandle ⊢
    obtain hid | _ := hhandle
    simp only [Rack.call, hj, if_true]
    refine (hbench.cell_inner hU hid ask).bind ?_
    rintro ⟨x, _⟩ w' ⟨rfl, F', hstep, hbench'⟩
    exact Comp.returns_pure.mpr ⟨rfl, ⟨F', d, hbench', hfits.handed_eq, hfits.left_eq⟩,
      hstep.grows.cells _ _ h.outer, h.batches.imp fun _ _ => BatchValue.mono hstep.grows,
      fun i => (h.inner i).imp fun _ _ => BatchValue.mono hstep.grows⟩
  · rw [Rack.issued, List.getElem?_eq_none (by simpa using hj)] at hhandle
    generalize (s.inner i)[j]? = handle at hhandle ⊢
    cases hhandle
    simp only [Rack.call, hj, if_false]
    exact Comp.returns_pure.mpr ⟨rfl, h⟩

/-- Every call is replied to as by the rack. -/
theorem Stands.call (hsize : 0 < size) (hn : 0 < n)
    (hU : ∀ m, N ≤ m → (frame τ watch).Supplies True Machine.Exactly (Cursor.machine m) U)
    (h : Stands U size n all r r' k s w) (ask : NestedAsk) :
    (s.call (N + 2) ask).Returns w
      (RepliedAs U size n all r r' (k.call n (runs size all).length ask)) := by
  cases ask with
  | outer ask => exact h.call_outer hsize hn (hU N (Nat.le_refl N)) ask
  | batch i ask => exact h.call_batch hsize (hU N (Nat.le_refl N)) i ask
  | inner i j ask => exact h.call_inner (hU (N + 1) (Nat.le_succ N)) i j ask

theorem Stands.run (hsize : 0 < size) (hn : 0 < n)
    (hU : ∀ m, N ≤ m → (frame τ watch).Supplies True Machine.Exactly (Cursor.machine m) U)
    (h : Stands U size n all r r' k s w) (asks : List NestedAsk) :
    (Nest.run (N + 2) asks s).Returns w fun replies _ =>
      replies = k.run n (runs size all).length asks := by
  -- on the schedule; that everything is as the rack says is what every call keeps
  induction asks generalizing k s w with
  | nil => exact Comp.returns_pure.mpr rfl
  | cons ask asks ih =>
    refine (h.call hsize hn hU ask).bind ?_
    rintro ⟨reply, s⟩ w ⟨rfl, h⟩
    refine (ih h).bind ?_
    rintro replies w rfl
    exact Comp.returns_pure.mpr rfl

/-! ## From the beginning -/

variable {F : (frame τ watch).Region} {xs : List Value}

/-- The outer reader is new, beside the inner one. -/
theorem upperBench_fresh (h : Sep (ReaderAt watch r' (.fresh (.batches size r)))
      (Handing U size all r left (List.range (runs size all).length) (.batches size r)) F w) :
    UpperBench U size n all r r' left (.lay n (List.range (runs size all).length)) F w := by
  obtain ⟨F₁, F₂, hF, hapart, hreader, hks⟩ := h
  refine ⟨_, F₁, F₂, hF, hapart, hreader, _, .fresh (), [], _, Desk.agrees_lay n _, ?_, hks, ?_⟩
  · exact ⟨_, rfl, stands_fresh _ ()⟩
  · exact Batching.Alike.fresh rfl

/-- A sequence that starts a lawful cursor with `xs` left, be it of the caller
(`Cursor.hasLeft_given`) or of this library, is cut into chunks of `size`, and these into batches of
`n`. Whatever calls are made on the outer cursor, on the outer batches and on the inner batches, in
whatever order, every one of them returns, and with the reply of the rack of the chunks of `xs`. -/
theorem run_opened (hsize : 0 < size) (hn : 0 < n) {of : Sequence ω τ}
    (hof : of.start.Returns w fun c w' => Reaches (Cursor.HasLeft watch True N xs c) F w w')
    (hfuel : N + 2 ≤ fuel) (asks : List NestedAsk) :
    (do
      let c ← ((of.batch size hsize).batch n hn).start
      Nest.run fuel asks (.opened (← World.adopt c)) : Comp (World ω τ) _).Returns w
      fun replies _ =>
        replies = (Rack.lay (runs size xs)).run n (runs size xs).length asks := by
  obtain ⟨m, rfl⟩ := Nat.exists_eq_add_of_le' hfuel
  simp only [Sequence.start, bind_assoc, pure_bind]
  refine hof.bind ?_
  rintro c w₁ ⟨F₁, _, hc⟩
  refine (adoptReader_returns (Cursor.keeps_hasLeft xs c) hc).bind ?_
  rintro r w₂ ⟨F₂, _, hr⟩
  have hU : ∀ j, m + N ≤ j → (frame τ watch).Supplies True Machine.Exactly (Cursor.machine j)
      (Cursor.HasLeft watch True N) := fun j hj => Cursor.supplies_hasLeft (by omega)
  have hN := hU (m + N) (Nat.le_refl _)
  have hkeeps : (frame τ watch).Keeps (Handing (Cursor.HasLeft watch True N) size xs r
      (Desk.lay size xs).left (List.range (runs size xs).length) (.batches size r)) :=
    (supplies_handing hsize hN).keeps _ _
  refine (adoptReader_returns hkeeps (handing_fresh hr)).bind ?_
  intro r' w₃ hr'
  refine (adopt_returns watch).bind ?_
  rintro id w₄ ⟨hcell, hquiet⟩
  obtain ⟨F₄, -, hbench⟩ :=
    (hr'.mono fun _ => upperBench_fresh).quiet (keeps_upperBench hsize hN) hquiet
  have hleft : (Rack.lay (runs size xs)).left = (Desk.lay size xs).left :=
    funext fun k => getD_runs hsize xs k
  have hstands : Stands (Cursor.HasLeft watch True N) size n xs r r' (Rack.lay (runs size xs))
      (.opened id) w₄ :=
    ⟨⟨F₄, _, hleft ▸ hbench, Rack.fits_lay n _ _⟩, hcell, .nil, fun _ => .nil⟩
  exact hstands.run hsize hn hU asks

/-- Five elements in chunks of two, these in batches of two: while the first outer batch is still
being read, the next is asked for, and the chunks of both are read in turns. -/
theorem run_opened_five :
    (do
      let c ← (((Sequence.given (pure (.fresh [.int 1, .int 2, .int 3, .int 4, .int 5]))
        (Machine.peek pullHead)).batch 2 (by decide)).batch 2 (by decide)).start
      Nest.run 3 [.outer .next, .batch 0 .next, .inner 0 0 .next, .outer .next, .batch 1 .next,
        .inner 1 0 .next, .batch 0 .next, .inner 0 1 .next, .inner 0 0 .next, .inner 0 0 .hasNext,
        .batch 0 .next, .batch 1 .hasNext, .outer .next, .inner 0 1 .next]
        (.opened (← World.adopt c)) :
          Comp (World Unit (Peeked (List Value) Value)) _).Returns (.fresh ()) fun replies _ =>
      replies = [.outer (.item (.ok ())), .batch 0 (.item (.ok ())),
        .inner 0 0 (.item (.ok (.int 1))), .outer (.item (.ok ())), .batch 1 (.item (.ok ())),
        .inner 1 0 (.item (.ok (.int 5))), .batch 0 (.item (.ok ())),
        .inner 0 1 (.item (.ok (.int 3))), .inner 0 0 (.item (.ok (.int 2))),
        .inner 0 0 (.more false), .batch 0 (.item (.error .exhausted)), .batch 1 (.more false),
        .outer (.item (.error .exhausted)), .inner 0 1 (.item (.ok (.int 4)))] := by
  have hruns : runs 2 [.int 1, .int 2, .int 3, .int 4, .int 5] =
      [[Value.int 1, .int 2], [.int 3, .int 4], [.int 5]] := by simp [runs]
  have hleft : Machine.HeadLeft [Value.int 1, .int 2, .int 3, .int 4, .int 5] ()
      (.fresh [.int 1, .int 2, .int 3, .int 4, .int 5]) := rfl
  refine (run_opened (N := 1) (by decide) (by decide) (Comp.returns_pure.mpr
    (.refl (Cursor.hasLeft_given Machine.lawful_peek_pullHead hleft))) (by decide) _).mono ?_
  intro replies _ hreplies
  rw [hreplies, hruns]
  rfl

end Nest

end LazySeq
