import LazySeq.Proofs.Signals
import LazySeq.Proofs.Stage.LookAhead
import LazySeq.Proofs.Stage.Select
import LazySeq.Proofs.Word

/-!
# A slice counts right

A slice counts the elements it takes and compares the count with its window. `Machine.sliceWords` is
the slice that counts in machine words. It comes to the same as the slice that counts in natural
numbers wherever the stop, or without one the length of the sequence, is a word: the count never
goes beyond it.

Over a lawful cursor the count is at every time the number of elements that were taken (`SlicedAt`),
and in the end it is the stop or the length, whichever is less. Over any cursor, each element that
was asked for was counted, but for one that did not come, with which it ends (`PulledAt`).
-/

namespace LazySeq

/-! ## Counting in words -/

/-- Whether the element of number `index` is in the window, and the number of the next. -/
def Window.advance? (win : Window) (index : Nat) : Option (Bool × Nat) := do
  let next ← Word.add? index 1
  if win.start ≤ index then
    let offset ← Word.sub? index win.start
    let rest ← Word.mod? offset win.step
    return (rest == 0, next)
  else
    return (false, next)

/-- Short of the last word nothing goes wrong, whatever the window. -/
theorem Window.advance?_of_lt {win : Window} {index : Nat} (h : index + 1 < Word.count) :
    win.advance? index = some (win.selects index, index + 1) := by
  rw [Window.advance?, Word.add?_of_lt h, Window.selects]
  by_cases hstart : win.start ≤ index
  · simp [hstart, Word.sub?_of_le, Word.mod?_of_pos win.step_pos]
  · simp [hstart]

namespace Machine

variable {ω σ α : Type}

/-- The next element in the window, where the elements are counted in words. `fault` is what happens
where the arithmetic has no result. -/
def seekWords (fault : Comp ω (Option α × Counted σ)) (w : Window) (m : Machine ω σ α) :
    Nat → Counted σ → Comp ω (Option α × Counted σ)
  | 0, _ => throw .outOfFuel
  | n + 1, c => do
    if w.endsBy c.index then
      return (none, c)
    else
      match ← m.pull? c.source with
      | (none, s) => return (none, ⟨s, c.index⟩)
      | (some a, s) =>
        match w.advance? c.index with
        | none => fault
        | some (selected, index) =>
          if selected then
            return (some a, ⟨s, index⟩)
          else
            m.seekWords fault w n ⟨s, index⟩

/-- Hands out the elements at the positions of the window, which are counted in words. -/
def sliceWords (fault : Comp ω (Option α × Counted σ)) (fuel : Nat) (w : Window)
    (m : Machine ω σ α) : Machine ω (Peeked (Counted σ) α) α :=
  peek (m.seekWords fault w fuel)

variable {fault : Comp ω (Option α × Counted σ)} {win : Window} {m : Machine ω σ α} {fuel : Nat}

/-! ### Up to the stop -/

/-- No element after the stop is counted, so it is enough that the stop is a word. -/
theorem seekWords_eq_of_stop {stop : Nat} (hstop : win.stop = some stop)
    (hword : stop < Word.count) : m.seekWords fault win fuel = m.seekWindow win fuel := by
  induction fuel with
  | zero => rfl
  | succ n ih =>
    funext c
    rw [seekWords, seekWindow]
    by_cases hend : win.endsBy c.index
    · rw [if_pos hend, if_pos hend]
    · have hlt : c.index < stop := by
        rw [Window.endsBy, hstop] at hend
        exact Nat.lt_of_not_le fun hle => hend (decide_eq_true hle)
      -- short of the stop the number of the next element is a word as well
      have hnext : c.index + 1 < Word.count := Nat.lt_of_le_of_lt hlt hword
      rw [if_neg hend, if_neg hend]
      refine bind_congr ?_
      rintro ⟨answer, s⟩
      cases answer with
      | none => rfl
      | some a =>
        rw [Window.advance?_of_lt hnext]
        exact congrArg (fun go => if win.selects c.index then pure (some a, ⟨s, c.index + 1⟩)
          else go ⟨s, c.index + 1⟩) ih

theorem sliceWords_eq_of_stop {stop : Nat} (hstop : win.stop = some stop)
    (hword : stop < Word.count) : m.sliceWords fault fuel win = m.slice fuel win := by
  rw [sliceWords, slice, seekWords_eq_of_stop hstop hword]

/-! ## Over a lawful cursor -/

end Machine

/-- How many of `n` elements a slice takes in the end. -/
def Window.reach (win : Window) (n : Nat) : Nat :=
  min (win.stop.getD n) n

namespace Window

variable {win : Window} {i n : Nat}

/-- At the stop, and not beyond it. -/
theorem eq_reach_of_endsBy (hle : i ≤ win.reach n) (hend : win.endsBy i) : i = win.reach n := by
  obtain ⟨start, stop, step, hstep⟩ := win
  cases stop with
  | none => cases hend
  | some stop =>
    simp only [endsBy, reach, Option.getD_some, decide_eq_true_eq] at hend hle ⊢
    omega

/-- A position from the start on, below the stop, a multiple of the step away from the start. -/
def Covers (win : Window) (i : Nat) : Prop :=
  win.start ≤ i ∧ (∀ stop ∈ win.stop, i < stop) ∧ win.step ∣ i - win.start

theorem selects_iff : (!win.endsBy i && win.selects i) = true ↔ win.Covers i := by
  obtain ⟨start, stop, step, hstep⟩ := win
  have hdvd : ((i - start) % step == 0) = true ↔ step ∣ i - start := by
    rw [beq_iff_eq, Nat.dvd_iff_mod_eq_zero]
  rw [selects, Bool.and_eq_true, Bool.and_eq_true, decide_eq_true_eq, hdvd, Covers]
  cases stop with
  | none => simp [endsBy]
  | some stop =>
    simp only [endsBy, Bool.not_eq_true', decide_eq_false_iff_not, Nat.not_le, Option.mem_def,
      Option.some.injEq, forall_eq']
    exact and_left_comm

instance : DecidablePred win.Covers := fun _ => decidable_of_iff _ selects_iff

theorem of_eq_filter {α : Type} (xs : List α) :
    win.of xs = (xs.zipIdx.filter fun x => win.Covers x.2).map Prod.fst := by
  rw [of_eq]
  refine congrArg _ (List.filter_congr fun x _ => ?_)
  exact Bool.eq_iff_iff.mpr (selects_iff.trans decide_eq_true_iff.symm)

theorem succ_le_reach (hend : ¬ win.endsBy i) (hlt : i < n) : i + 1 ≤ win.reach n := by
  obtain ⟨start, stop, step, hstep⟩ := win
  cases stop with
  | none =>
    simp only [reach, Option.getD_none]
    omega
  | some stop =>
    simp only [endsBy, reach, Option.getD_some, decide_eq_true_eq] at hend ⊢
    omega

end Window

namespace Machine

variable {ω σ α : Type} {fault : Comp ω (Option α × Counted σ)} {win : Window}
variable {m : Machine ω σ α} {fuel : Nat} {Left : List α → ω → σ → Prop} {all : List α} {w : ω}

/-- So many elements were taken as were counted, and not more than there are before the stop. -/
structure SlicedAt (win : Window) (all : List α) (Left : List α → ω → σ → Prop) (w : ω)
    (c : Counted σ) : Prop where
  left : Left (all.drop c.index) w c.source
  le : c.index ≤ win.reach all.length

/-- One guarded pull short of the stop: an element is taken, or there is none. -/
theorem SlicedAt.pull? (h : m.Lawful Left) {c : Counted σ} (hc : SlicedAt win all Left w c)
    (hend : ¬ win.endsBy c.index) :
    (m.pull? c.source).Ensures w fun r w' =>
      (r.1 = none ∧ SlicedAt win all Left w' ⟨r.2, c.index⟩ ∧ c.index = win.reach all.length) ∨
      (∃ a, r.1 = some a) ∧ SlicedAt win all Left w' ⟨r.2, c.index + 1⟩ := by
  have hleft := hc.left
  -- one is left, or all were counted and the window reaches no further
  by_cases hlt : c.index < all.length
  · rw [List.drop_eq_getElem_cons hlt] at hleft
    refine (h.supplies.pull?_cons hleft).ensures.mono ?_
    rintro ⟨answer, s⟩ w' ⟨⟨a, rfl, -⟩, hs⟩
    exact .inr ⟨⟨a, rfl⟩, hs, Window.succ_le_reach hend hlt⟩
  · have hall : all.length ≤ c.index := Nat.le_of_not_lt hlt
    rw [List.drop_eq_nil_of_le hall] at hleft
    refine (h.supplies.pull?_nil trivial hleft).ensures.mono ?_
    rintro ⟨answer, s⟩ w' ⟨rfl, hs⟩
    have hs' : Left (all.drop c.index) w' s := by rwa [List.drop_eq_nil_of_le hall]
    have hreach : win.reach all.length ≤ all.length := min_le_right _ _
    exact .inl ⟨rfl, ⟨hs', hc.le⟩, le_antisymm hc.le (hreach.trans hall)⟩

/-- The search stops at an element of the window, or when all was taken that comes before the
stop. -/
theorem SlicedAt.seekWindow (h : m.Lawful Left) {c : Counted σ} (hc : SlicedAt win all Left w c) :
    (m.seekWindow win fuel c).Ensures w fun r w' =>
      SlicedAt win all Left w' r.2 ∧ (r.1 = none → r.2.index = win.reach all.length) := by
  induction fuel generalizing c w with
  | zero => exact nofun
  | succ n ih =>
    rw [Machine.seekWindow]
    by_cases hend : win.endsBy c.index
    · rw [if_pos hend]
      exact Comp.ensures_pure.mpr ⟨hc, fun _ => Window.eq_reach_of_endsBy hc.le hend⟩
    · rw [if_neg hend]
      refine (hc.pull? h hend).bind ?_
      rintro ⟨answer, s⟩ w' (⟨rfl, hs, hreach⟩ | ⟨⟨a, rfl⟩, hs⟩)
      · exact Comp.ensures_pure.mpr ⟨hs, fun _ => hreach⟩
      · -- counted in any case; if it is passed over, the search goes on from there
        dsimp only
        split
        · exact Comp.ensures_pure.mpr ⟨hs, fun hnone => absurd hnone (Option.some_ne_none a)⟩
        · exact ih hs

/-- The count stays a word if the stop is one, or without a stop the length. -/
theorem SlicedAt.seekWords_eq (h : m.Lawful Left) {c : Counted σ} (hc : SlicedAt win all Left w c)
    (hword : win.stop.getD all.length < Word.count) :
    m.seekWords fault win fuel c w = m.seekWindow win fuel c w := by
  induction fuel generalizing c w with
  | zero => rfl
  | succ n ih =>
    rw [Machine.seekWords, Machine.seekWindow]
    by_cases hend : win.endsBy c.index
    · rw [if_pos hend, if_pos hend]
    · rw [if_neg hend, if_neg hend]
      refine (hc.pull? h hend).bind_congr ?_
      rintro ⟨answer, s⟩ w' (⟨rfl, hs, hreach⟩ | ⟨⟨a, rfl⟩, hs⟩)
      · rfl
      · have hle : c.index + 1 ≤ win.stop.getD all.length := hs.le.trans (min_le_left _ _)
        simp only [Window.advance?_of_lt (hle.trans_lt hword)]
        split
        · rfl
        · exact ih hs

/-- The count of a slice, and of one that will take no more. -/
structure SliceAt (win : Window) (all : List α) (Left : List α → ω → σ → Prop) (w : ω)
    (p : Peeked (Counted σ) α) : Prop where
  source : SlicedAt win all Left w p.source
  closed : p.slot = .closed → p.source.index = win.reach all.length

theorem SliceAt.fill (h : m.Lawful Left) {p : Peeked (Counted σ) α}
    (hp : SliceAt win all Left w p) :
    (fill (m.seekWindow win fuel) p).Ensures w fun r w' => SliceAt win all Left w' r.2 := by
  obtain ⟨c, slot⟩ := p
  cases slot with
  | held a => exact Comp.ensures_pure.mpr hp
  | closed => exact Comp.ensures_pure.mpr hp
  | empty =>
    refine (hp.source.seekWindow h).bind ?_
    rintro ⟨answer, c⟩ w' ⟨hc, hreach⟩
    cases answer with
    | none => exact Comp.ensures_pure.mpr ⟨hc, fun _ => hreach rfl⟩
    | some a => exact Comp.ensures_pure.mpr ⟨hc, nofun⟩

theorem SliceAt.call (h : m.Lawful Left) {p : Peeked (Counted σ) α}
    (hp : SliceAt win all Left w p) (ask : Ask) :
    ((m.slice fuel win).call ask p).Ensures w fun r w' => SliceAt win all Left w' r.2 := by
  refine ensures_call (fun _ => hp.fill h) fun _ => ?_
  refine (hp.fill h).bind ?_
  intro ⟨more, c, slot⟩ w' hp
  cases slot with
  | held a => exact Comp.ensures_pure.mpr ⟨hp.source, nofun⟩
  | closed => exact Comp.ensures_pure.mpr hp
  | empty => exact Comp.ensures_pure.mpr hp

theorem SliceAt.run (h : m.Lawful Left) {p : Peeked (Counted σ) α}
    (hp : SliceAt win all Left w p) (asks : List Ask) :
    ((m.slice fuel win).run asks p).Ensures w fun r w' => SliceAt win all Left w' r.2 :=
  ensures_run (fun _ w p => SliceAt win all Left w p) (fun ask _ _ _ hp => hp.call h ask) asks hp

/-- The slices that count in words and in numbers differ in how they fetch. -/
theorem SliceAt.call_words (h : m.Lawful Left) {p : Peeked (Counted σ) α}
    (hp : SliceAt win all Left w p) (hword : win.stop.getD all.length < Word.count) (ask : Ask) :
    (m.sliceWords fault fuel win).call ask p w = (m.slice fuel win).call ask p w := by
  have hfill : Machine.fill (m.seekWords fault win fuel) p w =
      Machine.fill (m.seekWindow win fuel) p w := by
    obtain ⟨c, slot⟩ := p
    cases slot with
    | held a => rfl
    | closed => rfl
    | empty => exact Comp.bind_eq_of_eq (hp.source.seekWords_eq h hword)
  cases ask with
  | hasNext => exact Comp.bind_eq_of_eq hfill
  | next => exact Comp.bind_eq_of_eq (Comp.bind_eq_of_eq hfill)

/-- The elements of the window are handed out. -/
theorem Lawful.slice_run (h : m.Lawful Left) {s : σ} (hs : Left all w s) (hfuel : all.length < fuel)
    (asks : List Ask) :
    ((m.slice fuel win).run asks (.fresh ⟨s, 0⟩)).Returns w fun r _ =>
      r.1 = ListCursor.run asks (win.of all) := by
  have hfresh : Over (fun p : Peeked (Counted σ) α => p.source.source)
      (PeekReads Exactly (SliceStands win all) fun xs => SliceStands win all xs []) Left
      (win.of all) w (.fresh ⟨s, 0⟩) := ⟨all, hs, [], rfl, rfl, rfl⟩
  refine ((h.supplies.slice hfuel).run (fun _ _ _ _ _ => .inl trivial) hfresh).mono ?_
  intro r w' ⟨hr, _⟩
  exact hr

theorem sliceAt_fresh {s : σ} (hs : Left all w s) :
    SliceAt win all Left w (.fresh ⟨s, 0⟩) :=
  ⟨⟨hs, Nat.zero_le _⟩, nofun⟩

/-! ## Over any cursor -/

open Signal (pulls)

/-- Of the cursor with name `i` so many elements were asked for as were counted, and it is called
until the slot is closed. -/
def PulledAt (i : Nat) (signals : List Signal) (p : Peeked (Counted (Nat × σ)) α) : Prop :=
  p.slot ≠ .closed → p.source.source.1 = i ∧ pulls i signals = p.source.index

variable {i most : Nat} {v : Noted ω Signal}

/-- No more elements were asked for than `most`. -/
abbrev AtMost (i most : Nat) (v : Noted ω Signal) : Prop := pulls i v.notes ≤ most

/-- Asking whether an element is left pulls none. -/
theorem upholds_hasNext_named {c : Nat × σ} (hname : c.1 = i) (hle : pulls i v.notes ≤ most) :
    (m.named.hasNext c).Upholds (AtMost i most) v fun r v' =>
      r.2.1 = i ∧ pulls i v'.notes = pulls i v.notes := by
  have hasked : pulls i (v.notes ++ [.asks c.1 .hasNext]) = pulls i v.notes := by
    simp [pulls]
  have hreplied (more : Bool) : pulls i (v.notes ++ [.asks c.1 .hasNext] ++
      [.replies c.1 (.more more)]) = pulls i v.notes := by
    simp [pulls]
  refine (upholds_named_hasNext_of (I := fun signals => pulls i signals ≤ most)
    (hasked.trans_le hle) fun more => (hreplied more).trans_le hle).mono ?_
  rintro r v' ⟨hname', hnotes⟩
  exact ⟨hname'.trans hname, by rw [hnotes, hreplied]⟩

/-- Asking for an element pulls one. -/
theorem upholds_next_named {c : Nat × σ} (hname : c.1 = i) (hlt : pulls i v.notes < most) :
    (m.named.next c).Upholds (AtMost i most) v fun r v' =>
      r.2.1 = i ∧ pulls i v'.notes = pulls i v.notes + 1 := by
  have hasked : pulls i (v.notes ++ [.asks c.1 .next]) = pulls i v.notes + 1 := by
    simp [pulls, hname]
  have hreplied (answer : Except Error α) : pulls i (v.notes ++ [.asks c.1 .next] ++
      [.replies c.1 (Reply.item answer).plain]) = pulls i v.notes + 1 := by
    simp [pulls, hname, Reply.plain]
  refine (upholds_named_next_of (I := fun signals => pulls i signals ≤ most)
    (hasked.trans_le hlt) fun answer => (hreplied answer).trans_le hlt).mono ?_
  rintro r v' ⟨hname', hnotes⟩
  exact ⟨hname'.trans hname, by rw [hnotes, hreplied]⟩

/-- A guarded pull asks for one element, if it brings one. -/
theorem upholds_pull?_named {c : Nat × σ} (hname : c.1 = i) (hlt : pulls i v.notes < most) :
    (m.named.pull? c).Upholds (AtMost i most) v fun r v' =>
      r.2.1 = i ∧ (r.1 ≠ none → pulls i v'.notes = pulls i v.notes + 1) := by
  refine (upholds_hasNext_named hname hlt.le).bind ?_
  intro ⟨more, c'⟩ v₁ hv₁ ⟨hname', hsame⟩
  cases more with
  | false => exact Comp.upholds_pure.mpr ⟨hv₁, hname', fun hsome => absurd rfl hsome⟩
  | true =>
    refine (upholds_next_named hname' (hsame.trans_lt hlt)).bind ?_
    intro ⟨answer, c''⟩ v₂ hv₂ ⟨hname'', hmore⟩
    exact Comp.upholds_pure.mpr ⟨hv₂, hname'', fun _ => hmore.trans (congrArg _ hsame)⟩

/-- The search does not pull beyond the stop, and where it brings an element every pull was
counted. -/
theorem upholds_seekWindow_named {c : Counted (Nat × σ)} (hstop : win.stop = some most)
    (hname : c.source.1 = i) (hpulls : pulls i v.notes = c.index) (hv : AtMost i most v) :
    (m.named.seekWindow win fuel c).Upholds (AtMost i most) v fun r v' =>
      r.2.source.1 = i ∧ (r.1 ≠ none → pulls i v'.notes = r.2.index) := by
  induction fuel generalizing c v with
  | zero => exact Comp.upholds_throw.mpr hv
  | succ n ih =>
    rw [Machine.seekWindow]
    by_cases hend : win.endsBy c.index
    · rw [if_pos hend]
      exact Comp.upholds_pure.mpr ⟨hv, hname, fun hsome => absurd rfl hsome⟩
    · have hlt : c.index < most := by
        rw [Window.endsBy, hstop] at hend
        exact Nat.lt_of_not_le fun hle => hend (decide_eq_true hle)
      rw [if_neg hend]
      -- fewer were pulled than the stop says, so there is room for this one
      refine (upholds_pull?_named hname (hpulls.trans_lt hlt)).bind ?_
      rintro ⟨answer, c'⟩ v₁ hv₁ ⟨hname', hmore⟩
      cases answer with
      | none => exact Comp.upholds_pure.mpr ⟨hv₁, hname', fun hsome => absurd rfl hsome⟩
      | some a =>
        have hindex : pulls i v₁.notes = c.index + 1 := by
          rw [hmore (Option.some_ne_none a), hpulls]
        dsimp only
        split
        · exact Comp.upholds_pure.mpr ⟨hv₁, hname', fun _ => hindex⟩
        · exact ih hname' hindex hv₁

theorem PulledAt.fill {p : Peeked (Counted (Nat × σ)) α} (hstop : win.stop = some most)
    (hp : PulledAt i v.notes p) (hv : AtMost i most v) :
    (fill (m.named.seekWindow win fuel) p).Upholds (AtMost i most) v fun r v' =>
      PulledAt i v'.notes r.2 := by
  obtain ⟨c, slot⟩ := p
  cases slot with
  | held a => exact Comp.upholds_pure.mpr ⟨hv, hp⟩
  | closed => exact Comp.upholds_pure.mpr ⟨hv, hp⟩
  | empty =>
    obtain ⟨hname, hpulls⟩ := hp nofun
    refine (upholds_seekWindow_named hstop hname hpulls hv).bind ?_
    intro ⟨answer, c⟩ v' hv' ⟨hname', hmore⟩
    cases answer with
    | none => exact Comp.upholds_pure.mpr ⟨hv', fun hopen => absurd rfl hopen⟩
    | some a => exact Comp.upholds_pure.mpr ⟨hv', fun _ => ⟨hname', hmore (Option.some_ne_none a)⟩⟩

theorem PulledAt.call {p : Peeked (Counted (Nat × σ)) α} (hstop : win.stop = some most)
    (hp : PulledAt i v.notes p) (hv : AtMost i most v) (ask : Ask) :
    ((m.named.slice fuel win).call ask p).Upholds (AtMost i most) v fun r v' =>
      PulledAt i v'.notes r.2 := by
  refine upholds_call (fun _ => hp.fill hstop hv) fun _ => ?_
  refine (hp.fill hstop hv).bind ?_
  intro ⟨more, c, slot⟩ v' hv' hp
  cases slot with
  | held a => exact Comp.upholds_pure.mpr ⟨hv', fun _ => hp nofun⟩
  | closed => exact Comp.upholds_pure.mpr ⟨hv', hp⟩
  | empty => exact Comp.upholds_pure.mpr ⟨hv', hp⟩

/-! ## Exactness -/

/-- A slice is exact for every start, stop and step, and its count is a machine word throughout.

Over a lawful cursor it hands out the elements at the positions from the start on, below the stop, a
multiple of the step away from the start; and when it has refused a call, the cursor below has left
all but as many elements as the stop says. Over any cursor, however it behaves, it asks for no more
elements than that. -/
theorem slice_exact (fault : Comp ω (Option α × Counted σ)) (win : Window) (m : Machine ω σ α)
    (fuel : Nat) :
    (∀ {Left : List α → ω → σ → Prop} {xs : List α} {w : ω} {s : σ}, m.Lawful Left → Left xs w s →
      win.stop.getD xs.length < Word.count → xs.length < fuel → ∀ asks,
      (m.sliceWords fault fuel win).run asks (.fresh ⟨s, 0⟩) w =
        (m.slice fuel win).run asks (.fresh ⟨s, 0⟩) w ∧
      ((m.slice fuel win).run asks (.fresh ⟨s, 0⟩)).Returns w fun r w' =>
        r.1 = ListCursor.run asks ((xs.zipIdx.filter fun x => win.Covers x.2).map Prod.fst) ∧
        ∀ stop ∈ win.stop, (∃ reply ∈ r.1, reply.Refuses) →
          Left (xs.drop (min stop xs.length)) w' r.2.source.source) ∧
    ∀ stop ∈ win.stop, stop < Word.count →
      m.sliceWords fault fuel win = m.slice fuel win ∧
      ∀ asks s w, pulls 0 (((m.named.slice fuel win).run asks (.fresh ⟨(0, s), 0⟩)).left
        ⟨w, []⟩).notes ≤ stop := by
  constructor
  · intro Left xs w s h hs hword hfuel asks
    refine ⟨?_, ?_⟩
    · exact run_congr (fun w p => SliceAt win xs Left w p)
        (fun ask _ _ hp => hp.call_words h hword ask) (fun ask _ _ hp => hp.call h ask) asks
        (sliceAt_fresh hs)
    · have hslot : ((m.slice fuel win).run asks (.fresh ⟨s, 0⟩)).Ensures w fun r _ =>
          SlotAfter r.1 r.2.slot := SlotAfter.run asks
      refine (((h.slice_run hs hfuel asks).and_ensures ((sliceAt_fresh hs).run h asks)).and_ensures
        hslot).mono ?_
      intro ⟨given, p⟩ w' ⟨⟨hgiven, hp⟩, hslot⟩
      refine ⟨?_, fun stop hstop hrefused => ?_⟩
      · rw [← Window.of_eq_filter]
        exact hgiven
      · have hindex := hp.closed (hslot.closed hrefused)
        have hleft := hp.source.left
        rw [hindex, Window.reach, hstop, Option.getD_some] at hleft
        exact hleft
  · intro stop hstop hword
    refine ⟨sliceWords_eq_of_stop hstop hword, fun asks s w => ?_⟩
    have hfresh : PulledAt 0 [] (.fresh ⟨(0, s), 0⟩ : Peeked (Counted (Nat × σ)) α) :=
      fun _ => ⟨rfl, rfl⟩
    have hnone : AtMost 0 stop (⟨w, []⟩ : Noted ω Signal) := Nat.zero_le stop
    exact (upholds_run (AtMost 0 stop) (fun _ v p => PulledAt 0 v.notes p)
      (fun ask _ _ _ hv hp => hp.call hstop hv ask) asks hnone hfresh).left

/-- Every second element from the one at position 1 on, below position 4. -/
theorem slice_exact_second :
    let m : Machine Unit (Peeked (List Nat) Nat) Nat := peek pullHead
    let win : Window := ⟨1, some 4, 2, Nat.two_pos⟩
    let xs := [10, 11, 12, 13, 14]
    ((m.slice 6 win).run [.next, .hasNext, .next, .next] (.fresh ⟨.fresh xs, 0⟩)).Returns ()
      (fun r w => r.1 = [.item (.ok 11), .more true, .item (.ok 13), .item (.error .exhausted)] ∧
        HeadLeft [14] w r.2.source.source) ∧
      pulls 0 (((m.named.slice 6 win).run [.next, .next, .next] (.fresh ⟨(0, .fresh xs), 0⟩)).left
        ⟨(), []⟩).notes ≤ 4 := by
  intro m win xs
  obtain ⟨hlawful, hany⟩ := slice_exact (throw .outOfFuel) win m 6
  have hs : HeadLeft xs () (.fresh xs) := rfl
  have hrun := hlawful lawful_peek_pullHead hs (by decide) (by decide)
    [.next, .hasNext, .next, .next]
  refine ⟨hrun.2.mono ?_, (hany 4 rfl (by decide)).2 _ _ _⟩
  intro r w ⟨hgiven, hleft⟩
  have hwindow : win.of xs = [11, 13] := by decide
  rw [← Window.of_eq_filter, hwindow] at hgiven
  refine ⟨hgiven, hleft 4 rfl ⟨.item (.error .exhausted), ?_, .exhausted, rfl⟩⟩
  rw [hgiven]
  decide

end Machine

end LazySeq
