import LazySeq.Proofs.Signals
import LazySeq.Proofs.Stage.Guarded
import LazySeq.Proofs.Stage.LookAhead

/-!
# Pairs are a concatenation

`Machine.pairs` walks row after row; the same pairs come of concatenating, for every element of the
outer cursor, a fresh walk of the inner sequence that puts the element in front
(`Machine.concatPairs`). The two differ only where the outer cursor fails to hand out an element
that it has just announced: that is the end of the pairs, while the concatenation asks on.

So they are compared up to such a failure (`Comp.AgreeOr`): run in the same world, they come to the
same, or both leave a world in which it has happened.
-/

namespace LazySeq

/-! ## The same unless something happens -/

namespace Comp

variable {ω α β : Type} {Bad : ω → Prop} {w : ω}

/-- Run in `w`, the two come to the same, of which `P` is known, or both leave a `Bad` world. -/
def AgreeOr (Bad : ω → Prop) (act act' : Comp ω α) (w : ω) (P : α → ω → Prop) : Prop :=
  (act w = act' w ∧ act.Ensures w P) ∨ (Bad (act.left w) ∧ Bad (act'.left w))

theorem agreeOr_of_ensures {act : Comp ω α} {P : α → ω → Prop} (h : act.Ensures w P) :
    AgreeOr Bad act act w P :=
  .inl ⟨rfl, h⟩

/-- What goes on from a bad world leaves one. -/
theorem bad_left_bind {act : Comp ω α} {f : α → Comp ω β} (hf : ∀ a, (f a).Keeps Bad)
    (h : Bad (act.left w)) : Bad ((act >>= f).left w) := by
  have hact : act.Upholds Bad w fun _ _ => True := ⟨h, fun _ _ _ => trivial⟩
  exact (hact.bind fun a w' hw _ => hf a w' hw).left

/-- The same first step, and then what agrees wherever it leads. -/
theorem Ensures.bind_agreeOr {act : Comp ω α} {f f' : α → Comp ω β} {P : α → ω → Prop}
    {Q : β → ω → Prop} (h : act.Ensures w P)
    (hf : ∀ a w', P a w' → AgreeOr Bad (f a) (f' a) w' Q) :
    AgreeOr Bad (act >>= f) (act >>= f') w Q := by
  cases hact : act w with
  | ok a w' =>
    have hgo := hf a w' (h a w' hact)
    rw [AgreeOr, left, left, Ensures] at hgo ⊢
    rwa [bind_of_ok hact, bind_of_ok hact]
  | error halt w' =>
    rw [AgreeOr, Ensures, bind_of_error hact, bind_of_error hact]
    refine .inl ⟨rfl, fun b w'' hrun => ?_⟩
    cases hrun

/-- First steps that agree, and then what agrees wherever they lead. -/
theorem AgreeOr.bind {act act' : Comp ω α} {f f' : α → Comp ω β} {P : α → ω → Prop}
    {Q : β → ω → Prop} (h : AgreeOr Bad act act' w P)
    (hf : ∀ a w', P a w' → AgreeOr Bad (f a) (f' a) w' Q) (hkeeps : ∀ a, (f a).Keeps Bad)
    (hkeeps' : ∀ a, (f' a).Keeps Bad) : AgreeOr Bad (act >>= f) (act' >>= f') w Q := by
  rcases h with ⟨heq, hact⟩ | ⟨hbad, hbad'⟩
  · have hsame : AgreeOr Bad (act >>= f) (act >>= f') w Q := hact.bind_agreeOr hf
    rw [AgreeOr, left, left, bind_eq_of_eq (f := f') heq] at hsame
    exact hsame
  · exact .inr ⟨bad_left_bind hkeeps hbad, bad_left_bind hkeeps' hbad'⟩

end Comp

/-! ## The concatenation -/

variable {ω σ τ α β : Type}

/-- The row being walked as the inner cursor of a concatenation. -/
def Rowed.asNested (c : Rowed σ τ α) : Nested σ (α × τ) := ⟨c.outer, c.row⟩

/-- And back. -/
def Nested.asRowed (c : Nested σ (α × τ)) : Rowed σ τ α := ⟨c.outer, c.current⟩

namespace Machine

/-- Hands out the elements of a fresh walk for every element of `m`, with that element in front. -/
def concatPairs (fuel : Nat) (m : Machine ω σ α) (start : Comp ω τ) (k : Machine ω τ β) :
    Machine ω (Nested σ (α × τ)) (α × β) :=
  flatten fuel (m.map fun a => do return (a, ← start)) (.keyed fun a => k.map fun b => pure (a, b))

/-- The pairs, with the states of the concatenation. -/
def nestedPairs (fuel : Nat) (m : Machine ω σ α) (start : Comp ω τ) (k : Machine ω τ β) :
    Machine ω (Nested σ (α × τ)) (α × β) where
  hasNext c := do
    let (more, c) ← (m.pairs fuel start k).hasNext c.asRowed
    return (more, c.asNested)
  next c := do
    let (answer, c) ← (m.pairs fuel start k).next c.asRowed
    return (answer, c.asNested)

variable {m : Machine ω σ α} {start : Comp ω τ} {k : Machine ω τ β} {fuel : Nat}

theorem seenAs_nestedPairs :
    (m.pairs fuel start k).SeenAs Rowed.asNested id (nestedPairs fuel m start k) where
  hasNext _ := rfl
  next c := by
    refine bind_congr ?_
    rintro ⟨answer, c⟩
    cases answer <;> rfl

theorem replies_nestedPairs (asks : List Ask) (c : Rowed σ τ α) :
    (m.pairs fuel start k).replies asks c =
      (nestedPairs fuel m start k).replies asks c.asNested := by
  rw [← seenAs_nestedPairs.replies, Reply.map_id]
  simp only [List.map_id, bind_pure]

/-! ### Round by round -/

/-- A round of the search for a row that has an element. With a new row it goes on `again`; what is
done where the outer cursor `failed` to hand out an element is all that the two differ in. -/
def roundOf (m : Machine ω σ α) (start : Comp ω τ) (k : Machine ω τ β)
    (again : Nested σ (α × τ) → Comp ω (Bool × Nested σ (α × τ)))
    (failed : σ → Comp ω (Bool × Nested σ (α × τ))) (c : Nested σ (α × τ)) :
    Comp ω (Bool × Nested σ (α × τ)) := do
  let (more, row) ← k.rowHasNext c.current
  if more then
    return (true, ⟨c.outer, row⟩)
  else
    let (more, outer) ← m.hasNext c.outer
    if more then
      match ← m.next outer with
      | (.ok a, outer) => again ⟨outer, some (a, ← start)⟩
      | (.error _, outer) => failed outer
    else
      return (false, ⟨outer, none⟩)

theorem nestedPairs_hasNext_succ (n : Nat) (c : Nested σ (α × τ)) :
    (nestedPairs (n + 1) m start k).hasNext c =
      roundOf m start k (nestedPairs n m start k).hasNext (fun outer => pure (false, ⟨outer, none⟩))
        c := by
  simp only [nestedPairs, pairs, seekRow, roundOf, pull?, bind_assoc, Nested.asRowed]
  refine bind_congr ?_
  rintro ⟨more, row⟩
  cases more with
  | true => rfl
  | false =>
    simp only [Bool.false_eq_true, if_false, bind_assoc]
    refine bind_congr ?_
    rintro ⟨more, outer⟩
    cases more with
    | false => rfl
    | true =>
      simp only [if_true, bind_assoc]
      refine bind_congr ?_
      rintro ⟨answer, outer⟩
      cases answer with
      | error e => rfl
      | ok a => simp only [Except.toOption, pure_bind, bind_assoc]

theorem currentHasNext_keyed (f : α → β → Comp ω (α × β)) (current : Option (α × τ)) :
    (keyed fun a => k.map (f a)).currentHasNext current = k.rowHasNext current := by
  cases current with
  | none => rfl
  | some row => simp only [currentHasNext, rowHasNext, keyed, map, bind_assoc, pure_bind]

theorem concatPairs_hasNext_succ (n : Nat) (c : Nested σ (α × τ)) :
    (concatPairs (n + 1) m start k).hasNext c =
      roundOf m start k (concatPairs n m start k).hasNext
        (fun outer => (concatPairs n m start k).hasNext ⟨outer, none⟩) c := by
  simp only [concatPairs, flatten, settle, roundOf, currentHasNext_keyed]
  refine bind_congr ?_
  rintro ⟨more, row⟩
  cases more with
  | true => rfl
  | false =>
    refine bind_congr ?_
    rintro ⟨more, outer⟩
    cases more with
    | false => rfl
    | true =>
      simp only [map, bind_assoc]
      refine bind_congr ?_
      rintro ⟨answer, outer⟩
      cases answer with
      | error e => rfl
      | ok a => simp only [Except.toOption, pure_bind, bind_assoc]

/-- After the search both take an element of the current row, if there is one. -/
def takeFrom (k : Machine ω τ β) (r : Bool × Nested σ (α × τ)) :
    Comp ω (Except Error (α × β) × Nested σ (α × τ)) :=
  match r with
  | (true, ⟨outer, some (a, t)⟩) => do
    let (answer, t) ← k.next t
    return (answer.map (a, ·), ⟨outer, some (a, t)⟩)
  | (_, c) => return (.error .exhausted, c)

theorem nestedPairs_next (c : Nested σ (α × τ)) :
    (nestedPairs fuel m start k).next c =
      (nestedPairs fuel m start k).hasNext c >>= takeFrom k := by
  simp only [nestedPairs, pairs, bind_assoc]
  refine bind_congr ?_
  rintro ⟨more, outer, row⟩
  cases more with
  | false => rfl
  | true =>
    cases row with
    | none => rfl
    | some row => simp only [Rowed.asNested, takeFrom, pure_bind, bind_assoc]

theorem concatPairs_next (c : Nested σ (α × τ)) :
    (concatPairs fuel m start k).next c =
      (concatPairs fuel m start k).hasNext c >>= takeFrom k := by
  refine bind_congr ?_
  rintro ⟨more, outer, current⟩
  cases more with
  | false => rfl
  | true =>
    cases current with
    | none => rfl
    | some row =>
      simp only [keyed, map, takeFrom, bind_assoc]
      refine bind_congr ?_
      rintro ⟨answer, t⟩
      cases answer with
      | error e => rfl
      | ok b => rfl

/-! ### Up to a failure -/

/-- Asked only where it has announced an element, a cursor of `m` that stands `Well` stands well
again, and it fails only into a `Bad` world. -/
def FailsInto (Bad : ω → Prop) (Well : σ → Prop) (m : Machine ω σ α) : Prop :=
  ∀ s w, Well s → (m.hasNext s).Ensures w fun r w' => Well r.2 ∧
    (r.1 = true → (m.next r.2).Ensures w' fun r' w'' =>
      Well r'.2 ∧ ∀ e, r'.1 = .error e → Bad w'')

theorem Guards.keyed {κ : Type} {I : ω → Prop} {Told : τ → ω → Prop} {k : κ → Machine ω τ β}
    (h : ∀ i, (k i).Guards I Told) : (Machine.keyed k).Guards I fun c => Told c.2 where
  hasNext c w hw := ((h c.1).hasNext c.2 w hw).bind fun _ _ hw htold =>
    Comp.upholds_pure.mpr ⟨hw, htold⟩
  next c w htold hw := ((h c.1).next c.2 w htold hw).bind fun _ _ hw _ =>
    Comp.upholds_pure.mpr ⟨hw, trivial⟩

section Agree

variable {Bad : ω → Prop} {Well : σ → Prop} {w : ω}

theorem agreeOr_roundOf {again again' : Nested σ (α × τ) → Comp ω (Bool × Nested σ (α × τ))}
    {failed failed' : σ → Comp ω (Bool × Nested σ (α × τ))} (hm : m.FailsInto Bad Well)
    (hagain : ∀ c w, Well c.outer →
      Comp.AgreeOr Bad (again c) (again' c) w fun r _ => Well r.2.outer)
    (hfailed : ∀ s, (failed s).Keeps Bad) (hfailed' : ∀ s, (failed' s).Keeps Bad)
    {c : Nested σ (α × τ)} (hc : Well c.outer) :
    Comp.AgreeOr Bad (roundOf m start k again failed c) (roundOf m start k again' failed' c) w
      fun r _ => Well r.2.outer := by
  have hrow : (k.rowHasNext c.current).Ensures w fun _ _ => True := fun _ _ _ => trivial
  refine hrow.bind_agreeOr ?_
  rintro ⟨more, row⟩ w₁ -
  cases more with
  | true => exact Comp.agreeOr_of_ensures (Comp.ensures_pure.mpr hc)
  | false =>
    refine (hm c.outer w₁ hc).bind_agreeOr ?_
    rintro ⟨more, outer⟩ w₂ ⟨houter, hnext⟩
    cases more with
    | false => exact Comp.agreeOr_of_ensures (Comp.ensures_pure.mpr houter)
    | true =>
      refine (hnext rfl).bind_agreeOr ?_
      rintro ⟨answer, outer⟩ w₃ ⟨houter, hbad⟩
      cases answer with
      | error e =>
        -- the two differ here, and whatever they go on to do, it has happened
        have hw := hbad e rfl
        exact .inr ⟨(hfailed outer w₃ hw).left, (hfailed' outer w₃ hw).left⟩
      | ok a =>
        have hstart : start.Ensures w₃ fun _ _ => True := fun _ _ _ => trivial
        exact hstart.bind_agreeOr fun t w₄ _ => hagain ⟨outer, some (a, t)⟩ w₄ houter

/-- A bad world stays so, whatever the cursors below are asked, and whenever one is started. -/
structure Stays (Bad : ω → Prop) (m : Machine ω σ α) (start : Comp ω τ) (k : Machine ω τ β) :
    Prop where
  outer : m.Guards Bad fun _ _ => True
  start : start.Keeps Bad
  inner : k.Guards Bad fun _ _ => True

theorem stays_false : Stays (fun _ => False) m start k where
  outer := ⟨fun _ _ hw => hw.elim, fun _ _ _ hw => hw.elim⟩
  start _ hw := hw.elim
  inner := ⟨fun _ _ hw => hw.elim, fun _ _ _ hw => hw.elim⟩

theorem Stays.concatPairs (h : Stays Bad m start k) (fuel : Nat) :
    (m.concatPairs fuel start k).Upholds Bad fun _ => True := by
  have houter : (m.map fun a => do return (a, ← start)).Guards Bad fun _ _ => True :=
    h.outer.map fun a => h.start.bind fun t => Comp.keeps_pure (a, t)
  have hinner : (Machine.keyed fun a : α => k.map fun b => pure (a, b)).Guards Bad
      fun _ _ => True := Guards.keyed fun a => h.inner.map fun b => Comp.keeps_pure (a, b)
  exact houter.flatten hinner fuel

theorem Stays.nestedPairs (h : Stays Bad m start k) (fuel : Nat) :
    (nestedPairs fuel m start k).Upholds Bad fun _ => True := by
  have hpairs := h.outer.pairs h.start h.inner fuel
  constructor
  · intro c w _ hw
    exact (hpairs.hasNext c.asRowed w trivial hw).bind fun _ _ hw _ =>
      Comp.upholds_pure.mpr ⟨hw, trivial⟩
  · intro c w _ hw
    exact (hpairs.next c.asRowed w trivial hw).bind fun _ _ hw _ =>
      Comp.upholds_pure.mpr ⟨hw, trivial⟩

theorem agreeOr_hasNext (hm : m.FailsInto Bad Well) (h : Stays Bad m start k)
    {c : Nested σ (α × τ)} (hc : Well c.outer) :
    Comp.AgreeOr Bad ((nestedPairs fuel m start k).hasNext c)
      ((m.concatPairs fuel start k).hasNext c) w fun r _ => Well r.2.outer := by
  induction fuel generalizing c w with
  | zero => exact .inl ⟨rfl, nofun⟩
  | succ n ih =>
    rw [nestedPairs_hasNext_succ, concatPairs_hasNext_succ]
    refine agreeOr_roundOf hm (fun _ _ hc => ih hc) (fun _ => Comp.keeps_pure _) ?_ hc
    exact fun _ => .keeps fun w hw => (h.concatPairs n).hasNext _ w trivial hw

theorem Stays.takeFrom (h : Stays Bad m start k) (r : Bool × Nested σ (α × τ)) :
    (takeFrom k r).Keeps Bad := by
  obtain ⟨more, outer, current⟩ := r
  cases more with
  | false => exact Comp.keeps_pure _
  | true =>
    cases current with
    | none => exact Comp.keeps_pure _
    | some row =>
      refine Comp.Keeps.bind (fun w hw => ?_) fun _ => Comp.keeps_pure _
      exact h.inner.next row.2 w trivial hw

theorem ensures_takeFrom {r : Bool × Nested σ (α × τ)} (hr : Well r.2.outer) :
    (takeFrom k r).Ensures w fun r' _ => Well r'.2.outer := by
  obtain ⟨more, outer, current⟩ := r
  cases more with
  | false => exact Comp.ensures_pure.mpr hr
  | true =>
    cases current with
    | none => exact Comp.ensures_pure.mpr hr
    | some row =>
      have hany : (k.next row.2).Ensures w fun _ _ => True := fun _ _ _ => trivial
      exact hany.bind fun _ _ _ => Comp.ensures_pure.mpr hr

theorem agreeOr_call (hm : m.FailsInto Bad Well) (h : Stays Bad m start k) (ask : Ask)
    {c : Nested σ (α × τ)} (hc : Well c.outer) :
    Comp.AgreeOr Bad ((nestedPairs fuel m start k).call ask c)
      ((m.concatPairs fuel start k).call ask c) w fun r _ => Well r.2.outer := by
  have hsearch : Comp.AgreeOr Bad ((nestedPairs fuel m start k).hasNext c)
      ((m.concatPairs fuel start k).hasNext c) w fun r _ => Well r.2.outer :=
    agreeOr_hasNext hm h hc
  cases ask with
  | hasNext =>
    exact hsearch.bind (fun _ _ hr => Comp.agreeOr_of_ensures (Comp.ensures_pure.mpr hr))
      (fun _ => Comp.keeps_pure _) fun _ => Comp.keeps_pure _
  | next =>
    have hnext : Comp.AgreeOr Bad ((nestedPairs fuel m start k).next c)
        ((m.concatPairs fuel start k).next c) w fun r _ => Well r.2.outer := by
      rw [nestedPairs_next, concatPairs_next]
      exact hsearch.bind (fun _ _ hr => Comp.agreeOr_of_ensures (ensures_takeFrom hr))
        h.takeFrom h.takeFrom
    exact hnext.bind (fun _ _ hr => Comp.agreeOr_of_ensures (Comp.ensures_pure.mpr hr))
      (fun _ => Comp.keeps_pure _) fun _ => Comp.keeps_pure _

/-- A schedule of calls of the one comes to the same as one of the other. -/
theorem agreeOr_run (hm : m.FailsInto Bad Well) (h : Stays Bad m start k) (asks : List Ask)
    {c : Nested σ (α × τ)} (hc : Well c.outer) :
    Comp.AgreeOr Bad ((nestedPairs fuel m start k).run asks c)
      ((m.concatPairs fuel start k).run asks c) w fun _ _ => True := by
  induction asks generalizing c w with
  | nil => exact Comp.agreeOr_of_ensures (Comp.ensures_pure.mpr trivial)
  | cons ask asks ih =>
    refine (agreeOr_call hm h ask hc).bind ?_ ?_ ?_
    · rintro ⟨reply, c⟩ w' hc
      exact (ih hc).bind (fun _ _ _ => Comp.agreeOr_of_ensures (Comp.ensures_pure.mpr trivial))
        (fun _ => Comp.keeps_pure _) fun _ => Comp.keeps_pure _
    · rintro ⟨reply, c⟩
      exact (Comp.Upholds.keeps fun w hw => (h.nestedPairs fuel).run trivial hw).bind
        fun _ => Comp.keeps_pure _
    · rintro ⟨reply, c⟩
      exact (Comp.Upholds.keeps fun w hw => (h.concatPairs fuel).run trivial hw).bind
        fun _ => Comp.keeps_pure _

theorem agreeOr_replies (hm : m.FailsInto Bad Well) (h : Stays Bad m start k) (asks : List Ask)
    {s : σ} (hs : Well s) :
    Comp.AgreeOr Bad ((m.pairs fuel start k).replies asks ⟨s, none⟩)
      ((m.concatPairs fuel start k).replies asks ⟨s, none⟩) w fun _ _ => True := by
  rw [replies_nestedPairs]
  exact (agreeOr_run hm h asks hs).bind
    (fun _ _ _ => Comp.agreeOr_of_ensures (Comp.ensures_pure.mpr trivial))
    (fun _ => Comp.keeps_pure _) fun _ => Comp.keeps_pure _

end Agree

/-! ## Cursors with names -/

end Machine

/-- Cursor `i` has said that an element is left and then failed to hand it out. -/
def Signal.Failed (i : Nat) (signals : List Signal) : Prop :=
  ∃ e, [.asks i .hasNext, .replies i (.more true), .asks i .next,
    .replies i (.item (.error e))] <:+: signals

theorem Signal.Failed.append {i : Nat} {signals : List Signal} (h : Failed i signals)
    (later : List Signal) : Failed i (signals ++ later) := by
  obtain ⟨e, hinfix⟩ := h
  exact ⟨e, hinfix.trans (List.prefix_append signals later).isInfix⟩

theorem Signal.Failed.mem {i : Nat} {signals : List Signal} (h : Failed i signals) :
    ∃ e, .replies i (.item (.error e)) ∈ signals := by
  obtain ⟨e, hinfix⟩ := h
  exact ⟨e, hinfix.subset (by simp)⟩

namespace Machine

open Signal (Failed)

variable {m : Machine ω σ α} {start : Comp ω τ} {k : Machine ω τ β} {i : Nat}

theorem FailsInto.named {Bad : ω → Prop} {Well : σ → Prop} (h : m.FailsInto Bad Well) :
    m.named.FailsInto (fun v => Bad v.world) fun c => Well c.2 := by
  intro c v hc
  refine (h c.2 v.world hc).named_hasNext.mono ?_
  intro r v' ⟨hr, hnext⟩
  exact ⟨hr, fun hmore => (hnext hmore).named_next⟩

/-- What has happened has happened. -/
theorem stays_failed :
    Stays (fun v : Noted ω Signal => Failed i v.notes) m.named (enrolStart start) k.named := by
  have hnamed {ρ γ : Type} (n : Machine ω ρ γ) :
      n.named.Guards (fun v : Noted ω Signal => Failed i v.notes) fun _ _ => True := by
    constructor
    · intro c v hv
      exact (upholds_named_hasNext_of (hv.append _) fun _ => (hv.append _).append _).mono
        fun _ _ _ _ => trivial
    · intro c v _ hv
      exact (upholds_named_next_of (hv.append _) fun _ => (hv.append _).append _).mono
        fun _ _ _ => trivial
  refine ⟨hnamed m, fun v hv => ?_, hnamed k⟩
  refine (Noted.upholds_below (I := Failed i) hv).bind fun s v' hv' _ => ?_
  exact (upholds_enrol_of hv' (hv'.append _)).mono fun _ _ _ => trivial

theorem failsInto_failed :
    m.named.FailsInto (fun v : Noted ω Signal => Failed i v.notes) fun c => c.1 = i := by
  rintro c v rfl
  refine ensures_named_hasNext.mono ?_
  rintro ⟨more, c'⟩ v₁ ⟨hname, hnotes⟩
  refine ⟨hname, ?_⟩
  rintro rfl
  refine ensures_named_next.mono ?_
  rintro ⟨answer, c''⟩ v₂ ⟨hname', hnotes'⟩
  refine ⟨hname'.trans hname, ?_⟩
  rintro e rfl
  refine ⟨e, v.notes, [], ?_⟩
  rw [hnotes', hnotes, hname]
  simp [Reply.plain, Except.map]

/-- A cursor that looks ahead hands out what it has announced. -/
theorem failsInto_peek {fetch : σ → Comp ω (Option α × σ)} :
    (peek fetch).FailsInto (fun _ => False) fun _ => True := by
  intro p w _
  have hfill : (fill fetch p).Ensures w fun r _ => r.1 = true → ∃ a, r.2.slot = .held a := by
    obtain ⟨s, slot⟩ := p
    cases slot with
    | held a => exact Comp.ensures_pure.mpr fun _ => ⟨a, rfl⟩
    | closed => exact Comp.ensures_pure.mpr nofun
    | empty =>
      refine ensures_fill_empty.mono ?_
      rintro r w' (⟨-, hheld⟩ | ⟨hmore, -⟩)
      · exact fun _ => hheld
      · exact fun htrue => nomatch htrue.symm.trans hmore
  refine hfill.mono ?_
  rintro ⟨more, s, slot⟩ w' hheld
  refine ⟨trivial, fun hmore => ?_⟩
  obtain ⟨a, rfl⟩ := hheld hmore
  exact Comp.ensures_pure.mpr ⟨trivial, nofun⟩

section Runs

/-- A schedule of calls of new pairs, where the cursors below have names. -/
def pairsRun (fuel : Nat) (m : Machine ω σ α) (start : Comp ω τ) (k : Machine ω τ β) (s : σ)
    (asks : List Ask) : Comp (Noted ω Signal) (List (Reply (α × β))) := do
  let outer ← enrol s
  (m.named.pairs fuel (enrolStart start) k.named).replies asks ⟨outer, none⟩

/-- The same calls of the concatenation. -/
def concatRun (fuel : Nat) (m : Machine ω σ α) (start : Comp ω τ) (k : Machine ω τ β) (s : σ)
    (asks : List Ask) : Comp (Noted ω Signal) (List (Reply (α × β))) := do
  let outer ← enrol s
  (m.named.concatPairs fuel (enrolStart start) k.named).replies asks ⟨outer, none⟩

variable {Bad : Noted ω Signal → Prop} {Well : Nat × σ → Prop} {s : σ} {w : ω}

theorem agreeOr_runs (hm : m.named.FailsInto Bad Well)
    (h : Stays Bad m.named (enrolStart start) k.named) (hs : Well (0, s)) (fuel : Nat)
    (asks : List Ask) :
    Comp.AgreeOr Bad (pairsRun fuel m start k s asks) (concatRun fuel m start k s asks) ⟨w, []⟩
      fun _ _ => True := by
  have houter : (enrol s).Ensures (⟨w, []⟩ : Noted ω Signal) fun c _ => c = (0, s) :=
    Comp.ensures_bind.mpr <| Comp.ensures_get.mpr <|
      Comp.ensures_bind.mpr <| Comp.ensures_modify.mpr <| Comp.ensures_pure.mpr rfl
  refine houter.bind_agreeOr ?_
  rintro _ v rfl
  exact agreeOr_replies hm h asks hs

end Runs

/-- The pairs of an outer cursor with every walk of an inner sequence, and the concatenation of
those walks, reply alike to every schedule of calls and do the same below, call for call and start
for start. It is so if the outer cursor always hands out what it has just announced; and if it need
not, it is so for every schedule in which it did. -/
theorem pairs_eq_concat (fuel : Nat) (m : Machine ω σ α) (start : Comp ω τ) (k : Machine ω τ β)
    (s : σ) (asks : List Ask) (w : ω) :
    (∀ Well : σ → Prop, Well s → m.FailsInto (fun _ => False) Well →
      pairsRun fuel m start k s asks ⟨w, []⟩ = concatRun fuel m start k s asks ⟨w, []⟩) ∧
    (¬ Failed 0 ((pairsRun fuel m start k s asks).left ⟨w, []⟩).notes ∨
        ¬ Failed 0 ((concatRun fuel m start k s asks).left ⟨w, []⟩).notes →
      pairsRun fuel m start k s asks ⟨w, []⟩ = concatRun fuel m start k s asks ⟨w, []⟩) := by
  constructor
  · intro Well hs hm
    rcases agreeOr_runs hm.named stays_false hs fuel asks with ⟨heq, -⟩ | ⟨hbad, -⟩
    · exact heq
    · exact hbad.elim
  · intro hreliable
    rcases agreeOr_runs failsInto_failed stays_failed rfl fuel asks with ⟨heq, -⟩ | ⟨hbad, hbad'⟩
    · exact heq
    · exact (hreliable.elim (· hbad) (· hbad')).elim

/-- The first pair over `[1, 2]` and `[7, 8]`. -/
theorem pairs_eq_concat_first :
    let m : Machine Unit (Peeked (List Nat) Nat) Nat := peek pullHead
    let start : Comp Unit (Peeked (List Nat) Nat) := pure (.fresh [7, 8])
    let pairs := pairsRun 2 m start m (.fresh [1, 2]) [.next]
    let concat := concatRun 2 m start m (.fresh [1, 2]) [.next]
    (m.FailsInto (fun _ => False) (fun _ => True) ∧ pairs ⟨(), []⟩ = concat ⟨(), []⟩) ∧
      ¬ Failed 0 (pairs.left ⟨(), []⟩).notes ∧ pairs ⟨(), []⟩ = concat ⟨(), []⟩ := by
  intro m start pairs concat
  obtain ⟨hreliable, hrun⟩ := pairs_eq_concat 2 m start m (.fresh [1, 2]) [.next] ()
  have hnotes : (pairs.left ⟨(), []⟩).notes =
      [.begins 0, .asks 0 .hasNext, .replies 0 (.more true), .asks 0 .next,
        .replies 0 (.item (.ok ())), .begins 5, .asks 5 .hasNext, .replies 5 (.more true),
        .asks 5 .next, .replies 5 (.item (.ok ()))] := rfl
  have hfailed : ¬ Failed 0 (pairs.left ⟨(), []⟩).notes := by
    intro h
    obtain ⟨e, hmem⟩ := h.mem
    rw [hnotes] at hmem
    simp at hmem
  exact ⟨⟨failsInto_peek, hreliable (fun _ => True) trivial failsInto_peek⟩, hfailed,
    hrun (.inl hfailed)⟩

/-- Where the outer cursor fails, the pairs are over and the concatenation goes on. -/
example :
    let m : Machine Unit Nat Nat :=
      ⟨fun n => pure (true, n), fun
        | 0 => pure (.error .exhausted, 1)
        | n + 1 => pure (.ok n, n + 2)⟩
    let start : Comp Unit (Peeked (List Nat) Nat) := pure (.fresh [7])
    ∃ v v', pairsRun 4 m start (peek pullHead) 0 [.next] ⟨(), []⟩ =
        .ok [.item (.error .exhausted)] v ∧
      concatRun 4 m start (peek pullHead) 0 [.next] ⟨(), []⟩ = .ok [.item (.ok (0, 7))] v' :=
  ⟨_, _, rfl, rfl⟩

end Machine

end LazySeq
