import LazySeq.Proofs.Sequence.Costs
import LazySeq.Proofs.Sequence.RowMajor
import LazySeq.Proofs.Sequence.Watched
import LazySeq.Proofs.Stage.Peek

/-!
# What a product does to its sources

The sources of a product are watched: every start and every call of one of them is noted under the
number of the source. A `Meter` adds up what the notes weigh, so that one account of the costs of a
product (`Sequence.Costs.productOf`) tells how often each source was started and how many elements
it handed out.

`Sequence.productFrom?` is the recursion of a product over the positions of its sources, with every
access to the sources checked.
-/

namespace LazySeq

open LazySeq.Frame

variable {ω υ τ ι α : Type}

/-! ## Sources that can be walked again and again -/

/-- A world divided as a part of it is. -/
def Frame.comap (part : υ → ω) (fr : Frame ω) : Frame υ where
  Place := fr.Place
  Has v := fr.Has (part v)
  Same p v v' := fr.Same p (part v) (part v')
  Grows v v' := fr.Grows (part v) (part v')
  same_refl p v := fr.same_refl p (part v)
  same_trans := fr.same_trans
  grows_refl v := fr.grows_refl (part v)
  grows_trans := fr.grows_trans
  has_mono := fr.has_mono

theorem Frame.Keeps.comap {part : υ → ω} {fr : Frame ω} {A : fr.Assertion} (h : fr.Keeps A) :
    (fr.comap part).Keeps fun F v => A F (part v) :=
  ⟨h.has, h.stable⟩

theorem Frame.Reaches.comap {part : υ → ω} {fr : Frame ω} {A : fr.Assertion} {F : fr.Region}
    {v v' : υ} (h : Reaches A F (part v) (part v')) :
    @Reaches υ (fr.comap part) (fun F v => A F (part v)) F v v' := by
  obtain ⟨F', hstep, hA⟩ := h
  exact ⟨F', ⟨hstep.grows, hstep.same, hstep.owned⟩, hA⟩

namespace Origin

/-- Every cursor of the source is lawful over `xs`, whatever the other cursors do: `fr` divides the
world among them. -/
def Traverses (fr : Frame ω) (o : Origin ω τ) (xs : List Value) : Prop :=
  ∃ U : fr.Account Value τ, fr.Supplies True Machine.Exactly o.machine U ∧
    ∀ w, o.start.Returns w fun s w' => Reaches (U xs s) Region.none w w'

/-- Every sequence that means a list is such a source, once its cursors have fuel enough. -/
theorem traverses_of_means {watch : ω → υ} {s : Sequence ω τ} {xs : List Value}
    (h : s.Means watch True xs) : ∃ N, ∀ n, N ≤ n →
      (⟨s.start, Cursor.machine n⟩ : Origin _ _).Traverses (World.frame τ watch) xs := by
  obtain ⟨N, hs⟩ := h
  exact ⟨N, fun n hn => ⟨Cursor.HasLeft watch True N, Cursor.supplies_hasLeft hn, hs⟩⟩

/-- A source whose cursors keep all they need to themselves. -/
theorem traverses_bare {o : Origin ω τ} (Left : List Value → τ → Prop) {xs : List Value}
    (h : o.machine.Lawful fun xs _ s => Left xs s)
    (hstart : ∀ w, o.start.Returns w fun s _ => Left xs s) : o.Traverses (Frame.bare ω) xs := by
  refine ⟨fun xs s F _ => F = Region.none ∧ Left xs s, ?_, fun w => ?_⟩
  · refine ⟨fun _ _ => keeps_none, ?_, ?_, ?_⟩
    · rintro _ xs w s - ⟨rfl, hs⟩
      exact (h.hasNext (w := w) hs).mono fun r w' hr => ⟨hr.1, reaches_bare hr.2 w w'⟩
    · rintro _ a xs w s ⟨rfl, hs⟩
      exact (h.next_cons (w := w) hs).mono fun r w' hr => ⟨⟨a, hr.1, rfl⟩, reaches_bare hr.2 w w'⟩
    · rintro _ w s - ⟨rfl, hs⟩
      exact (h.next_nil (w := w) hs).mono fun r w' hr => ⟨hr.1, reaches_bare hr.2 w w'⟩
  · exact (hstart w).mono fun s w' hs => reaches_bare hs w w'

/-- A source whose cursors walk a list. -/
def ofList (xs : List Value) : Origin Unit (Peeked (List Value) Value) :=
  ⟨pure (.fresh xs), .peek pullHead⟩

theorem traverses_ofLists (lists : List (List Value)) :
    List.Forall₂ (fun o xs => Origin.Traverses (Frame.bare Unit) o xs) (lists.map ofList) lists := by
  rw [List.forall₂_map_left_iff, List.forall₂_same]
  intro xs _
  apply traverses_bare (fun xs s => Machine.HeadLeft xs () s) Machine.lawful_peek_pullHead
  intro w
  exact Comp.returns_pure.mpr rfl

end Origin

/-! ## Meters -/

/-- What the start of a cursor and a successful `next` weigh, for every source. -/
structure Meter (ι : Type) where
  start : ι → Nat
  take : ι → Nat
deriving Inhabited

namespace Meter

variable {μ : Meter ι}

def weight (μ : Meter ι) : Touch ι → Nat
  | .started i => μ.start i
  | .called i (.item (.ok _)) => μ.take i
  | .called _ _ => 0

def total (μ : Meter ι) (notes : List (Touch ι)) : Nat :=
  (notes.map μ.weight).sum

/-- What the notes in a world weigh. -/
def bill (μ : Meter ι) (w : World (Noted ω (Touch ι)) τ) : Nat :=
  μ.total w.outer.notes

theorem total_concat (notes : List (Touch ι)) (t : Touch ι) :
    μ.total (notes ++ [t]) = μ.total notes + μ.weight t := by
  simp [total]

end Meter

/-! ## One source -/

variable {fr : Frame ω} {o : Origin ω τ} {xs : List Value} {μ : Meter ι}

/-- The world of the sources in the world of the cursors. -/
def World.sources (w : World (Noted ω (Touch ι)) τ) : ω := w.outer.world

theorem Comp.Returns.noted {act : Comp ω α} {w : World (Noted ω (Touch ι)) τ} {P : α → ω → Prop}
    (h : act.Returns w.sources P) (note : α → Touch ι) :
    (World.onOuter (act.noting note)).Returns w fun a w' =>
      P a w'.sources ∧ μ.bill w' = μ.bill w + μ.weight (note a) := by
  refine (Comp.Returns.within (h.noting note)).mono ?_
  rintro a _ ⟨v, rfl, hp, hnotes⟩
  refine ⟨hp, ?_⟩
  show μ.total v.notes = _
  rw [hnotes, Meter.total_concat]
  rfl

/-- What a cursor of the source has left, and what it will still add to the bill. -/
def SourceOwes (price : Nat) (U : fr.Account Value τ) (owed : Nat) :
    (fr.comap (World.sources (ι := ι) (τ := τ))).Account Value τ :=
  fun xs s F w => owed = xs.length * price ∧ U xs s F w.sources

theorem bills_source {m : Machine ω τ Value} {U : fr.Account Value τ}
    (h : fr.Supplies True Machine.Exactly m U) (μ : Meter ι) (i : ι) :
    (fr.comap World.sources).Bills μ.bill (World.ofOuter (m.noted (.called i)))
      (SourceOwes (μ.take i) U) where
  keeps owed xs s := by
    refine .of_follows ?_
    intro F w ⟨howed, hs⟩
    exact ⟨_, (h.keeps xs s).comap, hs, fun _ hs' => ⟨howed, hs'⟩⟩
  hasNext := by
    rintro _ F xs w s ⟨rfl, hs⟩
    refine ((h.hasNext (fun _ => trivial) hs).noted (μ := μ) _).mono ?_
    intro r w' ⟨⟨hr, hreach⟩, hbill⟩
    refine ⟨hr, _, by rw [hbill]; rfl, hreach.comap.mono fun F' hs' => ⟨fun hnil => ?_, rfl, hs'⟩⟩
    rw [hnil, List.length_nil, Nat.zero_mul]
  next_cons := by
    rintro _ F a xs w s ⟨rfl, hs⟩
    refine ((h.next_cons hs).noted (μ := μ) _).mono ?_
    rintro r w' ⟨⟨⟨b, hr, rfl⟩, hreach⟩, hbill⟩
    refine ⟨hr, xs.length * μ.take i, ?_, hreach.comap.mono fun F' hs' => ⟨rfl, hs'⟩⟩
    rw [hbill, hr, List.length_cons, Nat.succ_mul]
    show _ + μ.take i + _ = _
    omega
  next_nil := by
    rintro _ F w s ⟨rfl, hs⟩
    refine ((h.next_nil trivial hs).noted (μ := μ) _).mono ?_
    intro r w' ⟨⟨hr, hreach⟩, hbill⟩
    refine ⟨hr, 0, ?_, hreach.comap.mono fun F' hs' => ⟨fun _ => rfl, ?_, hs'⟩⟩
    · rw [hbill, hr, List.length_nil, Nat.zero_mul]
      rfl
    · rw [List.length_nil, Nat.zero_mul]

theorem Origin.Traverses.costs (h : o.Traverses fr xs) (i : ι) :
    (o.watched i).Costs (fr.comap World.sources) Meter.bill
      (fun μ => μ.start i + xs.length * μ.take i) xs := by
  obtain ⟨U, hU, hstart⟩ := h
  refine ⟨1, fun μ => ⟨fun owed => Cursor.Wrapped (.given (o.machine.noted (.called i)))
    (SourceOwes (μ.take i) U owed), fun n hn => ?_, fun w => ?_⟩⟩
  · obtain ⟨n, rfl⟩ := Nat.exists_eq_add_one.mpr hn
    exact Cursor.bills_wrapped (fun _ _ => rfl) (bills_source hU μ i)
  · refine ((hstart w.sources).noted (μ := μ) fun _ => .started i).bind ?_
    intro s w' ⟨hreach, hbill⟩
    refine Comp.returns_pure.mpr ⟨xs.length * μ.take i, ?_, hreach.comap.mono fun F' hs =>
      ⟨s, rfl, rfl, hs⟩⟩
    rw [hbill, Nat.add_assoc]
    rfl

/-! ## Sources in order -/

/-- The sequences over sources, each with its number, the first being `k`. -/
def Origin.watchFrom (k : Nat) : List (Origin ω τ) → List (Sequence (Noted ω (Touch Nat)) τ)
  | [] => []
  | o :: rest => o.watched k :: watchFrom (k + 1) rest

/-- The prices of sources over lists, the first of them with the number `k`. -/
def sourcePrices (k : Nat) : List (List Value) → List ((Meter Nat → Nat) × List Value)
  | [] => []
  | xs :: rest => (fun μ => μ.start k + xs.length * μ.take k, xs) :: sourcePrices (k + 1) rest

theorem map_snd_sourcePrices (k : Nat) (lists : List (List Value)) :
    (sourcePrices k lists).map Prod.snd = lists := by
  induction lists generalizing k with
  | nil => rfl
  | cons xs rest ih => rw [sourcePrices, List.map_cons, ih]

theorem costAll_watchFrom {sources : List (Origin ω τ)} {lists : List (List Value)} (k : Nat)
    (h : List.Forall₂ (fun o xs => o.Traverses fr xs) sources lists) :
    Sequence.CostAll (fr.comap World.sources) Meter.bill (Origin.watchFrom k sources)
      (sourcePrices k lists) := by
  induction h generalizing k with
  | nil => exact .nil
  | cons ho _ ih => exact .cons (ho.costs k) (ih (k + 1))

/-- Where only the source with number `i` weighs anything. -/
def Meter.Only (μ : Meter ι) (i : ι) : Prop := ∀ j, j ≠ i → μ.start j = 0 ∧ μ.take j = 0

variable {lists : List (List Value)} {η : Meter Nat} {k i : Nat}

theorem productPrice_of_lt (h : η.Only i) (hi : i < k) :
    Sequence.productPrice (sourcePrices k lists) η = 0 := by
  induction lists generalizing k with
  | nil => rfl
  | cons xs rest ih =>
    obtain ⟨hstart, htake⟩ := h k (by omega)
    simp [sourcePrices, Sequence.productPrice, hstart, htake, ih (Nat.lt_succ_of_lt hi)]

/-- A source is started, and walked to its end, once for each row over the sources before it. -/
theorem productPrice_eq {j : Nat} (h : η.Only j) (hj : k + i = j) (hx : lists[i]? = some xs) :
    Sequence.productPrice (sourcePrices k lists) η =
      ((lists.take i).map List.length).prod * (η.start j + xs.length * η.take j) := by
  induction lists generalizing k i with
  | nil => cases hx
  | cons ys rest ih =>
    rw [sourcePrices, Sequence.productPrice]
    cases i with
    | zero =>
      obtain rfl : ys = xs := Option.some.inj hx
      obtain rfl : k = j := hj
      simp [productPrice_of_lt h (Nat.lt_succ_self k)]
    | succ i =>
      obtain ⟨hstart, htake⟩ := h k (by omega)
      rw [ih (by omega) hx, hstart, htake, List.take_succ_cons, List.map_cons, List.prod_cons,
        Nat.mul_assoc]
      omega

/-! ## Counting notes -/

namespace Touch

def isStart (i : Nat) : Touch Nat → Bool
  | .started j => j == i
  | .called _ _ => false

def isTake (i : Nat) : Touch Nat → Bool
  | .called j (.item (.ok _)) => j == i
  | _ => false

/-- How often source `i` was started. -/
def starts (i : Nat) (notes : List (Touch Nat)) : Nat := notes.countP (isStart i)

/-- How many elements source `i` handed out, by all its cursors together. -/
def takes (i : Nat) (notes : List (Touch Nat)) : Nat := notes.countP (isTake i)

end Touch

namespace Meter

/-- A meter that counts the starts of source `i`. -/
def starts (i : Nat) : Meter Nat := ⟨fun j => if j = i then 1 else 0, fun _ => 0⟩

/-- A meter that counts the elements that source `i` hands out. -/
def takes (i : Nat) : Meter Nat := ⟨fun _ => 0, fun j => if j = i then 1 else 0⟩

theorem only_starts (i : Nat) : (starts i).Only i := fun _ hj => ⟨if_neg hj, rfl⟩

theorem only_takes (i : Nat) : (takes i).Only i := fun _ hj => ⟨rfl, if_neg hj⟩

theorem total_eq_countP {p : Touch ι → Bool} (h : ∀ t, μ.weight t = if p t then 1 else 0)
    (notes : List (Touch ι)) : μ.total notes = notes.countP p := by
  induction notes with
  | nil => rfl
  | cons t notes ih =>
    rw [List.countP_cons, ← ih, Nat.add_comm, ← h t]
    rfl

theorem total_starts (i : Nat) (notes : List (Touch Nat)) :
    (starts i).total notes = Touch.starts i notes := by
  refine total_eq_countP (fun t => ?_) notes
  cases t with
  | started j => simp [weight, starts, Touch.isStart]
  | called j reply => cases reply with
    | more left => rfl
    | item answer => cases answer <;> rfl

theorem total_takes (i : Nat) (notes : List (Touch Nat)) :
    (takes i).total notes = Touch.takes i notes := by
  refine total_eq_countP (fun t => ?_) notes
  cases t with
  | started j => rfl
  | called j reply => cases reply with
    | more left => rfl
    | item answer => cases answer <;> simp [weight, takes, Touch.isTake]

end Meter

theorem price_starts (hx : lists[i]? = some xs) :
    Sequence.productPrice (sourcePrices 0 lists) (.starts i) =
      ((lists.take i).map List.length).prod := by
  rw [productPrice_eq (Meter.only_starts i) (Nat.zero_add i) hx]
  simp [Meter.starts]

theorem price_takes (hx : lists[i]? = some xs) :
    Sequence.productPrice (sourcePrices 0 lists) (.takes i) =
      ((lists.take (i + 1)).map List.length).prod := by
  rw [productPrice_eq (Meter.only_takes i) (Nat.zero_add i) hx]
  simp [Meter.takes, List.take_add_one, hx]

/-! ## The product of several sources -/

namespace Sequence

/-- The product of the sources from `offset` on, with every access to the sources checked. -/
def productFrom? (sources : List (Sequence ω τ)) (offset : Nat) : Option (Sequence ω τ) :=
  if h : offset < sources.length then do
    let rest := sources.drop offset
    let head ← rest[0]?
    if rest.length = 2 then
      return pairs head (← rest[1]?)
    else
      return map (.pure prependRow) (pairs head (← productFrom? sources (offset + 1)))
  else
    none
termination_by sources.length - offset

theorem productFrom?_eq {sources others : List (Sequence ω τ)} {a b : Sequence ω τ} {offset : Nat}
    (h : sources.drop offset = a :: b :: others) :
    productFrom? sources offset = some (productOf a b others) := by
  induction others generalizing a b offset with
  | nil =>
    have hlt : offset < sources.length := List.length_lt_of_drop_ne_nil (by simp [h])
    rw [productFrom?, dif_pos hlt, h]
    rfl
  | cons c others ih =>
    have hlt : offset < sources.length := List.length_lt_of_drop_ne_nil (by simp [h])
    have hrest : sources.drop (offset + 1) = b :: c :: others := by
      rw [← List.tail_drop, h, List.tail_cons]
    rw [productFrom?, dif_pos hlt, h, ih hrest]
    rfl

/-- The product of two watched sources or more, each of them lawful over a list whenever it is
walked. The recursion of the product finds every source it looks for. A new cursor hands out the
rows over the lists in row-major order, whatever the schedule of calls. Once it has refused a call,
the first source was started once and each of the others once for each row over the sources before
it, and every source has handed out as many elements as there are rows over it and the sources
before it. -/
theorem productAll_run (fr : Frame ω) {sources : List (Origin ω τ)} {lists : List (List Value)}
    (hsize : 2 ≤ sources.length)
    (h : List.Forall₂ (fun o xs => o.Traverses fr xs) sources lists) :
    ∃ s, productAll? (Origin.watchFrom 0 sources) = .ok s ∧
      productFrom? (Origin.watchFrom 0 sources) 0 = some s ∧
        ∃ rows, RowMajor lists rows ∧ ∃ N, ∀ n, N ≤ n → ∀ asks w,
          (do (Cursor.machine n).run asks (← s.start)).Returns w fun r w' =>
            r.1 = ListCursor.run asks (rows.map Value.list) ∧
              ((∃ reply ∈ r.1, reply.Refuses) → ∀ i, i < sources.length →
                Touch.starts i w'.outer.notes = Touch.starts i w.outer.notes +
                    ((lists.take i).map List.length).prod ∧
                  Touch.takes i w'.outer.notes = Touch.takes i w.outer.notes +
                    ((lists.take (i + 1)).map List.length).prod) := by
  match sources, lists, h with
  | a :: b :: others, xs :: ys :: rest, .cons ha (.cons hb hothers) =>
    have hcosts := (ha.costs 0).productOf (hb.costs 1) (costAll_watchFrom 2 hothers)
    rw [map_snd_sourcePrices] at hcosts
    obtain ⟨N, hrun⟩ := hcosts.run
    refine ⟨_, rfl, productFrom?_eq rfl, _, rowMajor_allRows _, N, fun n hn asks w => ?_⟩
    refine (hrun n hn asks w).mono fun r w' ⟨hreplies, hbill⟩ => ⟨hreplies, ?_⟩
    intro hrefuses i hi
    rw [(List.Forall₂.cons ha (.cons hb hothers)).length_eq] at hi
    have hlist := List.getElem?_eq_getElem hi
    have hstarts := hbill hrefuses (.starts i)
    have htakes := hbill hrefuses (.takes i)
    rw [Meter.bill, Meter.bill, Meter.total_starts, Meter.total_starts] at hstarts
    rw [Meter.bill, Meter.bill, Meter.total_takes, Meter.total_takes] at htakes
    exact ⟨hstarts.trans (congrArg _ (price_starts hlist)),
      htakes.trans (congrArg _ (price_takes hlist))⟩

/-- Two elements, two, and one: four rows, the last list varying fastest. And two elements, none, and
one: no row, and yet the first source is walked, and the second once for each of its elements; the
third is never started. -/
theorem productAll_run_four_and_none :
    (∃ s : Sequence (Noted Unit (Touch Nat)) (Peeked (List Value) Value),
      productAll? (Origin.watchFrom 0 (List.map Origin.ofList
        [[.int 1, .int 2], [.int 3, .int 4], [.int 5]])) = .ok s ∧
      ∃ N, ∀ w, (do (Cursor.machine N).run (List.replicate 5 .next) (← s.start)).Returns w
        fun r w' =>
          r.1 = ([.item (.ok (.list [.int 1, .int 3, .int 5])),
            .item (.ok (.list [.int 1, .int 4, .int 5])),
            .item (.ok (.list [.int 2, .int 3, .int 5])),
            .item (.ok (.list [.int 2, .int 4, .int 5])),
            .item (.error .exhausted)] : List (Reply Value)) ∧
          Touch.starts 0 w'.outer.notes = Touch.starts 0 w.outer.notes + 1 ∧
          Touch.starts 2 w'.outer.notes = Touch.starts 2 w.outer.notes + 4 ∧
          Touch.takes 1 w'.outer.notes = Touch.takes 1 w.outer.notes + 4) ∧
    ∃ s : Sequence (Noted Unit (Touch Nat)) (Peeked (List Value) Value),
      productAll? (Origin.watchFrom 0 (List.map Origin.ofList
        [[.int 1, .int 2], [], [.int 3]])) = .ok s ∧
      ∃ N, ∀ w, (do (Cursor.machine N).run [.hasNext] (← s.start)).Returns w fun r w' =>
        r.1 = [Reply.more false] ∧
          Touch.takes 0 w'.outer.notes = Touch.takes 0 w.outer.notes + 2 ∧
          Touch.starts 1 w'.outer.notes = Touch.starts 1 w.outer.notes + 2 ∧
          Touch.starts 2 w'.outer.notes = Touch.starts 2 w.outer.notes := by
  constructor
  · obtain ⟨s, hs, -, rows, hrows, N, hrun⟩ := productAll_run (Frame.bare Unit) (by decide)
      (Origin.traverses_ofLists [[.int 1, .int 2], [.int 3, .int 4], [.int 5]])
    rw [hrows.eq_allRows] at hrun
    refine ⟨s, hs, N, fun w => (hrun N (Nat.le_refl N) (List.replicate 5 .next) w).mono ?_⟩
    rintro ⟨replies, c⟩ w' ⟨rfl, hcounts⟩
    have hcounts := hcounts ⟨.item (.error .exhausted), List.mem_of_getLast? rfl, .exhausted, rfl⟩
    exact ⟨rfl, (hcounts 0 (by decide)).1, (hcounts 2 (by decide)).1, (hcounts 1 (by decide)).2⟩
  · obtain ⟨s, hs, -, rows, hrows, N, hrun⟩ := productAll_run (Frame.bare Unit) (by decide)
      (Origin.traverses_ofLists [[.int 1, .int 2], [], [.int 3]])
    rw [hrows.eq_allRows] at hrun
    refine ⟨s, hs, N, fun w => (hrun N (Nat.le_refl N) [.hasNext] w).mono ?_⟩
    rintro ⟨replies, c⟩ w' ⟨rfl, hcounts⟩
    have hcounts := hcounts ⟨.more false, List.mem_singleton_self _, rfl⟩
    exact ⟨rfl, (hcounts 0 (by decide)).2, (hcounts 1 (by decide)).1, (hcounts 2 (by decide)).1⟩

end Sequence

end LazySeq
