import LazySeq.Proofs.Independence.Value
import LazySeq.Proofs.Sequence.Rows

/-!
# Restartable sequences

A sequence is restartable when each of its cursors starts from the same place: none of its sources
is used up by the first cursor, and its callables answer by their argument alone.
`Sequence.Restartable` lists what a restartable sequence can be built from, which is everything but
the source that is handed out once; the combinators that bring callables of their own keep within
it.

A callable may be handed a cursor, and may call it, but it cannot read the number it goes by
(`Value.Uniform`). What it does to the part of the world that belongs to the caller is left open,
because nothing that is restartable looks there.
-/

namespace LazySeq

variable {ω τ α β : Type}

/-- `f` answers as `g` does, whatever the world. -/
def Comp.Answers (f : α → Comp ω β) (g : α → β) : Prop :=
  Comp.Computes (fun _ _ => True) f g

/-! ## Callables -/

/-- A function whose answer depends on its argument alone, and on the cursors in it. -/
inductive Fn.IsPure : Fn ω → Prop where
  | call {f : Value → Comp ω Value} {g : Value → Value} (hf : Comp.Answers f g)
    (hg : Value.Uniform g) : IsPure (.call f)
  | andThen {f g : Fn ω} (hf : IsPure f) (hg : IsPure g) : IsPure (.andThen f g)
  | walk : IsPure .walk
  | drain : IsPure .drain
  | first : IsPure .first

theorem Fn.isPure_pure {g : Value → Value} (hg : Value.Uniform g) : (Fn.pure g : Fn ω).IsPure :=
  .call (fun _ _ => Comp.returns_pure.mpr ⟨rfl, trivial⟩) hg

inductive Test.IsPure : Test ω → Prop where
  | call {p : Value → Comp ω Bool} {q : Value → Bool} (hp : Comp.Answers p q)
    (hq : Value.Uniform fun v => .bool (q v)) : IsPure (.call p)
  | hasNext : IsPure .hasNext
  | not {p : Test ω} (hp : IsPure p) : IsPure (.not p)
  | and {p q : Test ω} (hp : IsPure p) (hq : IsPure q) : IsPure (.and p q)
  | or {p q : Test ω} (hp : IsPure p) (hq : IsPure q) : IsPure (.or p q)
  | after {note : Value → Comp ω Unit} {p : Test ω} (hnote : Comp.Answers note fun _ => ())
    (hp : IsPure p) : IsPure (.after note p)

/-! ## Sources -/

/-- An iterator that brings no cursors, and the same elements from the same state. -/
inductive Iterator.Restartable : Iterator ω τ → Prop where
  | list {xs : List Value} (hxs : ∀ x ∈ xs, x.Plain) : Restartable (.list xs)
  | count (next : Int) (stop : Option Int) : Restartable (.count next stop)
  | given {pull : τ → Comp ω (Option Value × τ)} {g : τ → Option Value × τ}
    (hpull : Comp.Answers pull g) (hplain : ∀ s, ∀ v ∈ (g s).1, v.Plain) (state : τ) :
    Restartable (.given pull state)

/-- A machine that hands out no cursors, and the same elements from the same state. -/
structure Machine.Steady (m : Machine ω τ Value) : Prop where
  hasNext : ∃ g, Comp.Answers m.hasNext g
  next : ∃ g, Comp.Answers m.next g ∧ ∀ s v, (g s).1 = .ok v → v.Plain

/-! ## Sequences -/

namespace Sequence

/-- A sequence whose cursors all start from the same place. -/
inductive Restartable : Sequence ω τ → Prop where
  | source {iterator : Iterator ω τ} (h : iterator.Restartable) : Restartable (.source iterator)
  | given {start : Comp ω τ} {machine : Machine ω τ Value} {state : τ}
    (hstart : Comp.Answers (fun _ : Unit => start) fun _ => state) (hmachine : machine.Steady) :
    Restartable (.given start machine)
  | cursors {of : List (Sequence ω τ)} (h : ∀ s ∈ of, Restartable s) : Restartable (.cursors of)
  | onStart {act : Comp ω Unit} {of : Sequence ω τ}
    (hact : Comp.Answers (fun _ : Unit => act) fun _ => ()) (h : Restartable of) :
    Restartable (.onStart act of)
  | map {f : Fn ω} {of : Sequence ω τ} (hf : f.IsPure) (h : Restartable of) :
    Restartable (.map f of)
  | each {act : Value → Comp ω Unit} {of : Sequence ω τ} (hact : Comp.Answers act fun _ => ())
    (h : Restartable of) : Restartable (.each act of)
  | filter {p : Test ω} {of : Sequence ω τ} (hp : p.IsPure) (h : Restartable of) :
    Restartable (.filter p of)
  | takeWhile {p : Test ω} {of : Sequence ω τ} (hp : p.IsPure) (h : Restartable of) :
    Restartable (.takeWhile p of)
  | dropWhile {p : Test ω} {of : Sequence ω τ} (hp : p.IsPure) (h : Restartable of) :
    Restartable (.dropWhile p of)
  | slice (win : Window) {of : Sequence ω τ} (h : Restartable of) : Restartable (.slice win of)
  | chain {a b : Sequence ω τ} (ha : Restartable a) (hb : Restartable b) : Restartable (.chain a b)
  | concat {of : Sequence ω τ} (h : Restartable of) : Restartable (.concat of)
  | replay (passes : Option Nat) {of : Sequence ω τ} (h : Restartable of) :
    Restartable (.replay passes of)
  | pairs {a b : Sequence ω τ} (ha : Restartable a) (hb : Restartable b) : Restartable (.pairs a b)
  | zip {of : Tuple (Sequence ω τ)} (h : ∀ s ∈ of.toList, Restartable s) : Restartable (.zip of)
  | zipAll {of : List (Sequence ω τ)} (h : ∀ s ∈ of, Restartable s) : Restartable (.zipAll of)
  | batch (size : Nat) (size_pos : 0 < size) {of : Sequence ω τ} (h : Restartable of) :
    Restartable (.batch size size_pos of)

/-! ## Combinators with callables of their own -/

section Combinators

variable {s a b : Sequence ω τ}

theorem Restartable.zip_pair (ha : a.Restartable) (hb : b.Restartable) :
    (Sequence.zip (.pair a b)).Restartable :=
  .zip (by simpa [Tuple.toList] using ⟨ha, hb⟩)

theorem Restartable.enumerate (hs : s.Restartable) : s.enumerate.Restartable :=
  .zip_pair (.source (.count 0 none)) hs

theorem Restartable.index {key : Fn ω} (hkey : key.IsPure) (hs : s.Restartable) :
    (s.index key).Restartable :=
  .zip_pair (.map hkey hs) hs

theorem Restartable.equate {compare : Value → Value → Comp ω Bool} {q : Value → Value → Bool}
    (hcompare : ∀ v, Comp.Answers (compare v) (q v)) (hq : Value.Uniform (comparedRow q))
    (ha : a.Restartable) (hb : b.Restartable) : (equate compare a b).Restartable := by
  -- with nothing watched, to answer is all that is asked of a comparison
  have hall : ∀ v, Comp.Computes (fun _ _ : ω => () = ()) (compare v) (q v) := fun v =>
    (hcompare v).mono fun _ _ _ => rfl
  have hrow : Comp.Computes (fun _ _ : ω => () = ()) (compareRow compare) (comparedRow q) :=
    computes_compareRow hall
  exact .map (.call (hrow.mono fun _ _ _ => trivial) hq) (.zip_pair ha hb)

theorem uniform_spread (k : Nat) : Value.Uniform fun v => .list (spread k v) := by
  intro r hr v v' hv
  rw [Value.alike_list]
  induction k generalizing v v' with
  | zero => exact .cons hv .nil
  | succ k ih =>
    cases Value.alike_iff_cases.mp hv with
    | cursor h => exact .cons hv .nil
    | flat hcursor hlist =>
      have hone : spread (k + 1) v = [v] := by cases v <;> simp_all [spread]
      rw [hone]
      exact .cons hv .nil
    | list hxs =>
      -- only a pair is taken apart
      obtain _ | ⟨hx, _ | ⟨hy, _ | _⟩⟩ := hxs
      · exact .cons hv .nil
      · exact .cons hv .nil
      · exact .cons hx (ih _ _ hy)
      · exact .cons hv .nil

theorem prependRow_of_ne {v : Value} (h : ∀ a row, v ≠ .list [a, .list row]) :
    prependRow v = v := by
  unfold prependRow
  split
  · next a row => exact absurd rfl (h a row)
  · rfl

theorem uniform_prependRow : Value.Uniform prependRow := by
  intro r hr v v' hv
  cases Value.alike_iff_cases.mp hv with
  | cursor h => exact hv
  | flat hcursor hlist =>
    rwa [prependRow_of_ne fun a row => hlist [a, .list row]]
  | list hxs =>
    obtain _ | ⟨hx, _ | ⟨hy, _ | _⟩⟩ := hxs
    · exact hv
    · exact hv
    · cases Value.alike_iff_cases.mp hy with
      | cursor h => exact hv
      | list hrow => exact Value.alike_list.mpr (.cons hx hrow)
      | flat hcursor hlist =>
        rwa [prependRow_of_ne (by simp [hlist]), prependRow_of_ne (by simp [hlist])]
    · rwa [prependRow_of_ne (by simp), prependRow_of_ne (by simp)]

theorem restartable_nestedPairs {of : Tuple (Sequence ω τ)} (h : ∀ s ∈ of.toList, s.Restartable) :
    (nestedPairs of).Restartable := by
  induction of with
  | pair a b =>
    obtain ⟨ha, hb⟩ : a.Restartable ∧ b.Restartable := by simpa [Tuple.toList] using h
    exact .pairs ha hb
  | cons a rest ih =>
    obtain ⟨ha, hrest⟩ := List.forall_mem_cons.mp h
    exact .pairs ha (ih hrest)

theorem restartable_product {of : Tuple (Sequence ω τ)} (h : ∀ s ∈ of.toList, s.Restartable) :
    (product of).Restartable := by
  cases of with
  | pair a b => exact restartable_nestedPairs h
  | cons a rest =>
    exact .map (Fn.isPure_pure (uniform_spread rest.size)) (restartable_nestedPairs h)

theorem restartable_productOf {others : List (Sequence ω τ)}
    (h : ∀ s ∈ a :: b :: others, s.Restartable) : (productOf a b others).Restartable := by
  induction others generalizing a b with
  | nil =>
    obtain ⟨ha, hb⟩ : a.Restartable ∧ b.Restartable := by simpa using h
    exact .pairs ha hb
  | cons c others ih =>
    obtain ⟨ha, hrest⟩ := List.forall_mem_cons.mp h
    exact .map (Fn.isPure_pure uniform_prependRow) (.pairs ha (ih hrest))

theorem restartable_productAll? {of : List (Sequence ω τ)} (h : ∀ s ∈ of, s.Restartable)
    (hok : productAll? of = .ok s) : s.Restartable := by
  match of with
  | [] => cases hok
  | [_] => cases hok
  | a :: b :: others =>
    cases hok
    exact restartable_productOf h

end Combinators

end Sequence

end LazySeq
