import LazySeq.Cursor.Start
import LazySeq.Proofs.Cursor.Concat
import LazySeq.Proofs.Stage.Peek
import LazySeq.Sequence.Combinators
import Mathlib.Data.List.Forall2

/-!
# What a sequence means

A sequence means `xs` if every cursor started on it has `xs` left (`Sequence.Means`). There is one
lemma for every way to put sequences together, which says what the whole means, by what its parts
mean. None of them looks at a call: what is left of a cursor is known from `Cursor.HasLeft`.

A sequence that goes on for ever means any list that it begins with. Its end is not known then,
which is what `ends` is for.
-/

namespace LazySeq

open LazySeq.Frame World

variable {ω τ υ : Type} {watch : ω → υ} {ends ends' : Prop} {F : (frame τ watch).Region}
variable {w w' : World ω τ} {xs ys : List Value}

/-! ## Iterators -/

/-- The iterator brings `xs`, an element a pull, and then nothing if `ends` holds. What it does to
the world of the caller is not watched. -/
def Iterator.Brings (watch : ω → υ) (ends : Prop) : List Value → Iterator ω τ → Prop
  | [], it => ends → ∀ o, it.pull.Returns o fun r o' => r.1 = none ∧ watch o' = watch o
  | v :: xs, it => ∀ o, it.pull.Returns o fun r o' =>
    (r.1 = some v ∧ Brings watch ends xs r.2) ∧ watch o' = watch o

theorem Iterator.brings_list (watch : ω → υ) (xs : List Value) :
    (Iterator.list xs : Iterator ω τ).Brings watch True xs := by
  induction xs with
  | nil => exact fun _ o => Comp.returns_pure.mpr ⟨rfl, rfl⟩
  | cons v xs ih => exact fun o => Comp.returns_pure.mpr ⟨⟨rfl, ih⟩, rfl⟩

/-- The integers from `n` on, `k` of them. -/
def integers (n : Int) (k : Nat) : List Value :=
  (List.range k).map fun i : Nat => .int (n + i)

theorem integers_succ (n : Int) (k : Nat) : integers n (k + 1) = .int n :: integers (n + 1) k := by
  rw [integers, integers, List.range_succ_eq_map, List.map_cons, List.map_map]
  congr 1
  · simp
  · refine List.map_congr_left fun i _ => ?_
    show Value.int (n + (i + 1 : Nat)) = Value.int (n + 1 + i)
    congr 1
    omega

theorem Iterator.brings_count (watch : ω → υ) (n : Int) (k : Nat) :
    (Iterator.count n none : Iterator ω τ).Brings watch False (integers n k) := by
  induction k generalizing n with
  | zero => exact False.elim
  | succ k ih =>
    rw [integers_succ]
    exact fun o => Comp.returns_pure.mpr ⟨⟨rfl, ih (n + 1)⟩, rfl⟩

namespace Cursor

/-- What a cursor on an iterator has left. It owns nothing. -/
def ReadingLeft (watch : ω → υ) (ends : Prop) :
    (frame τ watch).Account Value (Peeked (Iterator ω τ) Value) := fun xs p F w =>
  F = Region.none ∧ Machine.PeekLeft Machine.Exactly (fun xs _ it => it.Brings watch ends xs)
    (fun _ _ => True) xs w p

theorem keeps_readingLeft (xs : List Value) (p : Peeked (Iterator ω τ) Value) :
    (frame τ watch).Keeps (ReadingLeft watch ends xs p) := by
  obtain ⟨it, slot⟩ := p
  -- the iterator is no part of the world, so in every state of the slot this is a bare fact
  cases slot with
  | empty => exact keeps_none (P := it.Brings watch ends xs)
  | held v => exact keeps_none (P := ∃ a rest, xs = a :: rest ∧ v = a ∧ it.Brings watch ends rest)
  | closed => exact keeps_none (P := xs = [] ∧ True)

theorem after_readingLeft : After (ReadingLeft watch ends) F w =
    Machine.PeekLeft Machine.Exactly
      (fun xs w' it => (frame τ watch).Step F w Region.none w' ∧ it.Brings watch ends xs)
      fun w' _ => (frame τ watch).Step F w Region.none w' := by
  funext xs w' ⟨it, slot⟩
  refine propext ⟨?_, ?_⟩
  · intro ⟨F', hstep, hF', hp⟩
    subst hF'
    cases slot with
    | empty => exact ⟨hstep, hp⟩
    | held v =>
      obtain ⟨a, rest, hxs, hv, hit⟩ := hp
      exact ⟨a, rest, hxs, hv, hstep, hit⟩
    | closed => exact ⟨hp.1, hstep⟩
  · intro hp
    cases slot with
    | empty => exact ⟨Region.none, hp.1, rfl, hp.2⟩
    | held v =>
      obtain ⟨a, rest, hxs, hv, hstep, hit⟩ := hp
      exact ⟨Region.none, hstep, rfl, a, rest, hxs, hv, hit⟩
    | closed => exact ⟨Region.none, hp.2, rfl, hp.1, trivial⟩

theorem supplies_reading :
    (frame τ watch).Supplies ends Machine.Exactly Iterator.machine (ReadingLeft watch ends) := by
  refine .of_after keeps_readingLeft fun F w => ?_
  rw [after_readingLeft]
  -- a pull may act on the caller's world where it is not watched, which is a step of any owner
  refine Machine.Fetches.peek ⟨?_, ?_⟩
  · intro v xs w' it ⟨hstep, hit⟩
    refine (hit w'.outer).within.mono ?_
    rintro r w'' ⟨o, rfl, ⟨hr, hrest⟩, hwatch⟩
    exact ⟨⟨v, hr, rfl⟩, hstep.trans ((quiet_putOuter hwatch).step _), hrest⟩
  · intro w' it he ⟨hstep, hit⟩
    refine (hit he w'.outer).within.mono ?_
    rintro r w'' ⟨o, rfl, hr, hwatch⟩
    exact ⟨hr, hstep.trans ((quiet_putOuter hwatch).step _)⟩

theorem hasLeft_reading {it : Iterator ω τ} (h : it.Brings watch ends xs) :
    HasLeft watch ends 1 xs (.reading (.fresh it)) Region.none w :=
  hasLeft_of_stage .reading (fun _ _ => rfl) (fun _ _ => supplies_reading) ⟨rfl, h⟩

theorem Starts.mono {N N' : Nat} {s : Sequence ω τ} (hN : N ≤ N')
    (h : Starts watch ends N s xs) : Starts watch ends N' s xs := by
  intro w
  refine (h w).mono ?_
  intro c w' hc
  exact hc.mono fun F' h => HasLeft.mono hN h

/-- A stage over the cursor of one sequence. -/
theorem Starts.over {N N' : Nat} {s s' : Sequence ω τ} (wrap : Cursor ω τ → Cursor ω τ)
    (hs : Starts watch ends N s xs) (hstart : s'.start = do return wrap (← s.start))
    (hwrap : ∀ c F w, HasLeft watch ends N xs c F w → HasLeft watch ends' N' ys (wrap c) F w) :
    Starts watch ends' N' s' ys := by
  intro w
  rw [hstart]
  refine (hs w).bind ?_
  intro c w' hc
  exact Comp.returns_pure.mpr (hc.mono fun F' h => hwrap c F' w' h)

end Cursor

namespace Sequence

variable {s t : Sequence ω τ}

/-- Every cursor on the sequence has `xs` left, known to its end if `ends` holds. -/
def Means (watch : ω → υ) (ends : Prop) (s : Sequence ω τ) (xs : List Value) : Prop :=
  ∃ N, Cursor.Starts watch ends N s xs

/-! ## Sources -/

theorem means_source {it : Iterator ω τ} (h : it.Brings watch ends xs) :
    (source it).Means watch ends xs :=
  ⟨1, fun _ => Comp.returns_pure.mpr (.refl (Cursor.hasLeft_reading h))⟩

/-! ## Stages over one sequence -/

theorem Means.map {f : Fn ω} {g : Value → Value} (hf : Fn.Maps τ watch f g)
    (h : s.Means watch ends xs) : (s.map f).Means watch ends (xs.map g) := by
  obtain ⟨N, hs⟩ := h
  exact ⟨_, hs.over (.map f) rfl fun _ _ _ hc => hc.map hf⟩

theorem Means.each {act : Value → Comp ω Unit}
    (hact : Comp.Computes (fun o o' => watch o' = watch o) act fun _ => ())
    (h : s.Means watch ends xs) : (s.each act).Means watch ends xs := by
  obtain ⟨N, hs⟩ := h
  exact ⟨_, hs.over (.each act) rfl fun _ _ _ hc => hc.each hact⟩

theorem Means.filter {p : Test ω} {q : Value → Bool} (hp : Test.Decides τ watch p q)
    (h : s.Means watch ends xs) : (s.filter p).Means watch ends (xs.filter q) := by
  obtain ⟨N, hs⟩ := h
  exact ⟨_, hs.over (fun c => .filter p (.fresh c)) rfl fun _ _ _ hc => hc.filter hp⟩

theorem Means.takeWhile {p : Test ω} {q : Value → Bool} (hp : Test.Decides τ watch p q)
    (h : s.Means watch ends xs) : (s.takeWhile p).Means watch ends (xs.takeWhile q) := by
  obtain ⟨N, hs⟩ := h
  exact ⟨_, hs.over (fun c => .takeWhile p (.fresh c)) rfl
    fun _ _ _ hc => hc.takeWhile hp⟩

theorem Means.dropWhile {p : Test ω} {q : Value → Bool} (hp : Test.Decides τ watch p q)
    (h : s.Means watch ends xs) : (s.dropWhile p).Means watch ends (xs.dropWhile q) := by
  obtain ⟨N, hs⟩ := h
  exact ⟨_, hs.over (fun c => .dropWhile p (.fresh ⟨c, true⟩)) rfl
    fun _ _ _ hc => hc.dropWhile hp⟩

theorem Means.slice (win : Window)
    (hends : ends' → ends ∨ ∃ stop, win.stop = some stop ∧ stop ≤ xs.length)
    (h : s.Means watch ends xs) : (s.slice win).Means watch ends' (win.of xs) := by
  obtain ⟨N, hs⟩ := h
  exact ⟨_, hs.over (fun c => .slice win (.fresh ⟨c, 0⟩)) rfl
    fun _ _ _ hc => hc.slice hends⟩

theorem Means.take (n : Nat) (h : s.Means watch True xs) :
    (s.take n).Means watch True (xs.take n) := by
  rw [← Window.of_take]
  exact h.slice _ fun _ => .inl trivial

theorem Means.drop (n : Nat) (h : s.Means watch True xs) :
    (s.drop n).Means watch True (xs.drop n) := by
  rw [← Window.of_drop]
  exact h.slice _ fun _ => .inl trivial

/-! ## Going round -/

theorem Means.replay {passes : Option Nat} (h : s.Means watch True xs)
    (hys : PassesLeft ends xs passes ys) : (s.replay passes).Means watch ends ys := by
  obtain ⟨N, hs⟩ := h
  refine ⟨N + 1, fun w => ?_⟩
  show (return Cursor.replay s (.fresh passes) : Comp (World ω τ) _).Returns w _
  exact Comp.returns_pure.mpr (.refl (Cursor.hasLeft_replay hs hys))

theorem Means.repeated (n : Nat) (h : s.Means watch True xs) :
    (s.repeated n).Means watch True (List.replicate n xs).flatten := by
  refine h.replay ⟨n, rfl, fun m hm => Option.some.inj hm, fun hnone => ?_⟩
  cases hnone

/-- A cycle means any number of passes. It comes to an end if there is nothing to walk. -/
theorem Means.cycle (n : Nat) (h : s.Means watch True xs) :
    s.cycle.Means watch (xs = []) (List.replicate n xs).flatten := by
  refine h.replay ⟨n, rfl, fun m hm => ?_, fun _ hnil => hnil⟩
  cases hm

/-! ## One after the other -/

theorem Means.chain (hs : s.Means watch True xs) (ht : t.Means watch ends ys) :
    (s.chain t).Means watch ends (xs ++ ys) := by
  obtain ⟨N, hs⟩ := hs
  obtain ⟨N', ht⟩ := ht
  have hs := hs.mono (Nat.le_max_left N N')
  have ht := ht.mono (Nat.le_max_right N N')
  refine ⟨max N N' + 1, fun w => ?_⟩
  show (do return Cursor.chain (.first (← s.start) (← t.start)) : Comp (World ω τ) _).Returns w _
  refine (hs w).bind ?_
  intro c w' hc
  -- the second cursor is built from nothing, so what the first one owns stays as it is
  refine (ht w').bind ?_
  intro d w'' hd
  refine Comp.returns_pure.mpr (Reaches.mono ?_ fun _ => Cursor.HasLeft.chain)
  exact .beside (Cursor.keeps_hasLeft xs c) hc hd

/-- Windows laid over a sequence, the innermost first. -/
def windows (wins : List Window) (s : Sequence ω τ) : Sequence ω τ :=
  wins.foldl (fun s win => s.slice win) s

theorem start_windows (wins : List Window) (s : Sequence ω τ) :
    (s.windows wins).start = do return Cursor.windows wins (← s.start) := by
  induction wins generalizing s with
  | nil => exact (bind_pure s.start).symm
  | cons win wins ih =>
    show ((s.slice win).windows wins).start = _
    rw [ih]
    show (do
      let c ← (do return Cursor.slice win (.fresh ⟨← s.start, 0⟩))
      return Cursor.windows wins c : Comp (World ω τ) _) = _
    rw [bind_assoc]
    rfl

/-- Starting a concatenation of batches starts the cursor that is cut and makes it a reader. -/
theorem start_concat_batch {n : Nat} (hn : 0 < n) (wins : List Window) (s : Sequence ω τ) :
    ((s.batch n hn).windows wins).concat.start = do
      let r ← adoptReader (← s.start)
      return .concat ⟨Cursor.windows wins (.batches n r), none⟩ := by
  show (do return Cursor.concat ⟨← ((s.batch n hn).windows wins).start, none⟩ :
    Comp (World ω τ) _) = _
  rw [start_windows]
  show (do
    let c ← (do return Cursor.windows wins (← (do
      return Cursor.batches n (← adoptReader (← s.start)))))
    return Cursor.concat ⟨c, none⟩ : Comp (World ω τ) _) = _
  simp only [bind_assoc, pure_bind]

theorem Means.concat_batch {n : Nat} (hn : 0 < n) (wins : List Window)
    (h : s.Means watch True xs) :
    ((s.batch n hn).windows wins).concat.Means watch True
      (Window.ofAll wins (runs n xs)).flatten := by
  obtain ⟨N, hs⟩ := h
  refine ⟨max N xs.length + wins.length + 3, fun w => ?_⟩
  rw [start_concat_batch]
  refine (hs w).bind ?_
  intro c w' ⟨F, hstep, hc⟩
  -- the reader is a new place, beside what the cursor that is cut owns
  refine (adoptReader_returns (Cursor.keeps_hasLeft xs c) hc).bind ?_
  intro r w'' hr
  exact Comp.returns_pure.mpr ((hr.mono fun _ => Cursor.hasLeft_concat hn wins).trans hstep)

end Sequence

end LazySeq
