import LazySeq.Cursor.Run
import LazySeq.Proofs.Sequence.Rows

/-!
# Pipelines

A pipeline is an expression over restartable finite sources: it describes a sequence
(`Pipeline.sequence`) and it has a meaning, which is a list (`Pipeline.meaning`). A new cursor on
the sequence answers every schedule of calls as the cursor over that list does
(`Pipeline.run_start`).

The callables of a pipeline are total functions of their arguments. They may act on the world of the
caller where it is not watched, and if nothing is watched, anywhere.
-/

namespace LazySeq

open LazySeq.Frame World

variable {ω τ υ α β : Type} {watch : ω → υ}

/-! ## Stages -/

/-- A callable that answers as `value` does, in every world. -/
structure Callable (watch : ω → υ) (α β : Type) where
  act : α → Comp ω β
  value : α → β
  computes : Comp.Computes (fun o o' => watch o' = watch o) act value

/-- A function as a callable that touches nothing. -/
def Callable.pure (watch : ω → υ) (f : α → β) : Callable watch α β where
  act a := Pure.pure (f a)
  value := f
  computes _ _ := Comp.returns_pure.mpr ⟨rfl, rfl⟩

/-- A callable as a test. -/
def Callable.test (p : Callable watch Value Bool) : Test ω := .call p.act

theorem Callable.decides (p : Callable watch Value Bool) : Test.Decides τ watch p.test p.value :=
  Test.decides_call p.computes

/-- A stage over one sequence. -/
inductive Stage (watch : ω → υ) where
  | map (f : Callable watch Value Value)
  | each (f : Callable watch Value Unit)
  | filter (p : Callable watch Value Bool)
  | reject (p : Callable watch Value Bool)
  | takeWhile (p : Callable watch Value Bool)
  | takeUntil (p : Callable watch Value Bool)
  | dropWhile (p : Callable watch Value Bool)
  | dropUntil (p : Callable watch Value Bool)
  | take (n : Nat)
  | drop (n : Nat)
  | rest
  | slice (win : Window)
  | enumerate
  /-- cut into batches and put together again -/
  | rebatch (size : Nat) (size_pos : 0 < size)

namespace Stage

/-- The stage over a sequence. -/
def apply : Stage watch → Sequence ω τ → Sequence ω τ
  | map f, s => s.map (.call f.act)
  | each f, s => s.each f.act
  | filter p, s => s.filter p.test
  | reject p, s => s.reject p.test
  | takeWhile p, s => s.takeWhile p.test
  | takeUntil p, s => s.takeUntil p.test
  | dropWhile p, s => s.dropWhile p.test
  | dropUntil p, s => s.dropUntil p.test
  | take n, s => s.take n
  | drop n, s => s.drop n
  | rest, s => s.rest
  | slice win, s => s.slice win
  | enumerate, s => s.enumerate
  | rebatch n hn, s => (s.batch n hn).concat

/-- What the stage makes of a list. -/
def meaning : Stage watch → List Value → List Value
  | map f, xs => xs.map f.value
  | each _, xs => xs
  | filter p, xs => xs.filter p.value
  | reject p, xs => xs.filter fun v => !p.value v
  | takeWhile p, xs => xs.takeWhile p.value
  | takeUntil p, xs => xs.takeWhile fun v => !p.value v
  | dropWhile p, xs => xs.dropWhile p.value
  | dropUntil p, xs => xs.dropWhile fun v => !p.value v
  | take n, xs => xs.take n
  | drop n, xs => xs.drop n
  | rest, xs => xs.tail
  | slice win, xs => win.of xs
  | enumerate, xs => Sequence.enumerated xs
  | rebatch _ _, xs => xs

theorem means {s : Sequence ω τ} {xs : List Value} (h : s.Means watch True xs) (st : Stage watch) :
    (st.apply s).Means watch True (st.meaning xs) := by
  cases st with
  | map f => exact h.map (Fn.maps_call f.computes)
  | each f => exact h.each f.computes
  | filter p => exact h.filter p.decides
  | reject p => exact h.filter (Test.decides_not p.decides)
  | takeWhile p => exact h.takeWhile p.decides
  | takeUntil p => exact h.takeWhile (Test.decides_not p.decides)
  | dropWhile p => exact h.dropWhile p.decides
  | dropUntil p => exact h.dropWhile (Test.decides_not p.decides)
  | take n => exact h.take n
  | drop n => exact h.drop n
  | rest =>
    show (s.drop 1).Means watch True xs.tail
    rw [← List.drop_one]
    exact h.drop 1
  | slice win => exact h.slice win fun _ => .inl trivial
  | enumerate => exact h.enumerate
  | rebatch n hn =>
    have hconcat := h.concat_batch hn []
    rw [Window.ofAll, List.foldl_nil, flatten_runs n] at hconcat
    exact hconcat

end Stage

/-! ## Expressions -/

/-- An expression over finite sources. -/
inductive Pipeline (τ : Type) (watch : ω → υ) where
  /-- every cursor walks the iterator from its beginning -/
  | source (it : Iterator ω τ) (xs : List Value) (brings : it.Brings watch True xs)
  | stage (st : Stage watch) (of : Pipeline τ watch)
  /-- the half of a partition that passes the test, or the one that fails it -/
  | half (passing : Bool) (p : Callable watch Value Bool) (of : Pipeline τ watch)
  | chain (a b : Pipeline τ watch)
  | repeated (passes : Nat) (of : Pipeline τ watch)
  /-- the first `n` elements of a cycle -/
  | takeCycle (n : Nat) (of : Pipeline τ watch)
  | zip (of : Tuple (Pipeline τ watch))
  | zipAll (a b : Pipeline τ watch) (others : List (Pipeline τ watch))
  | index (key : Callable watch Value Value) (of : Pipeline τ watch)
  | equate (compare : Callable watch (Value × Value) Bool) (a b : Pipeline τ watch)
  | product (of : Tuple (Pipeline τ watch))
  | productAll (a b : Pipeline τ watch) (others : List (Pipeline τ watch))
  /-- the batches that the windows select, the innermost window first, put together again -/
  | batches (size : Nat) (size_pos : 0 < size) (wins : List Window) (of : Pipeline τ watch)

namespace Pipeline

/-- A list as a source. -/
def ofList (watch : ω → υ) (xs : List Value) : Pipeline τ watch :=
  source (.list xs) xs (Iterator.brings_list watch xs)

mutual

/-- The sequence that the expression describes. -/
def sequence : Pipeline τ watch → Sequence ω τ
  | source it _ _ => .source it
  | stage st of => st.apply of.sequence
  | half true p of => (of.sequence.partition p.test).1
  | half false p of => (of.sequence.partition p.test).2
  | chain a b => .chain a.sequence b.sequence
  | repeated n of => .repeated n of.sequence
  | takeCycle n of => .take n (.cycle of.sequence)
  | zip of => .zip (sequenceTuple of)
  | zipAll a b others => .zipAll (a.sequence :: b.sequence :: sequenceAll others)
  | index key of => .index (.call key.act) of.sequence
  | equate compare a b => .equate (fun u v => compare.act (u, v)) a.sequence b.sequence
  | product of => .product (sequenceTuple of)
  | productAll a b others => .productOf a.sequence b.sequence (sequenceAll others)
  | batches n hn wins of => .concat (.windows wins (.batch n hn of.sequence))

def sequenceTuple : Tuple (Pipeline τ watch) → Tuple (Sequence ω τ)
  | .pair a b => .pair a.sequence b.sequence
  | .cons a others => .cons a.sequence (sequenceTuple others)

def sequenceAll : List (Pipeline τ watch) → List (Sequence ω τ)
  | [] => []
  | a :: others => a.sequence :: sequenceAll others

end

mutual

/-- What the expression means. -/
def meaning : Pipeline τ watch → List Value
  | source _ xs _ => xs
  | stage st of => st.meaning of.meaning
  | half true p of => of.meaning.filter p.value
  | half false p of => of.meaning.filter fun v => !p.value v
  | chain a b => a.meaning ++ b.meaning
  | repeated n of => (List.replicate n of.meaning).flatten
  | takeCycle n of => (List.replicate n of.meaning).flatten.take n
  | zip of => (rows (meaningTuple of)).map .list
  | zipAll a b others => (rows (a.meaning :: b.meaning :: meaningAll others)).map .list
  | index key of => of.meaning.map fun v => .list [key.value v, v]
  | equate compare a b => List.zipWith (fun u v => .bool (compare.value (u, v))) a.meaning b.meaning
  | product of => (Sequence.allRows (meaningTuple of)).map .list
  | productAll a b others =>
    (Sequence.allRows (a.meaning :: b.meaning :: meaningAll others)).map .list
  | batches n _ wins of => (Window.ofAll wins (runs n of.meaning)).flatten

def meaningTuple : Tuple (Pipeline τ watch) → List (List Value)
  | .pair a b => [a.meaning, b.meaning]
  | .cons a others => a.meaning :: meaningTuple others

def meaningAll : List (Pipeline τ watch) → List (List Value)
  | [] => []
  | a :: others => a.meaning :: meaningAll others

end

/-- The first elements of a cycle. Over nothing a cycle ends; else it goes on long enough. -/
theorem means_takeCycle {s : Sequence ω τ} {xs : List Value} (n : Nat)
    (h : s.Means watch True xs) :
    (s.cycle.take n).Means watch True ((List.replicate n xs).flatten.take n) := by
  rw [← Window.of_take]
  refine (h.cycle n).slice (.contiguous 0 (some n)) fun _ => ?_
  by_cases hxs : xs = []
  · exact .inl hxs
  · -- `n` passes over one element or more are `n` elements or more
    right
    refine ⟨n, rfl, ?_⟩
    rw [List.length_flatten, List.map_replicate, List.sum_replicate_nat]
    exact Nat.le_mul_of_pos_right n (List.length_pos_iff.mpr hxs)

mutual

-- on the expression; the parts of a tuple and of a list are walked along with it
theorem means : ∀ p : Pipeline τ watch, p.sequence.Means watch True p.meaning
  | source it xs brings => by
    rw [sequence, meaning]
    exact Sequence.means_source brings
  | stage st of => by
    rw [sequence, meaning]
    exact st.means (means of)
  | half true p of => by
    rw [sequence, meaning]
    exact (means of).filter p.decides
  | half false p of => by
    rw [sequence, meaning]
    exact (means of).filter (Test.decides_not p.decides)
  | chain a b => by
    rw [sequence, meaning]
    exact (means a).chain (means b)
  | repeated n of => by
    rw [sequence, meaning]
    exact (means of).repeated n
  | takeCycle n of => by
    rw [sequence, meaning]
    exact means_takeCycle n (means of)
  | zip of => by
    rw [sequence, meaning]
    exact .zip (meansTuple of)
  | zipAll a b others => by
    rw [sequence, meaning]
    exact .zipAll (List.cons_ne_nil _ _) (.cons (means a) (.cons (means b) (meansAll others)))
  | index key of => by
    rw [sequence, meaning]
    exact (means of).index (Fn.maps_call key.computes)
  | equate compare a b => by
    rw [sequence, meaning]
    exact (means a).equate (fun u v => compare.computes (u, v)) (means b)
  | product of => by
    rw [sequence, meaning]
    exact .product (meansTuple of)
  | productAll a b others => by
    rw [sequence, meaning]
    exact (means a).productOf (means b) (meansAll others)
  | batches n hn wins of => by
    rw [sequence, meaning]
    exact (means of).concat_batch hn wins

theorem meansTuple : ∀ ps : Tuple (Pipeline τ watch),
    Sequence.MeanAll watch (sequenceTuple ps).toList (meaningTuple ps)
  | .pair a b => by
    rw [sequenceTuple, meaningTuple]
    exact .cons (means a) (.cons (means b) .nil)
  | .cons a others => by
    rw [sequenceTuple, meaningTuple]
    exact .cons (means a) (meansTuple others)

theorem meansAll : ∀ ps : List (Pipeline τ watch),
    Sequence.MeanAll watch (sequenceAll ps) (meaningAll ps)
  | [] => by
    rw [sequenceAll, meaningAll]
    exact .nil
  | a :: others => by
    rw [sequenceAll, meaningAll]
    exact .cons (means a) (meansAll others)

end

/-- A new cursor on a pipeline, in any world, answers every schedule of calls as the cursor over the
meaning of the pipeline. So what it hands out depends on how often it is asked for an element, and
not on where it is asked whether more is left. -/
theorem run_start (p : Pipeline τ watch) : ∃ N, ∀ extra (asks : List Ask) (w : World ω τ),
    (do (Cursor.machine (N + extra)).run asks (← p.sequence.start)).Returns w fun r _ =>
      r.1 = ListCursor.run asks p.meaning ∧
        Reply.items r.1 = p.meaning.take (asks.count Ask.next) := by
  obtain ⟨N, hstart⟩ := p.means
  refine ⟨N, fun extra asks w => ?_⟩
  refine (hstart w).bind ?_
  intro c w' hc
  -- what is left is known to its end, so no call of the schedule is asked beyond what is known
  have hsupplies : (frame τ watch).Supplies True Machine.Exactly (Cursor.machine (N + extra))
      (Cursor.HasLeft watch True N) := Cursor.supplies_hasLeft (Nat.le_add_right N extra)
  refine ((hsupplies.after Region.none w).run (fun _ _ _ _ _ => trivial) hc).mono ?_
  intro r w'' ⟨hr, _⟩
  exact ⟨hr, by rw [hr, ListCursor.items_run]⟩

/-- Five elements of a cycle over two, with their positions. -/
example : (stage .enumerate (takeCycle 5 (ofList (τ := Unit) (fun w : Unit => w)
    [.int 1, .int 2]))).meaning =
      [.list [.int 0, .int 1], .list [.int 1, .int 2], .list [.int 2, .int 1],
        .list [.int 3, .int 2], .list [.int 4, .int 1]] := rfl

end Pipeline

end LazySeq
