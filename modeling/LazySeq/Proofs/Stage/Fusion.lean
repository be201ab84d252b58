import LazySeq.Proofs.Noted
import LazySeq.Proofs.Stage.Sieve

/-!
# Stacks of selecting stages are one stage

Filters over one another are one filter, whose tests are run in turn; and so are stages that take
while tests are passed, stages that take a number of elements, and stages that drop one. As every
call below and every test is noted in the world, the one stage makes the same calls and runs the same
tests on the same elements as the stack does, in the same order (`Pick.stacks_fuse`).

Two stages fuse if their sieves do (`Pick.fuses_of_within`), and a stack of any height is then
brought down to one stage from below (`Pick.stack_forth`, `Pick.stack_back`).
-/

namespace LazySeq

open Comparison

variable {ω ι α μ ν ξ : Type}

/-- A selecting stage. -/
inductive Pick (ω α : Type) where
  | filter (test : α → Comp ω Bool)
  | takeWhile (test : α → Comp ω Bool)
  | slice (win : Window)

namespace Pick

/-- The first `n` elements. -/
def take (n : Nat) : Pick ω α := slice (.contiguous 0 (some n))

/-- All but the first `n` elements. -/
def drop (n : Nat) : Pick ω α := slice (.contiguous n none)

/-- A walk of the stage over another. -/
def upon (fuel : Nat) : Pick ω α → Walk ω α → Walk ω α
  | filter test, w => ⟨_, w.machine.filter fuel test, .fresh w.state⟩
  | takeWhile test, w => ⟨_, w.machine.takeWhile test, .fresh w.state⟩
  | slice win, w => ⟨_, w.machine.slice fuel win, .fresh ⟨w.state, 0⟩⟩

/-- Stages one over the other, the first lowest. -/
def stack (fuel : Nat) (picks : List (Pick ω α)) (w : Walk ω α) : Walk ω α :=
  picks.foldl (fun w pick => pick.upon fuel w) w

variable {picks : List (Pick ω α)} {p q r : Pick ω α} {w w' : Walk ω α} {fuel fuel' : Nat}

theorem stack_concat (fuel : Nat) (picks : List (Pick ω α)) (p : Pick ω α) (w : Walk ω α) :
    stack fuel (picks ++ [p]) w = p.upon fuel (stack fuel picks w) :=
  List.foldl_concat ..

/-- Over walks that are repeated, so are those of a stage, with as much fuel or more. -/
theorem upon_repeatedBy (p : Pick ω α) (hfuel : fuel ≤ fuel') (h : w.RepeatedBy w') :
    (p.upon fuel w).RepeatedBy (p.upon fuel' w') := by
  obtain ⟨R, hstate, hmimics⟩ := h
  have htest (test : α → Comp ω Bool) : (same ω).Carries Rel.eq Rel.eq test test := by
    rintro b a _ rfl
    exact follows_same (test a)
  cases p with
  | filter test =>
    exact ⟨R.peeked Rel.eq, ⟨hstate, .empty⟩, hmimics.filter (htest test) hfuel⟩
  | takeWhile test =>
    exact ⟨R.peeked Rel.eq, ⟨hstate, .empty⟩, hmimics.takeWhile (htest test)⟩
  | slice win =>
    exact ⟨R.counted.peeked Rel.eq, ⟨⟨hstate, rfl⟩, .empty⟩, hmimics.slice win hfuel⟩

theorem stack_repeatedBy (picks : List (Pick ω α)) (hfuel : fuel ≤ fuel') (w : Walk ω α) :
    (stack fuel picks w).RepeatedBy (stack fuel' picks w) := by
  induction picks using List.reverseRecOn with
  | nil => exact .refl w
  | append_singleton picks p ih =>
    rw [stack_concat, stack_concat]
    exact p.upon_repeatedBy hfuel ih

/-- With some fuel, and no other way with any (`Answers.unique`), a stack replies like this and leaves
this world behind. -/
def Answers (picks : List (Pick ω α)) (w : Walk ω α) (asks : List Ask) (v : ω)
    (replies : List (Reply α)) (v' : ω) : Prop :=
  ∃ fuel, (stack fuel picks w).replies asks v = .ok replies v'

section Answers

variable {asks : List Ask} {v v₁ v₂ : ω} {replies replies' : List (Reply α)}

/-- There is always some fuel. -/
theorem answers_iff : Answers picks w asks v replies v₁ ↔
    ∃ n, (stack (n + 1) picks w).replies asks v = .ok replies v₁ := by
  constructor
  · rintro ⟨fuel, h⟩
    exact ⟨fuel, (stack_repeatedBy picks fuel.le_succ w).replies h⟩
  · rintro ⟨n, h⟩
    exact ⟨n + 1, h⟩

/-- How a stack replies, and what world it leaves behind, is not a matter of its fuel. -/
theorem Answers.unique (h : Answers picks w asks v replies v₁)
    (h' : Answers picks w asks v replies' v₂) : replies = replies' ∧ v₁ = v₂ := by
  obtain ⟨fuel, h⟩ := h
  obtain ⟨fuel', h'⟩ := h'
  have hrun := (stack_repeatedBy picks (Nat.le_max_left fuel fuel') w).replies h
  have hrun' := (stack_repeatedBy picks (Nat.le_max_right fuel fuel') w).replies h'
  exact EStateM.Result.ok.inj (hrun.symm.trans hrun')

end Answers

/-! ## Two stages -/

/-- A walk of the stage is one by the sieve. -/
def IsSieve (p : Pick ω α) (sv : Sieve ω α μ) : Prop :=
  ∀ n w, (sv.upon (n + 1) w).Agrees (p.upon (n + 1) w)

theorem filter_isSieve (test : α → Comp ω Bool) : (filter test).IsSieve (.byTest .skipped test) :=
  fun n _ => Walk.agrees_of_seenAs (Machine.seenAs_peek (Sieve.sift_byTest_skipped (n + 1))) rfl

theorem takeWhile_isSieve (test : α → Comp ω Bool) :
    (takeWhile test).IsSieve (.byTest .ends test) :=
  fun n _ => Walk.agrees_of_seenAs (Machine.seenAs_peek (Sieve.sift_byTest_ends n)) rfl

theorem slice_isSieve (win : Window) : (slice win : Pick ω α).IsSieve (.slice win) :=
  fun n _ => Walk.agrees_of_seenAs (Machine.seenAs_peek (Sieve.sift_slice win (n + 1))) rfl

/-- `q` over `p` is `r`. -/
structure Fuses (p q r : Pick ω α) : Prop where
  forth (j k : Nat) (w : Walk ω α) :
    ∃ n, (q.upon (j + 1) (p.upon (k + 1) w)).RepeatedBy (r.upon (n + 1) w)
  back (n : Nat) (w : Walk ω α) :
    (r.upon (n + 1) w).RepeatedBy (q.upon (n + 1) (p.upon (n + 1) w))

/-- It is if the sieve of `r` does what those of `p` and `q` do. -/
theorem fuses_of_within {c : Sieve ω α μ} {d : Sieve ω α ν} {e : Sieve ω α ξ} {g : ξ → μ × ν}
    (h : e.Within g (c.andThen d)) (hp : p.IsSieve c) (hq : q.IsSieve d) (hr : r.IsSieve e) :
    p.Fuses q r where
  forth j k w := by
    obtain ⟨n, hn⟩ := Nat.exists_eq_add_one.mpr (Nat.mul_pos j.succ_pos (k + 1).succ_pos)
    refine ⟨n, ?_⟩
    calc (q.upon (j + 1) (p.upon (k + 1) w)).RepeatedBy (q.upon (j + 1) (c.upon (k + 1) w)) :=
        q.upon_repeatedBy (Nat.le_refl _) (hp k w).back
      Walk.RepeatedBy _ (d.upon (j + 1) (c.upon (k + 1) w)) := (hq j _).back
      Walk.RepeatedBy _ ((c.andThen d).upon (n + 1) w) :=
        hn ▸ Sieve.upon_upon_repeatedBy c d (j + 1) (k + 1) w
      Walk.RepeatedBy _ (e.upon (n + 1) w) := (h.upon_agrees _ w).back
      Walk.RepeatedBy _ (r.upon (n + 1) w) := (hr n w).forth
  back n w :=
    calc (r.upon (n + 1) w).RepeatedBy (e.upon (n + 1) w) := (hr n w).back
      Walk.RepeatedBy _ ((c.andThen d).upon (n + 1) w) := (h.upon_agrees _ w).forth
      Walk.RepeatedBy _ (d.upon (n + 1) (c.upon (n + 1) w)) :=
        Sieve.andThen_upon_repeatedBy c d (n + 1) w
      Walk.RepeatedBy _ (q.upon (n + 1) (c.upon (n + 1) w)) := (hq n _).forth
      Walk.RepeatedBy _ (q.upon (n + 1) (p.upon (n + 1) w)) :=
        q.upon_repeatedBy (Nat.le_refl _) (hp n w).forth

/-- The second test is run on what passes the first. -/
def inTurn (first second : α → Comp ω Bool) (a : α) : Comp ω Bool := do
  if ← first a then second a else return false

/-- By two tests one over the other, or by both in turn. -/
theorem within_inTurn {failed : Fate} (hfailed : failed ≠ .kept) (p q : α → Comp ω Bool) :
    (Sieve.byTest failed (inTurn p q)).Within (fun k => (k, k))
      ((Sieve.byTest failed p).andThen (.byTest failed q)) := by
  refine ⟨rfl, fun _ => rfl, fun a k => ?_⟩
  rw [Sieve.andThen_judge]
  simp only [Sieve.byTest, inTurn, bind_assoc]
  refine bind_congr fun passed => ?_
  cases passed with
  | false =>
    cases failed with
    | kept => exact absurd rfl hfailed
    | skipped => rfl
    | ends => rfl
  | true => simp only [if_true, pure_bind]

theorem filter_fuses (p q : α → Comp ω Bool) :
    (filter p).Fuses (filter q) (filter (inTurn p q)) := by
  have hfailed : Fate.skipped ≠ .kept := nofun
  exact fuses_of_within (within_inTurn hfailed p q) (filter_isSieve p) (filter_isSieve q)
    (filter_isSieve _)

theorem takeWhile_fuses (p q : α → Comp ω Bool) :
    (takeWhile p).Fuses (takeWhile q) (takeWhile (inTurn p q)) := by
  have hfailed : Fate.ends ≠ .kept := nofun
  exact fuses_of_within (within_inTurn hfailed p q) (takeWhile_isSieve p) (takeWhile_isSieve q)
    (takeWhile_isSieve _)

theorem selects_contiguous (start i : Nat) (stop : Option Nat) :
    (Window.contiguous start stop).selects i = decide (start ≤ i) := by
  show (decide (start ≤ i) && (i - start) % 1 == 0) = decide (start ≤ i)
  rw [Nat.mod_one]
  exact Bool.and_true _

/-- Both have taken as many elements. -/
theorem take_fuses (m n : Nat) : (take m : Pick ω α).Fuses (take n) (take (min m n)) := by
  have hwithin : (Sieve.slice (.contiguous 0 (some (min m n))) : Sieve ω α Nat).Within
      (fun k => (k, k))
      ((Sieve.slice (.contiguous 0 (some m))).andThen (.slice (.contiguous 0 (some n)))) := by
    refine ⟨rfl, fun k => ?_, fun a k => ?_⟩
    · show (decide (m ≤ k) || decide (n ≤ k)) = decide (min m n ≤ k)
      rw [← Bool.decide_or, decide_eq_decide]
      omega
    · rw [Sieve.andThen_judge]
      simp [Sieve.slice, selects_contiguous]
  exact fuses_of_within hwithin (slice_isSieve _) (slice_isSieve _) (slice_isSieve _)

/-- The upper one has taken those that the lower one has not dropped. -/
theorem drop_fuses (m n : Nat) : (drop m : Pick ω α).Fuses (drop n) (drop (m + n)) := by
  have hwithin : (Sieve.slice (.contiguous (m + n) none) : Sieve ω α Nat).Within
      (fun k => (k, k - m))
      ((Sieve.slice (.contiguous m none)).andThen (.slice (.contiguous n none))) := by
    refine ⟨?_, fun k => rfl, fun a k => ?_⟩
    · simp [Sieve.slice, Sieve.andThen]
    · rw [Sieve.andThen_judge]
      simp only [Sieve.slice, selects_contiguous, pure_bind, decide_eq_true_eq]
      by_cases hm : m ≤ k
      · have hn : n ≤ k - m ↔ m + n ≤ k := by omega
        simp [hm, hn, show k + 1 - m = k - m + 1 by omega]
      · simp [hm, show ¬ m + n ≤ k by omega, show k - m = k + 1 - m by omega]
  exact fuses_of_within hwithin (slice_isSieve _) (slice_isSieve _) (slice_isSieve _)

/-! ## Stacks -/

section Stacks

variable {κ : Type} {pick : κ → Pick ω α} {fuse : κ → κ → κ}

/-- What a stack of stages that fuse does, a single stage does. -/
theorem stack_forth (h : ∀ a b, (pick a).Fuses (pick b) (pick (fuse a b))) (n : Nat) (a : κ)
    (above : List κ) (w : Walk ω α) :
    ∃ k, (stack (n + 1) ((a :: above).map pick) w).RepeatedBy
      (stack (k + 1) [pick (above.foldl fuse a)] w) := by
  induction above using List.reverseRecOn with
  | nil => exact ⟨n, .refl _⟩
  | append_singleton above b ih =>
    obtain ⟨k, ih⟩ := ih
    obtain ⟨k', hk⟩ := (h (above.foldl fuse a) b).forth n k w
    refine ⟨k', ?_⟩
    rw [← List.cons_append, List.map_append, List.map_singleton, stack_concat, List.foldl_concat]
    exact ((pick b).upon_repeatedBy (Nat.le_refl _) ih).trans hk

/-- And the other way round, with the same fuel at every stage. -/
theorem stack_back (h : ∀ a b, (pick a).Fuses (pick b) (pick (fuse a b))) (n : Nat) (a : κ)
    (above : List κ) (w : Walk ω α) :
    (stack (n + 1) [pick (above.foldl fuse a)] w).RepeatedBy
      (stack (n + 1) ((a :: above).map pick) w) := by
  induction above using List.reverseRecOn with
  | nil => exact .refl _
  | append_singleton above b ih =>
    rw [← List.cons_append, List.map_append, List.map_singleton, stack_concat, List.foldl_concat]
    exact ((h _ b).back n w).trans ((pick b).upon_repeatedBy (Nat.le_refl _) ih)

theorem answers_stack_iff (h : ∀ a b, (pick a).Fuses (pick b) (pick (fuse a b))) {a : κ}
    {above : List κ} {w : Walk ω α} {asks : List Ask} {v v' : ω} {replies : List (Reply α)} :
    Answers ((a :: above).map pick) w asks v replies v' ↔
      Answers [pick (above.foldl fuse a)] w asks v replies v' := by
  rw [answers_iff, answers_iff]
  constructor
  · rintro ⟨n, hrun⟩
    obtain ⟨k, hk⟩ := stack_forth h n a above w
    exact ⟨k, hk.replies hrun⟩
  · rintro ⟨n, hrun⟩
    exact ⟨n, (stack_back h n a above w).replies hrun⟩

end Stacks

end Pick

/-! ## With notes of all that is done -/

/-- What is done below a stack of selecting stages, and on the way up. -/
inductive Observed (ι α : Type) where
  /-- the cursor below was called -/
  | called (reply : Reply α)
  /-- the test named `i` was run -/
  | tested (i : ι) (a : α) (passed : Bool)

/-- The walk, with a note of every call. -/
def Walk.observed (w : Walk ω α) : Walk (Noted ω (Observed ι α)) α :=
  ⟨w.State, w.machine.noted .called, w.state⟩

/-- A test with its name, and whether elements are to pass it or to fail it. -/
structure Trial (ω ι α : Type) where
  name : ι
  test : α → Comp ω Bool
  negated : Bool

namespace Trial

/-- The test, with a note of every run. -/
def run (t : Trial ω ι α) (a : α) : Comp (Noted ω (Observed ι α)) Bool := do
  let passed ← (t.test a).noting (.tested t.name a)
  return passed ^^ t.negated

/-- The tests in turn, as long as the element stands them. -/
def runAll (t : Trial ω ι α) (ts : List (Trial ω ι α)) : α → Comp (Noted ω (Observed ι α)) Bool :=
  ts.foldl (fun test t => Pick.inTurn test t.run) t.run

end Trial

namespace Pick

/-- Over any walk: a stack of filters, with tests that are to be passed or failed, and the filter by
the tests in turn give the same replies to every schedule of calls, or none, and leave the same world
behind, so that the same calls were made and the same tests run, in the same order. So do a stack of
stages that take while tests are passed or failed and the one with the tests in turn; a stack that
takes numbers of elements and the stage that takes the least of them; and a stack that drops numbers
of elements and the stage that drops as many as all of them. -/
theorem stacks_fuse (w : Walk ω α) (t : Trial ω ι α) (ts : List (Trial ω ι α)) (n : Nat)
    (ns : List Nat) (asks : List Ask) (v v' : Noted ω (Observed ι α)) (replies : List (Reply α)) :
    (Answers ((t :: ts).map fun t => filter t.run) w.observed asks v replies v' ↔
        Answers [filter (t.runAll ts)] w.observed asks v replies v') ∧
      (Answers ((t :: ts).map fun t => takeWhile t.run) w.observed asks v replies v' ↔
        Answers [takeWhile (t.runAll ts)] w.observed asks v replies v') ∧
      (Answers ((n :: ns).map take) w.observed asks v replies v' ↔
        Answers [take (ns.foldl min n)] w.observed asks v replies v') ∧
      (Answers ((n :: ns).map drop) w.observed asks v replies v' ↔
        Answers [drop (ns.foldl (· + ·) n)] w.observed asks v replies v') := by
  have hall : t.runAll ts = (ts.map Trial.run).foldl inTurn t.run := by
    rw [Trial.runAll, List.foldl_map]
  have hfilter : (t :: ts).map (fun t => filter t.run) = (t.run :: ts.map Trial.run).map filter := by
    simp
  have htakeWhile :
      (t :: ts).map (fun t => takeWhile t.run) = (t.run :: ts.map Trial.run).map takeWhile := by
    simp
  rw [hall, hfilter, htakeWhile]
  exact ⟨answers_stack_iff filter_fuses, answers_stack_iff takeWhile_fuses,
    answers_stack_iff take_fuses, answers_stack_iff drop_fuses⟩

/-- Two filters are one, that runs the second test on what passes the first. -/
example (t u : Trial ω ι α) : t.runAll [u] = inTurn t.run u.run := rfl

end Pick

end LazySeq
