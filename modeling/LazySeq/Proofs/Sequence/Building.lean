import LazySeq.Proofs.Sequence.Opened
import LazySeq.Script.Expr

/-!
# Building an expression

Building looks at the arguments alone: `Expr.check` finds the first objection to an expression in
its shape, its sizes and the names that are bound, and `Expr.build` answers a sequence exactly when
there is none. All that building leaves behind are places for the iterators handed out once, and in
them the iterators as they were written (`Expr.parked`).

The sources that a start of the sequence then opens can be read off the expression
(`Expr.reached`).
-/

namespace LazySeq

variable {ω τ : Type}

/-- What can be held against an expression. -/
inductive Expr.Objection where
  /-- a combinator refuses its arguments -/
  | refusal (cause : Refusal)
  | unbound (name : String)

/-- The fault that an objection leads to. -/
def Expr.Objection.fault : Objection → Fault
  | refusal cause => .refused (.refused cause)
  | unbound name => .unbound name

/-! ## Combinators -/

namespace Combinator

/-- The objection to the arguments of a combinator. -/
def check : Combinator ω → Except Expr.Objection Unit
  | slice _ _ 0 => .error (.refusal .standingStep)
  | batch 0 => .error (.refusal .emptyBatch)
  | _ => .ok ()

/-- What a start opens with the combinator over a sequence, from what it opens on that sequence. -/
def reached : Combinator ω → List (Opening ω τ) → List (Opening ω τ)
  | index _, openings => openings ++ openings
  | enumerate, openings => .source (.count 0 none) :: openings
  | probe started _, openings => .probe started :: openings
  | cycle, _ => []
  | repeated _, _ => []
  | _, openings => openings

end Combinator

/-! ### Combinators over what is opened -/

namespace Sequence

theorem openings_zip_pair (a b : Sequence ω τ) :
    (Sequence.zip (.pair a b)).openings = a.openings ++ b.openings := by
  simp [openings, openingsTuple]

theorem openings_index (key : Fn ω) (s : Sequence ω τ) :
    (s.index key).openings = s.openings ++ s.openings := by
  rw [index, openings_zip_pair, openings]

theorem openings_enumerate (s : Sequence ω τ) :
    s.enumerate.openings = .source (.count 0 none) :: s.openings := by
  rw [enumerate, openings_zip_pair, openings, List.singleton_append]

theorem openings_equate (compare : Value → Value → Comp ω Bool) (a b : Sequence ω τ) :
    (equate compare a b).openings = a.openings ++ b.openings := by
  rw [equate, openings, openings_zip_pair]

/-- A product opens its first sequence; the others wait for a row. -/
theorem openings_product (of : Tuple (Sequence ω τ)) :
    (product of).openings = (openingsTuple of).headD [] := by
  cases of <;> simp [product, openings, openingsTuple]

theorem openings_productOf (a b : Sequence ω τ) (others : List (Sequence ω τ)) :
    (productOf a b others).openings = a.openings := by
  cases others <;> simp [productOf, openings]

end Sequence

/-! ## Expressions -/

namespace Expr

/-- The objection to fewer than two operands. -/
def checkLength (refusal : Nat → Refusal) (n : Nat) : Except Objection Unit :=
  if n < 2 then .error (.refusal (refusal n)) else .ok ()

mutual

/-- The first objection to an expression, from its parts to the whole and from left to right. -/
def check : Expr ω τ → List String → Except Objection Unit
  | named name, bound => if name ∈ bound then .ok () else .error (.unbound name)
  | source _, _ | once _, _ | given _ _, _ => .ok ()
  | cursors of, bound => checkList of bound
  | apply combinator of, bound => do
    of.check bound
    combinator.check
  | chain a b, bound | equate _ a b, bound => do
    a.check bound
    b.check bound
  | zip of, bound | product of, bound => checkTuple of bound
  | zipAny of, bound => checkList of bound
  | zipAll of, bound => do
    checkList of bound
    checkLength .fewToZip of.length
  | productAll of, bound => do
    checkList of bound
    checkLength .fewToMultiply of.length
  | pipe of stages times, bound => do
    of.check bound
    if times = 0 then .ok () else checkList stages (soFar :: bound)

/-- The first objection to a tuple of expressions. -/
def checkTuple : Tuple (Expr ω τ) → List String → Except Objection Unit
  | .pair a b, bound => do
    a.check bound
    b.check bound
  | .cons a others, bound => do
    a.check bound
    checkTuple others bound

/-- The first objection to a list of expressions. -/
def checkList : List (Expr ω τ) → List String → Except Objection Unit
  | [], _ => .ok ()
  | a :: others, bound => do
    a.check bound
    checkList others bound

end

mutual

/-- The iterators that get a place of their own, in order. -/
def parked : Expr ω τ → List (Iterator ω τ)
  | named _ | source _ | given _ _ => []
  | once iterator => [iterator]
  | apply _ of => of.parked
  | chain a b | equate _ a b => a.parked ++ b.parked
  | zip of | product of => parkedTuple of
  | cursors of | zipAll of | zipAny of | productAll of => parkedList of
  | pipe of stages times => of.parked ++ (List.replicate times (parkedList stages)).flatten

/-- The iterators of a tuple of expressions that get a place of their own. -/
def parkedTuple : Tuple (Expr ω τ) → List (Iterator ω τ)
  | .pair a b => a.parked ++ b.parked
  | .cons a others => a.parked ++ parkedTuple others

/-- The iterators of a list of expressions that get a place of their own. -/
def parkedList : List (Expr ω τ) → List (Iterator ω τ)
  | [] => []
  | a :: others => a.parked ++ parkedList others

end

/-- What a start opens on the sequences built earlier, by name. -/
abbrev Known (ω τ : Type) := List (String × List (Opening ω τ))

/-- What is reached after a round of stages is reached by the next round, which finds the places of
the round before taken. -/
def rounds (stages : List (Opening ω τ) → Nat → List (Opening ω τ)) (taken : Nat) :
    Nat → List (Opening ω τ) → Nat → List (Opening ω τ)
  | 0, openings, _ => openings
  | times + 1, openings, n => rounds stages taken times (stages openings n) (n + taken)

mutual

/-- The sources that a start reaches: all that occur in the expression, from left to right, but
those under a cycle, those that a product walks anew for every row and those whose cursors are
handed out as elements. Iterators handed out once are told by their places, of which `n` were there
before. -/
def reached : Expr ω τ → Known ω τ → Nat → List (Opening ω τ)
  | named name, known, _ => (known.lookup name).getD []
  | source iterator, _, _ => [.source iterator]
  | once _, _, n => [.once n]
  | given begin machine, _, _ => [.given begin machine]
  | cursors _, _, _ => []
  | apply combinator of, known, n => combinator.reached (of.reached known n)
  | chain a b, known, n | equate _ a b, known, n =>
    a.reached known n ++ b.reached known (n + a.parked.length)
  | zip of, known, n => (reachedTuple of known n).flatten
  | zipAll of, known, n | zipAny of, known, n => (reachedList of known n).flatten
  | product of, known, n => (reachedTuple of known n).headD []
  | productAll of, known, n => (reachedList of known n).headD []
  | pipe of stages times, known, n =>
    rounds (reachedStages stages known) (parkedList stages).length times (of.reached known n)
      (n + of.parked.length)

/-- The sources reached in each expression of a tuple. -/
def reachedTuple : Tuple (Expr ω τ) → Known ω τ → Nat → List (List (Opening ω τ))
  | .pair a b, known, n => [a.reached known n, b.reached known (n + a.parked.length)]
  | .cons a others, known, n =>
    a.reached known n :: reachedTuple others known (n + a.parked.length)

/-- The sources reached in each expression of a list. -/
def reachedList : List (Expr ω τ) → Known ω τ → Nat → List (List (Opening ω τ))
  | [], _, _ => []
  | a :: others, known, n =>
    a.reached known n :: reachedList others known (n + a.parked.length)

/-- The sources reached after the stages of a pipe, from those reached in the sequence so far. -/
def reachedStages : List (Expr ω τ) → Known ω τ → List (Opening ω τ) → Nat → List (Opening ω τ)
  | [], _, openings, _ => openings
  | stage :: stages, known, openings, n =>
    reachedStages stages known (stage.reached ((soFar, openings) :: known) n)
      (n + stage.parked.length)

end

/-! ## What is built -/

/-- What can be started on the sequences built earlier. -/
def Names.known (names : Names ω τ) : Known ω τ :=
  names.map fun p => (p.1, p.2.openings)

/-- The names of the sequences built earlier. -/
def Names.bound (names : Names ω τ) : List String :=
  names.map Prod.fst

theorem Names.lookup_known (names : Names ω τ) (name : String) :
    names.known.lookup name = (names.lookup name).map Sequence.openings := by
  induction names with
  | nil => rfl
  | cons p names ih =>
    rw [Names.known, List.map_cons, List.lookup_cons, List.lookup_cons]
    cases name == p.1 with
    | true => rfl
    | false => exact ih

theorem Names.mem_bound {names : Names ω τ} {name : String} :
    name ∈ names.bound ↔ (names.lookup name).isSome := by
  rw [Names.bound, List.mem_map, List.lookup_isSome_iff]
  simp only [beq_iff_eq, eq_comm (a := name)]

/-- The places with these iterators behind them, unread. -/
def park (places : Array (Option (Iterator ω τ))) (iterators : List (Iterator ω τ)) :
    Array (Option (Iterator ω τ)) :=
  places ++ (iterators.map some).toArray

@[simp]
theorem size_park (places : Array (Option (Iterator ω τ))) (iterators : List (Iterator ω τ)) :
    (park places iterators).size = places.size + iterators.length := by
  simp [park]

theorem park_nil (places : Array (Option (Iterator ω τ))) : park places [] = places := by
  simp [park]

theorem park_park (places : Array (Option (Iterator ω τ))) (xs ys : List (Iterator ω τ)) :
    park (park places xs) ys = park places (xs ++ ys) := by
  simp [park]

/-- `act` is refused if the check objects; if not, it answers something with `Q`, and the iterators
are parked behind those that were there before. -/
def Builds {α : Type} (act : Build ω τ α) (places : Array (Option (Iterator ω τ)))
    (check : Except Objection Unit) (parked : List (Iterator ω τ)) (Q : α → Prop) : Prop :=
  match check with
  | .error objection => act.run places = .error objection.fault
  | .ok () => ∃ a, act.run places = .ok (a, park places parked) ∧ Q a

variable {α β : Type} {act : Build ω τ α} {f : α → Build ω τ β}
  {places : Array (Option (Iterator ω τ))} {c d : Except Objection Unit}
  {parked parked' : List (Iterator ω τ)} {P Q : α → Prop} {R : β → Prop}

theorem builds_pure {a : α} (h : Q a) : Builds (pure a : Build ω τ α) places (.ok ()) [] Q := by
  refine ⟨a, ?_, h⟩
  rw [StateT.run_pure, park_nil]
  rfl

theorem Builds.bind (h : Builds act places c parked P)
    (hf : ∀ a, P a → Builds (f a) (park places parked) d parked' R) :
    Builds (act >>= f) places (do c; d) (parked ++ parked') R := by
  cases c with
  | error objection =>
    have hact : act.run places = .error objection.fault := h
    show (act >>= f).run places = .error objection.fault
    rw [StateT.run_bind, hact]
    rfl
  | ok =>
    obtain ⟨a, hact, hp⟩ := h
    have hrun : (act >>= f).run places = (f a).run (park places parked) := by
      rw [StateT.run_bind, hact]
      rfl
    have hnext := hf a hp
    cases d with
    | error objection => exact hrun.trans hnext
    | ok =>
      obtain ⟨b, hb, hr⟩ := hnext
      rw [park_park] at hb
      exact ⟨b, hrun.trans hb, hr⟩

/-- What is done to the answer looks at nothing and parks nothing. -/
theorem Builds.map {g : α → β} (h : Builds act places c parked P) (hg : ∀ a, P a → R (g a)) :
    Builds (do return g (← act)) places c parked R := by
  have hbind : Builds (do return g (← act)) places (do c; .ok ()) (parked ++ []) R :=
    h.bind fun a ha => builds_pure (hg a ha)
  rw [List.append_nil] at hbind
  cases c <;> exact hbind

/-- A combinator is refused for its own arguments, and otherwise reaches what it should. -/
theorem builds_applyTo? {s : Sequence ω τ} (combinator : Combinator ω) :
    Builds (accept (combinator.applyTo? s)) places combinator.check []
      fun t => t.openings = combinator.reached s.openings := by
  cases combinator with
  | index key => exact builds_pure (Sequence.openings_index key s)
  | enumerate => exact builds_pure (Sequence.openings_enumerate s)
  | partition p matching => cases matching <;> exact builds_pure rfl
  | slice start stop step =>
    cases step with
    | zero => rfl
    | succ step => exact builds_pure rfl
  | batch size =>
    cases size with
    | zero => rfl
    | succ size => exact builds_pure rfl
  | _ => exact builds_pure rfl

theorem builds_zipAll? (of : List (Sequence ω τ)) :
    Builds (accept (Sequence.zipAll? of)) places (checkLength .fewToZip of.length) []
      fun t => t.openings = (Sequence.openingsList of).flatten := by
  unfold Sequence.zipAll? checkLength
  by_cases h : of.length < 2
  · rw [if_pos h, if_pos h]
    rfl
  · rw [if_neg h, if_neg h]
    exact builds_pure (by rw [Sequence.openings])

theorem builds_productAll? (of : List (Sequence ω τ)) :
    Builds (accept (Sequence.productAll? of)) places (checkLength .fewToMultiply of.length) []
      fun t => t.openings = (Sequence.openingsList of).headD [] := by
  cases of with
  | nil => rfl
  | cons a others =>
    cases others with
    | nil => rfl
    | cons b others =>
      rw [checkLength, if_neg (by simp)]
      exact builds_pure (by
        rw [Sequence.openings_productOf, Sequence.openingsList, List.headD_cons])

/-- Round after round of stages: what is held against one is held against the first. -/
theorem builds_iterate {stages : Sequence ω τ → Build ω τ (Sequence ω τ)}
    {after : List (Opening ω τ) → Nat → List (Opening ω τ)}
    (h : ∀ s places, Builds (stages s) places c parked
      fun t => t.openings = after s.openings places.size) (times : Nat) (s : Sequence ω τ)
    (places : Array (Option (Iterator ω τ))) :
    Builds (iterate stages times s) places (if times = 0 then .ok () else c)
      (List.replicate times parked).flatten
      fun t => t.openings = rounds after parked.length times s.openings places.size := by
  induction times generalizing s places with
  | zero => exact builds_pure rfl
  | succ times ih =>
    have hrounds : Builds (iterate stages (times + 1) s) places
        (do c; if times = 0 then .ok () else c)
        (parked ++ (List.replicate times parked).flatten)
        fun t => t.openings = rounds after parked.length (times + 1) s.openings places.size := by
      refine (h s places).bind fun t ht => ?_
      simpa [rounds, ← ht] using ih t (park places parked)
    rw [if_neg times.succ_ne_zero, List.replicate_succ, List.flatten_cons]
    cases c with
    | error objection => exact hrounds
    | ok =>
      -- later rounds are checked as the first was, so the check of one round is the check of all
      cases times <;> exact hrounds

mutual

/-- What building an expression comes to. Operands are built from left to right, each with the
places of those before it taken, so the openings of an operand are read off with that many more. -/
theorem builds_build (names : Names ω τ) (places : Array (Option (Iterator ω τ))) :
    (e : Expr ω τ) → Builds (e.build names) places (e.check names.bound) e.parked
      fun s => s.openings = e.reached names.known places.size
  | named name => by
    rw [build, check, parked, reached, Names.lookup_known]
    by_cases h : name ∈ names.bound
    · obtain ⟨s, hs⟩ := Option.isSome_iff_exists.mp (Names.mem_bound.mp h)
      rw [if_pos h, hs]
      exact builds_pure rfl
    · have hnone := Option.not_isSome_iff_eq_none.mp (mt Names.mem_bound.mpr h)
      rw [if_neg h, hnone]
      rfl
  | source iterator => by
    rw [build, check, parked, reached]
    exact builds_pure rfl
  | once iterator => by
    rw [build, check, parked, reached]
    -- its place is the one behind all that were there
    exact ⟨_, rfl, rfl⟩
  | given begin machine => by
    rw [build, check, parked, reached]
    exact builds_pure rfl
  | cursors of => by
    rw [build, check, parked, reached]
    exact (builds_buildList names places of).map fun _ _ => rfl
  | apply combinator of => by
    rw [build, check, parked, reached, ← List.append_nil of.parked]
    refine (builds_build names places of).bind fun s hs => ?_
    rw [← hs]
    exact builds_applyTo? combinator
  | chain a b => by
    rw [build, check, parked, reached]
    refine (builds_build names places a).bind fun s hs => ?_
    refine (builds_build names _ b).map fun t ht => ?_
    rw [Sequence.openings, hs, ht]
    simp
  | equate compare a b => by
    rw [build, check, parked, reached]
    refine (builds_build names places a).bind fun s hs => ?_
    refine (builds_build names _ b).map fun t ht => ?_
    rw [Sequence.openings_equate, hs, ht]
    simp
  | zip of => by
    rw [build, check, parked, reached]
    refine (builds_buildTuple names places of).map fun t ht => ?_
    rw [Sequence.openings, ht]
  | zipAll of => by
    rw [build, check, parked, reached, ← List.append_nil (parkedList of)]
    refine (builds_buildList names places of).bind ?_
    rintro l ⟨hl, hlength⟩
    rw [← hlength, ← hl]
    exact builds_zipAll? l
  | zipAny of => by
    rw [build, check, parked, reached]
    refine (builds_buildList names places of).map fun t ht => ?_
    rw [Sequence.openings, ht.1]
  | product of => by
    rw [build, check, parked, reached]
    refine (builds_buildTuple names places of).map fun t ht => ?_
    rw [Sequence.openings_product, ht]
  | productAll of => by
    rw [build, check, parked, reached, ← List.append_nil (parkedList of)]
    refine (builds_buildList names places of).bind ?_
    rintro l ⟨hl, hlength⟩
    rw [← hlength, ← hl]
    exact builds_productAll? l
  | pipe of stages times => by
    rw [build, check, parked, reached]
    refine (builds_build names places of).bind fun s hs => ?_
    have hrounds := builds_iterate (fun s places => builds_buildStages names places s stages) times s
      (park places of.parked)
    simpa [hs] using hrounds

theorem builds_buildTuple (names : Names ω τ) (places : Array (Option (Iterator ω τ))) :
    (of : Tuple (Expr ω τ)) →
    Builds (buildTuple of names) places (checkTuple of names.bound) (parkedTuple of)
      fun t => Sequence.openingsTuple t = reachedTuple of names.known places.size
  | .pair a b => by
    rw [buildTuple, checkTuple, parkedTuple, reachedTuple]
    refine (builds_build names places a).bind fun s hs => ?_
    refine (builds_build names _ b).map fun t ht => ?_
    rw [Sequence.openingsTuple, hs, ht]
    simp
  | .cons a others => by
    rw [buildTuple, checkTuple, parkedTuple, reachedTuple]
    refine (builds_build names places a).bind fun s hs => ?_
    refine (builds_buildTuple names _ others).map fun t ht => ?_
    rw [Sequence.openingsTuple, hs, ht]
    simp

theorem builds_buildList (names : Names ω τ) (places : Array (Option (Iterator ω τ))) :
    (of : List (Expr ω τ)) →
    Builds (buildList of names) places (checkList of names.bound) (parkedList of)
      fun l => Sequence.openingsList l = reachedList of names.known places.size ∧
        l.length = of.length
  | [] => by
    rw [buildList, checkList, parkedList, reachedList]
    exact builds_pure ⟨rfl, rfl⟩
  | a :: others => by
    rw [buildList, checkList, parkedList, reachedList]
    refine (builds_build names places a).bind fun s hs => ?_
    refine (builds_buildList names _ others).map fun l hl => ?_
    rw [Sequence.openingsList, hs, hl.1, List.length_cons, List.length_cons, hl.2]
    simp

theorem builds_buildStages (names : Names ω τ) (places : Array (Option (Iterator ω τ)))
    (s : Sequence ω τ) :
    (stages : List (Expr ω τ)) →
    Builds (buildStages stages names s) places (checkList stages (soFar :: names.bound))
      (parkedList stages)
      fun t => t.openings = reachedStages stages names.known s.openings places.size
  | [] => by
    rw [buildStages, checkList, parkedList, reachedStages]
    exact builds_pure rfl
  | stage :: stages => by
    rw [buildStages, checkList, parkedList, reachedStages]
    refine (builds_build ((soFar, s) :: names) places stage).bind fun t ht => ?_
    have hopened : t.openings = stage.reached ((soFar, s.openings) :: names.known) places.size := ht
    rw [← hopened]
    simpa using builds_buildStages names (park places stage.parked) t stages

end

/-- Building is refused on account of the arguments alone, and else it answers a sequence, having
read nothing. Starting a cursor on the sequence then comes to opening the sources that are reached
in the expression, each as often as it is reached and in that order: whatever the callables, the
iterators and the cursors of the sources would do, none of them is called. -/
theorem build_opens (e : Expr ω τ) (names : Names ω τ)
    (places : Array (Option (Iterator ω τ))) :
    match e.check names.bound with
    | .error objection => (e.build names).run places = .error objection.fault
    | .ok () => ∃ s : Sequence ω τ,
      (e.build names).run places = .ok (s, park places e.parked) ∧
        s.OpensAs (e.reached names.known places.size) := by
  have hbuilt := builds_build names places e
  unfold Builds at hbuilt
  cases hcheck : e.check names.bound with
  | error objection =>
    rw [hcheck] at hbuilt
    exact hbuilt
  | ok =>
    rw [hcheck] at hbuilt
    obtain ⟨s, hrun, hopened⟩ := hbuilt
    rw [← hopened]
    exact ⟨s, hrun, s.opensAs_openings⟩

/-- An index opens its sequence twice, a product its first, and a cycle none. -/
example (a b c : Comp ω τ) (m : Machine ω τ Value) (key : Fn ω) :
    (chain (apply (.index key) (given a m))
      (product (.pair (given b m) (given c m)))).reached [] 0 =
        [.given a m, .given a m, .given b m] ∧
      (zip (.pair (apply .cycle (given a m)) (given b m))).reached [] 0 = [.given b m] :=
  ⟨rfl, rfl⟩

end Expr

end LazySeq
