import LazySeq.Proofs.Demand.Draws
import Mathlib.Order.Bounds.Basic

/-!
# What a stack of stages demands

Stages are put one over the other on a single source. To hand out its first `k` elements the stack
takes from the source exactly the shortest beginning of which it makes `k` elements
(`Stage.demand_stack`), however often it is asked whether more is left.
-/

namespace LazySeq

open LazySeq.Frame World

variable {υ κ τ : Type}

namespace Sequence

variable {f : List Value → List Value} {all : List Value} {N : Nat}
variable {s : Sequence (Recorded υ Value × κ) τ}
variable {U : (watchedFrame υ κ τ).Account Value (Cursor (Recorded υ Value × κ) τ)}

/-! ## The stages -/

theorem Draws.map (h : s.Draws f all N U) {fn : Fn (Recorded υ Value × κ)} {g : Value → Value}
    (hfn : Fn.Maps τ Prod.fst fn g) :
    ∃ N V, (s.map fn).Draws (fun xs => (f xs).map g) all N V :=
  h.linear (fun _ _ hxs => hxs.map g) id rfl (fun _ _ => rfl)
    (fun n hn => (h.supplies n hn).map_exactly (hfn n _)) (backed_map g)
    fun hc => ⟨_, hc, rfl⟩

theorem Draws.each (h : s.Draws f all N U) {act : Value → Comp (Recorded υ Value × κ) Unit}
    (hact : Comp.Computes (fun o o' => Prod.fst o' = Prod.fst o) act fun _ => ()) :
    ∃ N V, (s.each act).Draws f all N V := by
  have hid : (fun xs => (f xs).map id) = f := funext fun xs => List.map_id (f xs)
  have heach : ∃ N V, (s.each act).Draws (fun xs => (f xs).map id) all N V :=
    h.linear (fun _ _ hxs => hxs.map id) id rfl (fun _ _ => rfl)
      (fun n hn => (h.supplies n hn).each (computes_onOuter hact)) (backed_map id)
      fun hc => ⟨_, hc, rfl⟩
  rw [hid] at heach
  exact heach

theorem Draws.filter (h : s.Draws f all N U) {p : Test (Recorded υ Value × κ)} {q : Value → Bool}
    (hp : Test.Decides τ Prod.fst p q) :
    ∃ N V, (s.filter p).Draws (fun xs => (f xs).filter q) all N V := by
  refine h.linear (fun _ _ hxs => hxs.filter q) Peeked.fresh rfl (fun _ _ => rfl)
    (fun n (hn : max N ((f all).length + 1) ≤ n) => ?_) backed_filter filterLeft_fresh
  exact (h.supplies n (by omega)).filter (hp _) (by omega)

theorem Draws.takeWhile (h : s.Draws f all N U) {p : Test (Recorded υ Value × κ)}
    {q : Value → Bool} (hp : Test.Decides τ Prod.fst p q) :
    ∃ N V, (s.takeWhile p).Draws (fun xs => (f xs).takeWhile q) all N V := by
  refine h.linear (grows_takeWhile q) Peeked.fresh rfl (fun _ _ => rfl)
    (fun n (hn : N ≤ n) => ?_) backed_takeWhile takeWhileLeft_fresh
  exact (h.supplies n hn).takeWhile (hp _)

theorem Draws.dropWhile (h : s.Draws f all N U) {p : Test (Recorded υ Value × κ)}
    {q : Value → Bool} (hp : Test.Decides τ Prod.fst p q) :
    ∃ N V, (s.dropWhile p).Draws (fun xs => (f xs).dropWhile q) all N V := by
  refine h.linear (grows_dropWhile q) (fun c => .fresh ⟨c, true⟩) rfl (fun _ _ => rfl)
    (fun n (hn : max N ((f all).length + 1) ≤ n) => ?_) backed_dropWhile dropWhileLeft_fresh
  exact (h.supplies n (by omega)).dropWhile (hp _) (by omega)

theorem Draws.slice (h : s.Draws f all N U) (win : Window) :
    ∃ N V, (s.slice win).Draws (fun xs => win.of (f xs)) all N V := by
  refine h.linear (grows_window win) (fun c => .fresh ⟨c, 0⟩) rfl (fun _ _ => rfl)
    (fun n (hn : max N ((f all).length + 1) ≤ n) => ?_) (backed_slice win) sliceLeft_fresh
  exact ((h.supplies n (by omega)).slice (fun _ hb => hb) (by omega)).weaken False.elim

theorem Draws.take (h : s.Draws f all N U) (n : Nat) :
    ∃ N V, (s.take n).Draws (fun xs => (f xs).take n) all N V := by
  have hslice := h.slice (.contiguous 0 (some n))
  simp only [Window.of_take] at hslice
  exact hslice

theorem Draws.drop (h : s.Draws f all N U) (n : Nat) :
    ∃ N V, (s.drop n).Draws (fun xs => (f xs).drop n) all N V := by
  have hslice := h.slice (.contiguous n none)
  simp only [Window.of_drop] at hslice
  exact hslice

/-! ### With positions -/

/-- The numbers on the left and the elements on the right, at least as many numbers as elements. -/
def Numbered (cols : List (Bool × List Value)) : Prop :=
  ∃ numbers xs, cols = [(false, numbers), (true, xs)] ∧ xs.length ≤ numbers.length

theorem Numbered.tails {heads : List (Bool × Value × List Value)}
    (h : Numbered (heads.map fun c => (c.1, c.2.1 :: c.2.2))) :
    Numbered (heads.map fun c => (c.1, c.2.2)) := by
  obtain ⟨numbers, xs, hcols, hle⟩ := h
  obtain ⟨first, rest, rfl, hfirst, hrest⟩ := List.map_eq_cons_iff.mp hcols
  obtain ⟨second, rest, rfl, hsecond, hnil⟩ := List.map_eq_cons_iff.mp hrest
  rw [List.map_eq_nil_iff] at hnil
  subst hnil
  obtain ⟨hfalse, rfl⟩ := Prod.mk.inj hfirst
  obtain ⟨htrue, rfl⟩ := Prod.mk.inj hsecond
  refine ⟨first.2.2, second.2.2, ?_, Nat.le_of_succ_le_succ hle⟩
  rw [List.map_cons, List.map_singleton, hfalse, htrue]

/-- The account of the two columns under `Sequence.enumerate`. -/
def numberedBy (U : (watchedFrame υ κ τ).Account Value (Cursor (Recorded υ Value × κ) τ)) :
    Bool → (watchedFrame υ κ τ).Account Value (Cursor (Recorded υ Value × κ) τ)
  | false => Cursor.HasLeft Prod.fst False 1
  | true => U

/-- What is left of the elements with their positions. -/
def EnumerateLeft (U : (watchedFrame υ κ τ).Account Value (Cursor (Recorded υ Value × κ) τ)) :
    (watchedFrame υ κ τ).Account Value (Latched (Tuple (Cursor (Recorded υ Value × κ) τ))) :=
  MapLeft .list (ZipLeft False (fun _ => False) Numbered (numberedBy U) Tuple.toList)

theorem backed_enumerate : Backed enumerated (f all) U (EnumerateLeft U) := by
  intro ys l F w ⟨rws, hrws, hys⟩
  obtain ⟨cols, _, ⟨numbers, xs, hcols, hle⟩, hrows, _, _, hcursors⟩ := hrws
  rw [hcols] at hcursors hrows
  have hxs : (true, xs) ∈ [(false, numbers), (true, xs)] :=
    List.mem_cons_of_mem _ List.mem_cons_self
  obtain ⟨s, F', hs⟩ := hcursors.exists_of_mem hxs
  refine ⟨xs, s, F', hs, ?_⟩
  intro taken htaken
  -- there are enough numbers, so a row is left for every element that is left
  have hlength : ys.length = xs.length := by
    rw [show ys = rws.map .list from hys, hrows]
    show ((rows [numbers, xs]).map Value.list).length = _
    rw [rows_pair, List.length_map, List.length_zipWith]
    omega
  rw [← htaken, enumerated, enumerated, List.length_map, List.length_map, List.length_zipIdx,
    List.length_zipIdx, List.length_append]
  omega

theorem supplies_enumerate (h : s.Draws f all N U) {n : Nat} (hn : max N 1 ≤ n) :
    (watchedFrame υ κ τ).Supplies False Machine.Exactly
      ((Cursor.machine n).tupleRow.latch.map fun row => return .list row.toList)
      (EnumerateLeft U) := by
  have hm : ∀ i, (watchedFrame υ κ τ).Supplies False Machine.Exactly (Cursor.machine n)
      (numberedBy U i) := by
    intro i
    cases i with
    | false => exact Cursor.supplies_hasLeft (by omega)
    | true => exact h.supplies n (by omega)
  refine Supplies.map ((takesRows_tupleRow hm).latch hm fun _ => Numbered.tails) ?_
  intro row elements w hrow
  exact Comp.returns_pure.mpr ⟨by rw [hrow], Quiet.refl w⟩

theorem Draws.enumerate (h : s.Draws f all N U) :
    ∃ N V, s.enumerate.Draws (fun xs => enumerated (f xs)) all N V := by
  refine ⟨_, _, h.stage grows_enumerated .zip (fun _ _ => rfl)
    (fun n (hn : max N 1 ≤ n) => supplies_enumerate h hn) backed_enumerate ?_⟩
  intro w hw
  show (do
    let r ← (do return Tuple.pair (← pure (.reading (.fresh (.count 0 none)))) (← s.start))
    return Cursor.zip ⟨r, false⟩ : Comp (World _ τ) _).Returns w _
  simp only [pure_bind, bind_assoc]
  refine (h.starts hw).bind ?_
  intro c w' hc
  refine Comp.returns_pure.mpr (hc.mono fun F' hF' => ⟨_, rfl, ?_⟩)
  refine ⟨rows [integers 0 ((f all).length + 1), f all], ⟨[(false, integers 0 ((f all).length + 1)),
    (true, f all)], List.cons_ne_nil _ _, ⟨_, _, rfl, ?_⟩, rfl, False.elim, ?_, ?_⟩, ?_⟩
  · rw [length_integers]
    exact Nat.le_succ _
  · intro hdry
    exact absurd hdry Bool.false_ne_true
  · -- the numbers own nothing, so they stand beside whatever the elements own
    have hcount := Cursor.hasLeft_reading (w := w') (Iterator.brings_count
      (Prod.fst (α := Recorded υ Value) (β := κ)) 0 ((f all).length + 1))
    exact (Sep.of_none (Sep.of_none hF' ⟨rfl, trivial⟩) hcount).comm
  · exact (map_rows_integers (f all)).symm

/-! ### In batches -/

theorem Draws.rebatch (h : s.Draws f all N U) {size : Nat} (hsize : 0 < size) :
    ∃ N V, (s.batch size hsize).concat.Draws f all N V := by
  refine ⟨_, _, h.stage (g := id) (fun _ _ hxs => hxs) .concat (fun _ _ => rfl)
    (V := fun ys c F w => ∃ r, ConcatLeft U size (f all) [] r ys c F w)
    (fun n (hn : max N (f all).length + 2 ≤ n) => ?_) ?_ ?_⟩
  · exact Supplies.union fun r =>
      supplies_concat hsize (.inl rfl) (fun i hi => h.supplies i hi)
        (by rw [List.length_nil]; omega)
  · intro ys c F w ⟨r, hc⟩
    exact backed_concat hsize ys c F w hc
  · intro w hw
    rw [show (s.batch size hsize).concat.start = _ from start_concat_batch hsize [] s]
    refine (h.starts hw).bind ?_
    intro c w' ⟨F, hstep, hc⟩
    refine (adoptReader_returns ((h.supplies N (Nat.le_refl N)).keeps _ c) hc).bind ?_
    intro r w'' hr
    refine Comp.returns_pure.mpr ((hr.mono fun F' hF' => ⟨_, rfl, r, ?_⟩).trans hstep)
    have hfresh := concatLeft_fresh hsize [] hF'
    rw [Window.ofAll, List.foldl_nil, flatten_runs] at hfresh
    exact hfresh

/-! ## The source -/

theorem draws_watched {m : Machine υ τ Value} {Left : Stream'.Seq Value → υ → τ → Prop}
    (hm : m.Produces Left) {begin : Comp υ τ} {xs : Stream'.Seq Value}
    (hbegin : ∀ o, begin.Returns o fun s o' => Left xs o' s) (n : Nat) :
    (watched (κ := κ) begin m).Draws id (xs.take n) 1
      (Cursor.Wrapped (.given m.watched) (SourceLeft Left (xs.take n))) where
  grows _ _ hxs := hxs
  supplies i hi := by
    obtain ⟨j, rfl⟩ := Nat.exists_eq_add_one.mpr hi
    exact Cursor.supplies_wrapped (fun _ _ => rfl) (supplies_source hm)
  suffix hc := by
    obtain ⟨s, _, _, _, taken, htaken, _⟩ := hc
    exact ⟨taken, htaken⟩
  backed {ys c F w} hc := by
    obtain ⟨s, _, _, _, taken, hall, htaken⟩ := hc
    refine ⟨taken, ⟨ys, hall⟩, htaken, ?_⟩
    rw [← hall]
    simp only [id, List.length_append]
    omega
  starts {w} hw := by
    rw [watched, start]
    show ((World.onOuter ((begin.within Recorded.world fun w v => ⟨w, v.calls⟩).within Prod.fst
      fun v o => (v, o.2))) >>= _).Returns w _
    refine (hbegin w.outer.1.world).within.within.within.bind ?_
    rintro s w' ⟨o, hw', v, ho, v', hv, hleft⟩
    subst hw' ho hv
    refine Comp.returns_pure.mpr ⟨onCaller, step_onCaller _ _, s, rfl, rfl, ⟨xs, n, hleft, rfl⟩,
      [], rfl, ?_⟩
    show Taken [] w.outer.1.calls
    rw [hw]
    exact ⟨rfl, rfl⟩

end Sequence

/-! ## The stack -/

namespace Stage

variable {ω : Type} {watch : ω → υ}

/-- The stages one over the other on a sequence, the first one at the bottom. -/
def stack (stages : List (Stage watch)) (s : Sequence ω τ) : Sequence ω τ :=
  stages.foldl (fun s st => st.apply s) s

/-- What the stages make of a list, one after the other. -/
def stackMeaning (stages : List (Stage watch)) (xs : List Value) : List Value :=
  stages.foldl (fun xs st => st.meaning xs) xs

variable {f : List Value → List Value} {all : List Value} {N : Nat}
variable {s : Sequence (Recorded υ Value × κ) τ}
variable {U : (watchedFrame υ κ τ).Account Value (Cursor (Recorded υ Value × κ) τ)}

theorem draws (st : Stage (Prod.fst (α := Recorded υ Value) (β := κ))) (h : s.Draws f all N U) :
    ∃ N V, (st.apply s).Draws (fun xs => st.meaning (f xs)) all N V := by
  cases st with
  | map fn => exact h.map (Fn.maps_call fn.computes)
  | each fn => exact h.each fn.computes
  | filter p => exact h.filter p.decides
  | reject p => exact h.filter (Test.decides_not p.decides)
  | takeWhile p => exact h.takeWhile p.decides
  | takeUntil p => exact h.takeWhile (Test.decides_not p.decides)
  | dropWhile p => exact h.dropWhile p.decides
  | dropUntil p => exact h.dropWhile (Test.decides_not p.decides)
  | take n => exact h.take n
  | drop n => exact h.drop n
  | rest =>
    have hdrop := h.drop 1
    simp only [List.drop_one] at hdrop
    exact hdrop
  | slice win => exact h.slice win
  | enumerate => exact h.enumerate
  | rebatch size hsize => exact h.rebatch hsize

theorem draws_stack (stages : List (Stage (Prod.fst (α := Recorded υ Value) (β := κ))))
    (h : s.Draws f all N U) :
    ∃ N V, (stack stages s).Draws (fun xs => stackMeaning stages (f xs)) all N V := by
  -- on the stages from the bottom: what draws on the source does so with one more stage over it
  induction stages generalizing s f N U with
  | nil => exact ⟨N, U, h⟩
  | cons st stages ih =>
    obtain ⟨N', V, hst⟩ := st.draws h
    exact ih hst

/-- Nothing that comes before a call of the schedule asks for more elements than all that comes
before its last call. -/
theorem count_le_of_append {before done rest : List Ask} {ask : Ask}
    (h : before ++ [Ask.next] = done ++ ask :: rest) :
    done.count Ask.next ≤ before.count Ask.next := by
  have hlength := congrArg List.length h
  simp only [List.length_append, List.length_cons, List.length_nil] at hlength
  have hprefix : done <+: before :=
    List.prefix_of_prefix_length_le ⟨ask :: rest, h.symm⟩ (List.prefix_append _ _) (by omega)
  exact hprefix.sublist.count_le Ask.next

/-- What backs `k` elements is enough for `k` elements, so it is the shortest beginning that is. -/
theorem taken_of_isLeast {xs : Stream'.Seq Value} {k m : Nat}
    (hm : IsLeast {n | k ≤ (f (xs.take n)).length} m) {ys : List Value}
    {w : World (Recorded υ Value × κ) τ} (h : BackedBy f (xs.take m) ys w)
    (hys : ys.length = (f (xs.take m)).length - k) :
    Taken (xs.take m) w.outer.1.calls ∧ (xs.take m).length = m := by
  obtain ⟨taken, hprefix, htaken, hbacked⟩ := h
  have henough : k ≤ (f (xs.take m)).length := hm.1
  have heq : taken = xs.take taken.length := eq_take_of_prefix hprefix
  -- not shorter than `m`, since `m` is the least
  have hmin : m ≤ taken.length := by
    refine hm.2 ?_
    show k ≤ (f (xs.take taken.length)).length
    rw [← heq]
    omega
  -- and nothing beyond `xs.take m` was there to be taken
  have hmax : taken.length ≤ (xs.take m).length := hprefix.length_le
  have hle : (xs.take m).length ≤ m := Stream'.Seq.length_take_le
  have hall : taken = xs.take m := hprefix.eq_of_length (by omega)
  rw [hall] at htaken
  exact ⟨htaken, by omega⟩

/-- A new cursor on a stack over a lawful source, finite or not, is asked for `k` elements, and any
number of times before the last of them whether more is left. It hands out the first `k` elements of
what the stack means, and the source has then been asked for an element `m` times, each time with
success, where `m` is the length of the shortest beginning of which the stack makes `k` elements. -/
theorem demand_stack (stages : List (Stage (Prod.fst (α := Recorded υ Value) (β := κ))))
    {src : Machine υ τ Value} {Left : Stream'.Seq Value → υ → τ → Prop} (hsrc : src.Produces Left)
    {begin : Comp υ τ} {xs : Stream'.Seq Value}
    (hbegin : ∀ o, begin.Returns o fun s o' => Left xs o' s)
    {before : List Ask} {k m : Nat} (hk : before.count Ask.next + 1 = k)
    (hm : IsLeast {n | k ≤ (stackMeaning stages (xs.take n)).length} m) :
    ∃ N, ∀ extra v o (w : World (Recorded υ Value × κ) τ),
      (do
        let c ← (stack stages (.watched begin src)).start
        (Cursor.machine (N + extra)).run (before ++ [Ask.next]) c).Returns (putOuter (⟨v, []⟩, o) w)
        fun r w' => Reply.items r.1 = (stackMeaning stages (xs.take m)).take k ∧
          Reply.pulls w'.outer.1.calls = m ∧ Reply.items w'.outer.1.calls = xs.take m ∧
            (xs.take m).length = m := by
  obtain ⟨N, U, h⟩ := draws_stack stages (Sequence.draws_watched (κ := κ) hsrc hbegin m)
  have hcount : (before ++ [Ask.next]).count Ask.next = k := by
    rw [List.count_append, List.count_singleton_self, hk]
  have henough : k ≤ (stackMeaning stages (xs.take m)).length := hm.1
  refine ⟨N, fun extra v o w => ?_⟩
  refine (h.starts rfl).bind ?_
  intro c w' hc
  have hsupplies := h.supplies (N + extra) (Nat.le_add_right N extra)
  refine ((hsupplies.after onCaller _).run ?_ hc).mono ?_
  · -- before its last call the schedule has fewer than `k` elements, so more are left
    intro done ask rest hasks hnil
    have hdone := count_le_of_append hasks
    rw [ListCursor.after_eq_drop, List.drop_eq_nil_iff] at hnil
    have hle : (stackMeaning stages (xs.take m)).length ≤ done.count Ask.next := hnil
    omega
  · intro r w'' ⟨hr, F, _, hU⟩
    have hleft : (ListCursor.after (before ++ [Ask.next]) (stackMeaning stages (xs.take m))).length
        = (stackMeaning stages (xs.take m)).length - k := by
      rw [ListCursor.after_eq_drop, List.length_drop, hcount]
    obtain ⟨⟨hitems, hpulls⟩, hlength⟩ := taken_of_isLeast hm (h.backed hU) hleft
    refine ⟨?_, hpulls.trans hlength, hitems, hlength⟩
    rw [hr, ListCursor.items_run, hcount]
    rfl

/-- A filter, batches and a limit. -/
def batchesFromTwo : List (Stage (Prod.fst (α := Recorded Unit Value) (β := Unit))) :=
  [.filter (.pure _ fun v => v != .int 1), .rebatch 2 Nat.two_pos, .take 3]

/-- Over the numbers from 1 to 4, the first two elements need three numbers. -/
theorem demand_stack_batchesFromTwo : ∃ N, ∀ extra v o
    (w : World (Recorded Unit Value × Unit) (Peeked (List Value) Value)),
      (do
        let c ← (stack batchesFromTwo (.watched (pure (Peeked.fresh (integers 1 4)))
          (.peek pullHead))).start
        (Cursor.machine (N + extra)).run [Ask.hasNext, .next, .hasNext, .next] c).Returns
          (putOuter (⟨v, []⟩, o) w)
        fun r w' => Reply.items r.1 = integers 2 2 ∧ Reply.pulls w'.outer.1.calls = 3 := by
  have hsrc := (Machine.lawful_peek_pullHead (ω := Unit) (α := Value)).produces
  have hbegin : ∀ o : Unit, (pure (Peeked.fresh (integers 1 4)) : Comp Unit _).Returns o
      fun s o' => ∃ ys, Stream'.Seq.ofList (integers 1 4) = .ofList ys ∧ Machine.HeadLeft ys o' s :=
    fun o => Comp.returns_pure.mpr ⟨integers 1 4, rfl, rfl⟩
  have hcount : [Ask.hasNext, .next, .hasNext].count Ask.next + 1 = 2 := rfl
  have hleast : IsLeast {n | 2 ≤ (stackMeaning batchesFromTwo
      ((Stream'.Seq.ofList (integers 1 4)).take n)).length} 3 := by
    refine ⟨by decide, fun n hn => ?_⟩
    by_contra hlt
    obtain rfl | rfl | rfl : n = 0 ∨ n = 1 ∨ n = 2 := by omega
    · exact absurd hn (by decide)
    · exact absurd hn (by decide)
    · exact absurd hn (by decide)
  obtain ⟨N, hN⟩ := demand_stack batchesFromTwo hsrc hbegin hcount hleast
  refine ⟨N, fun extra v o w => (hN extra v o w).mono ?_⟩
  intro r w' ⟨hitems, hpulls, _⟩
  exact ⟨hitems, hpulls⟩

end Stage

end LazySeq
