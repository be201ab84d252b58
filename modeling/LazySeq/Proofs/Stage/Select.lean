import LazySeq.Proofs.Frame
import LazySeq.Proofs.Stage.Peek
import LazySeq.Stage.Select

/-!
# Selecting elements is lawful

What each of the four selecting stages has left, by what the cursor below has left. Every account
remembers the list `all` that the cursor below began with: a search is bounded by its length, and
the elements already taken from below say where a window or a leading run stands.

The elements of a window are `Window.of`; `Window.of_take` and `Window.of_drop` are the two windows
with a name of their own.
-/

namespace LazySeq

/-! ## The elements of a window -/

namespace Window

variable {α : Type} {w : Window}

/-- The elements in the window of a list whose first element has position `i`. -/
def ofFrom (w : Window) : Nat → List α → List α
  | _, [] => []
  | i, a :: xs =>
    if w.endsBy i then []
    else if w.selects i then a :: w.ofFrom (i + 1) xs
    else w.ofFrom (i + 1) xs

/-- The elements in the window of a list. -/
def of (w : Window) (xs : List α) : List α := w.ofFrom 0 xs

@[simp]
theorem ofFrom_nil (w : Window) (i : Nat) : w.ofFrom i ([] : List α) = [] := rfl

theorem endsBy_mono {i j : Nat} (h : w.endsBy i) (hij : i ≤ j) : w.endsBy j := by
  obtain ⟨start, stop, step, hstep⟩ := w
  cases stop with
  | none => cases h
  | some stop =>
    simp only [endsBy, decide_eq_true_eq] at h ⊢
    omega

theorem ofFrom_of_endsBy {i : Nat} (h : w.endsBy i) (xs : List α) : w.ofFrom i xs = [] := by
  cases xs with
  | nil => rfl
  | cons a xs => rw [ofFrom, if_pos h]

theorem ofFrom_append (i : Nat) (xs ys : List α) :
    w.ofFrom i (xs ++ ys) = w.ofFrom i xs ++ w.ofFrom (i + xs.length) ys := by
  induction xs generalizing i with
  | nil => rfl
  | cons a xs ih =>
    have hlen : i + (a :: xs).length = i + 1 + xs.length := by
      rw [List.length_cons]
      omega
    rw [List.cons_append, ofFrom, ofFrom, hlen]
    by_cases hends : w.endsBy i
    · rw [if_pos hends, if_pos hends, ofFrom_of_endsBy (endsBy_mono hends (by omega))]
      rfl
    · rw [if_neg hends, if_neg hends, ih]
      split
      · rfl
      · rfl

/-- The window keeps its elements in order and drops those at the other positions. -/
theorem ofFrom_eq (i : Nat) (xs : List α) :
    w.ofFrom i xs =
      ((xs.zipIdx i).filter fun (_, j) => !w.endsBy j && w.selects j).map Prod.fst := by
  induction xs generalizing i with
  | nil => rfl
  | cons a xs ih =>
    rw [ofFrom, List.zipIdx_cons]
    by_cases hends : w.endsBy i
    · -- past the stop there is nothing to keep in the rest either
      have hrest : ((xs.zipIdx (i + 1)).filter fun (_, j) => !w.endsBy j && w.selects j) = [] := by
        refine List.filter_eq_nil_iff.mpr ?_
        intro ⟨b, j⟩ hb
        have hle := (List.mem_zipIdx hb).1
        have hj : w.endsBy j = true := endsBy_mono hends (by omega)
        simp [hj]
      rw [if_pos hends, List.filter_cons, hrest]
      simp [hends]
    · rw [if_neg hends, List.filter_cons, ih]
      have hends' : w.endsBy i = false := by simpa using hends
      by_cases hsel : w.selects i <;> simp [hends', hsel]

/-- The elements at positions `start`, `start + step`, … that are below the stop. -/
theorem of_eq (xs : List α) :
    w.of xs = (xs.zipIdx.filter fun (_, j) => !w.endsBy j && w.selects j).map Prod.fst :=
  ofFrom_eq 0 xs

theorem ofFrom_map {β : Type} (f : α → β) (i : Nat) (xs : List α) :
    w.ofFrom i (xs.map f) = (w.ofFrom i xs).map f := by
  induction xs generalizing i with
  | nil => rfl
  | cons a xs ih =>
    rw [List.map_cons, ofFrom, ofFrom, ih]
    split
    · rfl
    · split
      · rfl
      · rfl

/-- Which positions a window selects does not depend on the elements. -/
theorem of_map {β : Type} (f : α → β) (xs : List α) : w.of (xs.map f) = (w.of xs).map f :=
  ofFrom_map f 0 xs

theorem of_sublist (xs : List α) : (w.of xs).Sublist xs := by
  have hfst : xs.zipIdx.map Prod.fst = xs := List.zipIdx_map_fst 0 xs
  have hsub := (List.filter_sublist (l := xs.zipIdx)
    (p := fun (_, j) => !w.endsBy j && w.selects j)).map Prod.fst
  rw [hfst] at hsub
  rw [of_eq]
  exact hsub

theorem ofFrom_contiguous_some (n i : Nat) (xs : List α) :
    (contiguous 0 (some n)).ofFrom i xs = xs.take (n - i) := by
  induction xs generalizing i with
  | nil => simp
  | cons a xs ih =>
    have hsel : (contiguous 0 (some n)).selects i = true := by
      simp [contiguous, selects, Nat.mod_one]
    rw [ofFrom]
    by_cases hi : n ≤ i
    · rw [if_pos (by simpa [contiguous, endsBy] using hi), show n - i = 0 by omega]
      rfl
    · obtain ⟨m, hm⟩ : ∃ m, n - i = m + 1 := ⟨n - i - 1, by omega⟩
      rw [if_neg (by simpa [contiguous, endsBy] using hi), if_pos hsel, ih, hm,
        List.take_succ_cons, show n - (i + 1) = m by omega]

theorem ofFrom_contiguous_none (n i : Nat) (xs : List α) :
    (contiguous n none).ofFrom i xs = xs.drop (n - i) := by
  induction xs generalizing i with
  | nil => simp
  | cons a xs ih =>
    have hends : (contiguous n none).endsBy i = false := rfl
    rw [ofFrom, hends, if_neg Bool.false_ne_true, ih]
    by_cases hi : n ≤ i
    · have hsel : (contiguous n none).selects i = true := by
        simp [contiguous, selects, Nat.mod_one, hi]
      rw [if_pos hsel, show n - (i + 1) = 0 by omega, show n - i = 0 by omega]
      rfl
    · have hsel : (contiguous n none).selects i = false := by
        simp [contiguous, selects, hi]
      obtain ⟨m, hm⟩ : ∃ m, n - i = m + 1 := ⟨n - i - 1, by omega⟩
      rw [hsel, if_neg Bool.false_ne_true, hm, List.drop_succ_cons, show n - (i + 1) = m by omega]

theorem of_take (n : Nat) (xs : List α) : (contiguous 0 (some n)).of xs = xs.take n :=
  ofFrom_contiguous_some n 0 xs

theorem of_drop (n : Nat) (xs : List α) : (contiguous n none).of xs = xs.drop n :=
  ofFrom_contiguous_none n 0 xs

end Window

namespace Machine

variable {ω σ α β : Type} {m : Machine ω σ α} {ends : Prop} {Left : List α → ω → σ → Prop}
variable {test : α → Comp ω Bool} {p : α → Bool} {all xs : List α} {w : ω} {fuel : Nat}

/-! ## By a test -/

/-- The elements still to be selected by a filter. -/
def FilterStands (p : α → Bool) (all xs ys : List α) (_ : σ) : Prop :=
  xs <:+ all ∧ ys = xs.filter p

/-- One round for every element that is passed over, and one for the one that is found. -/
theorem Supplies.seek (h : m.Supplies ends Exactly Left)
    (htest : Comp.Computes (Leaves Left) test p) {s : σ} (hends : xs.filter p = [] → ends)
    (hfuel : xs.length < fuel) (hs : Left xs w s) :
    (m.seek test fuel s).Returns w fun r w' => r.1 = (xs.filter p).head? ∧
      ∃ xs', Left xs' w' r.2 ∧ xs' <:+ xs ∧ xs'.filter p = (xs.filter p).tail := by
  -- on the fuel; every round takes an element from below, so the list gets shorter with it
  induction fuel generalizing xs w s with
  | zero => exact absurd hfuel (Nat.not_lt_zero _)
  | succ fuel ih =>
    cases xs with
    | nil =>
      refine (h.pull?_nil (hends rfl) hs).bind ?_
      rintro ⟨answer, s⟩ w ⟨rfl, hs⟩
      exact Comp.returns_pure.mpr ⟨rfl, [], hs, List.suffix_refl [], rfl⟩
    | cons x xs =>
      refine (h.pull?_cons hs).bind ?_
      rintro ⟨answer, s⟩ w ⟨⟨x, rfl, rfl⟩, hl⟩
      refine (htest x w).bind ?_
      rintro passed w' ⟨rfl, hleaves⟩
      have hl' := hleaves _ _ hl
      cases hp : p x with
      | true =>
        refine Comp.returns_pure.mpr ⟨?_, xs, hl', List.suffix_cons x xs, ?_⟩
        · rw [List.filter_cons_of_pos hp, List.head?_cons]
        · rw [List.filter_cons_of_pos hp, List.tail_cons]
      | false =>
        have hskip : (x :: xs).filter p = xs.filter p :=
          List.filter_cons_of_neg (by simp [hp])
        rw [hskip] at hends ⊢
        refine (ih hends (Nat.lt_of_succ_lt_succ hfuel) hl').mono ?_
        intro r w'' ⟨hr, xs', hs', hsuffix, hxs'⟩
        exact ⟨hr, xs', hs', hsuffix.trans (List.suffix_cons x xs), hxs'⟩

theorem Supplies.fetches_seek (h : m.Supplies ends Exactly Left)
    (htest : Comp.Computes (Leaves Left) test p) (hfuel : all.length < fuel) :
    Fetches ends Exactly (m.seek test fuel) (Over id (fun _ => FilterStands p all) Left) fun w s =>
      ∃ xs, Left xs w s ∧ FilterStands p all xs [] s where
  cons {a ys w s} hs := by
    obtain ⟨xs, hs, hsuffix, hys⟩ := hs
    have hne : xs.filter p ≠ [] := by
      rw [← hys]
      exact List.cons_ne_nil a ys
    have hlt : xs.length < fuel := Nat.lt_of_le_of_lt hsuffix.length_le hfuel
    refine (h.seek htest (fun hnil => absurd hnil hne) hlt hs).mono ?_
    intro r w' ⟨hr, xs', hs', hsuffix', hxs'⟩
    rw [← hys] at hr hxs'
    exact ⟨⟨a, hr, rfl⟩, xs', hs', hsuffix'.trans hsuffix, hxs'.symm⟩
  nil {w s} he hs := by
    obtain ⟨xs, hs, hsuffix, hys⟩ := hs
    have hlt : xs.length < fuel := Nat.lt_of_le_of_lt hsuffix.length_le hfuel
    refine (h.seek htest (fun _ => he) hlt hs).mono ?_
    intro r w' ⟨hr, xs', hs', hsuffix', hxs'⟩
    rw [← hys] at hr hxs'
    exact ⟨hr, xs', hs', hsuffix'.trans hsuffix, hxs'.symm⟩

/-- A filter over a cursor that began with `all` has what passes of that cursor's elements. -/
theorem Supplies.filter (h : m.Supplies ends Exactly Left)
    (htest : Comp.Computes (Leaves Left) test p) (hfuel : all.length < fuel) :
    (m.filter fuel test).Supplies ends Exactly
      (Over Peeked.source
        (PeekReads Exactly (FilterStands p all) fun xs => FilterStands p all xs []) Left) :=
  (h.fetches_seek htest hfuel).peek_over id

/-! ## By a leading run -/

/-- The elements of a leading run that are still to come, while all were in the run so far. -/
def TakeStands (p : α → Bool) (all xs ys : List α) (_ : σ) : Prop :=
  ∃ pre, pre ++ xs = all ∧ (∀ a ∈ pre, p a) ∧ ys = xs.takeWhile p

/-- The leading run is over. -/
def TakeEnded (p : α → Bool) (all xs : List α) (_ : σ) : Prop :=
  ∃ pre, pre ++ xs = all ∧ all.takeWhile p = pre.takeWhile p

/-- The next element is taken from below whether it passes or not. -/
theorem Supplies.pullIf_cons (h : m.Supplies ends Exactly Left)
    (htest : Comp.Computes (Leaves Left) test p) {x : α} {s : σ} (hs : Left (x :: xs) w s) :
    (m.pullIf test s).Returns w fun r w' =>
      r.1 = (if p x then some x else none) ∧ Left xs w' r.2 := by
  refine (h.pull?_cons hs).bind ?_
  rintro ⟨answer, s⟩ w ⟨⟨x, rfl, rfl⟩, hl⟩
  refine (htest x w).bind ?_
  rintro passed w' ⟨rfl, hleaves⟩
  cases hp : p x with
  | true => exact Comp.returns_pure.mpr ⟨rfl, hleaves _ _ hl⟩
  | false => exact Comp.returns_pure.mpr ⟨rfl, hleaves _ _ hl⟩

theorem Supplies.fetches_pullIf (h : m.Supplies ends Exactly Left)
    (htest : Comp.Computes (Leaves Left) test p) :
    Fetches ends Exactly (m.pullIf test) (Over id (fun _ => TakeStands p all) Left) fun w s =>
      ∃ xs, Left xs w s ∧ TakeEnded p all xs s where
  cons {a ys w s} hs := by
    obtain ⟨xs, hs, pre, hpre, hrun, hys⟩ := hs
    cases xs with
    | nil => cases hys
    | cons x xs =>
      cases hp : p x with
      | false =>
        rw [List.takeWhile_cons_of_neg (by simp [hp])] at hys
        cases hys
      | true =>
        rw [List.takeWhile_cons_of_pos hp] at hys
        obtain ⟨rfl, rfl⟩ := List.cons.inj hys
        refine (h.pullIf_cons htest hs).mono ?_
        intro r w' ⟨hr, hs'⟩
        rw [if_pos hp] at hr
        refine ⟨⟨a, hr, rfl⟩, xs, hs', pre ++ [a], ?_, ?_, rfl⟩
        · rw [List.append_assoc]
          exact hpre
        · intro b hb
          rcases List.mem_append.mp hb with hb | hb
          · exact hrun b hb
          · rw [List.mem_singleton.mp hb]
            exact hp
  nil {w s} he hs := by
    obtain ⟨xs, hs, pre, hpre, hrun, hys⟩ := hs
    cases xs with
    | nil =>
      refine (h.pull?_nil he hs).bind ?_
      rintro ⟨answer, s⟩ w ⟨rfl, hs⟩
      refine Comp.returns_pure.mpr ⟨rfl, [], hs, pre, hpre, ?_⟩
      rw [← hpre, List.append_nil]
    | cons x xs =>
      cases hp : p x with
      | true =>
        rw [List.takeWhile_cons_of_pos hp] at hys
        cases hys
      | false =>
        refine (h.pullIf_cons htest hs).mono ?_
        intro r w' ⟨hr, hs'⟩
        rw [if_neg (by simp [hp])] at hr
        -- the element that ended the run is gone from below, and is in `pre` from now on
        refine ⟨hr, xs, hs', pre ++ [x], ?_, ?_⟩
        · rw [List.append_assoc]
          exact hpre
        · rw [← hpre, List.takeWhile_append_of_pos hrun, List.takeWhile_append_of_pos hrun,
            List.takeWhile_cons_of_neg (by simp [hp]), List.takeWhile_cons_of_neg (by simp [hp])]

theorem Supplies.takeWhile (h : m.Supplies ends Exactly Left)
    (htest : Comp.Computes (Leaves Left) test p) :
    (m.takeWhile test).Supplies ends Exactly
      (Over Peeked.source (PeekReads Exactly (TakeStands p all) (TakeEnded p all)) Left) :=
  (h.fetches_pullIf htest).peek_over id

/-- What comes after a leading run. While it is being dropped all were in the run so far. -/
def DropStands (p : α → Bool) (all xs ys : List α) (d : Dropping σ) : Prop :=
  ∃ pre, pre ++ xs = all ∧
    if d.dropping then (∀ a ∈ pre, p a) ∧ ys = xs.dropWhile p
    else (∃ a ∈ pre, ¬ p a) ∧ ys = xs

theorem DropStands.length_le {ys : List α} {d : Dropping σ} (h : DropStands p all xs ys d) :
    xs.length ≤ all.length := by
  obtain ⟨pre, rfl, -⟩ := h
  rw [List.length_append]
  omega

/-- After the run every element is handed on. -/
theorem DropStands.hand {x : α} {ys : List α} {s : σ}
    (h : DropStands p all (x :: xs) ys ⟨s, false⟩) (t : σ) :
    ys = x :: xs ∧ DropStands p all xs xs ⟨t, false⟩ := by
  obtain ⟨pre, hpre, ⟨a, ha, hpa⟩, hys⟩ := h
  refine ⟨hys, pre ++ [x], ?_, ⟨a, List.mem_append_left _ ha, hpa⟩, rfl⟩
  rw [List.append_assoc]
  exact hpre

/-- The element that ends the run is handed on. -/
theorem DropStands.stop {x : α} {ys : List α} {s : σ}
    (h : DropStands p all (x :: xs) ys ⟨s, true⟩) (hp : p x = false) (t : σ) :
    ys = x :: xs ∧ DropStands p all xs xs ⟨t, false⟩ := by
  obtain ⟨pre, hpre, _, hys⟩ := h
  have hne : ¬ p x := by simp [hp]
  rw [List.dropWhile_cons_of_neg hne] at hys
  refine ⟨hys, pre ++ [x], ?_, ⟨x, by simp, hne⟩, rfl⟩
  rw [List.append_assoc]
  exact hpre

/-- An element of the run is dropped. -/
theorem DropStands.skip {x : α} {ys : List α} {s : σ}
    (h : DropStands p all (x :: xs) ys ⟨s, true⟩) (hp : p x = true) (t : σ) :
    DropStands p all xs ys ⟨t, true⟩ := by
  obtain ⟨pre, hpre, hrun, hys⟩ := h
  rw [List.dropWhile_cons_of_pos hp] at hys
  refine ⟨pre ++ [x], ?_, ?_, hys⟩
  · rw [List.append_assoc]
    exact hpre
  · intro b hb
    rcases List.mem_append.mp hb with hb | hb
    · exact hrun b hb
    · rw [List.mem_singleton.mp hb]
      exact hp

theorem DropStands.eq_nil {ys : List α} {d : Dropping σ} (h : DropStands p all [] ys d) :
    ys = [] := by
  obtain ⟨pre, _, hd⟩ := h
  split at hd
  · exact hd.2
  · exact hd.2

theorem Supplies.skipRun (h : m.Supplies ends Exactly Left)
    (htest : Comp.Computes (Leaves Left) test p) {ys : List α} {d : Dropping σ}
    (hends : ys = [] → ends) (hfuel : xs.length < fuel) (hs : Left xs w d.source)
    (hd : DropStands p all xs ys d) :
    (m.skipRun test fuel d).Returns w fun r w' => r.1 = ys.head? ∧
      ∃ xs', Left xs' w' r.2.source ∧ DropStands p all xs' ys.tail r.2 := by
  -- on the fuel, as for a search: one round an element, and one more for the end
  induction fuel generalizing xs w d with
  | zero => exact absurd hfuel (Nat.not_lt_zero _)
  | succ fuel ih =>
    obtain ⟨s, dropping⟩ := d
    cases xs with
    | nil =>
      have hnil := hd.eq_nil
      subst hnil
      refine (h.pull?_nil (hends rfl) hs).bind ?_
      rintro ⟨answer, s⟩ w ⟨rfl, hs⟩
      exact Comp.returns_pure.mpr ⟨rfl, [], hs, hd⟩
    | cons x xs =>
      refine (h.pull?_cons hs).bind ?_
      rintro ⟨answer, s⟩ w ⟨⟨x, rfl, rfl⟩, hl⟩
      cases dropping with
      | false =>
        obtain ⟨rfl, hrest⟩ := hd.hand s
        exact Comp.returns_pure.mpr ⟨rfl, xs, hl, hrest⟩
      | true =>
        refine (htest x w).bind ?_
        rintro passed w' ⟨rfl, hleaves⟩
        cases hp : p x with
        | false =>
          obtain ⟨rfl, hrest⟩ := hd.stop hp s
          exact Comp.returns_pure.mpr ⟨rfl, xs, hleaves _ _ hl, hrest⟩
        | true => exact ih (Nat.lt_of_succ_lt_succ hfuel) (hleaves _ _ hl) (hd.skip hp s)

theorem Supplies.dropWhile (h : m.Supplies ends Exactly Left)
    (htest : Comp.Computes (Leaves Left) test p) (hfuel : all.length < fuel) :
    (m.dropWhile fuel test).Supplies ends Exactly
      (Over (fun d => d.source.source)
        (PeekReads Exactly (DropStands p all) fun xs => DropStands p all xs []) Left) := by
  refine Fetches.peek_over Dropping.source ⟨?_, ?_⟩
  · intro a ys w d ⟨xs, hs, hd⟩
    have hlt : xs.length < fuel := Nat.lt_of_le_of_lt hd.length_le hfuel
    refine (h.skipRun htest (fun hnil => absurd hnil (List.cons_ne_nil a ys)) hlt hs hd).mono ?_
    intro r w' ⟨hr, hd'⟩
    exact ⟨⟨a, hr, rfl⟩, hd'⟩
  · intro w d he ⟨xs, hs, hd⟩
    have hlt : xs.length < fuel := Nat.lt_of_le_of_lt hd.length_le hfuel
    exact h.skipRun htest (fun _ => he) hlt hs hd

/-! ## By position -/

/-- The elements of a window that are still to come. -/
def SliceStands (win : Window) (all xs ys : List α) (c : Counted σ) : Prop :=
  ∃ pre, pre ++ xs = all ∧ c.index = pre.length ∧ ys = win.ofFrom c.index xs

variable {Rep : ω → β → α → Prop} {k : Machine ω σ β} {win : Window} {ys : List α} {c : Counted σ}

theorem SliceStands.length_le (h : SliceStands win all xs ys c) : xs.length ≤ all.length := by
  obtain ⟨pre, rfl, -⟩ := h
  rw [List.length_append]
  omega

theorem SliceStands.eq_nil (h : SliceStands win all [] ys c) : ys = [] := by
  obtain ⟨_, _, _, hys⟩ := h
  exact hys

theorem SliceStands.eq_nil_of_endsBy (h : SliceStands win all xs ys c)
    (hend : win.endsBy c.index) : ys = [] := by
  obtain ⟨_, _, _, hys⟩ := h
  rw [hys, Window.ofFrom_of_endsBy hend]

/-- Past the last element known, a window that ends within them has ended. -/
theorem SliceStands.endsBy_of_nil (h : SliceStands win all [] ys c) {stop : Nat}
    (hstop : win.stop = some stop) (hle : stop ≤ all.length) : win.endsBy c.index := by
  obtain ⟨pre, hpre, hindex, _⟩ := h
  rw [Window.endsBy, hstop, hindex, ← List.append_nil pre, hpre]
  exact decide_eq_true hle

/-- An element at a selected position is handed on. -/
theorem SliceStands.select {x : α} (h : SliceStands win all (x :: xs) ys c)
    (hend : ¬ win.endsBy c.index) (hsel : win.selects c.index) (t : σ) :
    ∃ rest, ys = x :: rest ∧ SliceStands win all xs rest ⟨t, c.index + 1⟩ := by
  obtain ⟨pre, hpre, hindex, hys⟩ := h
  rw [Window.ofFrom, if_neg hend, if_pos hsel] at hys
  refine ⟨_, hys, pre ++ [x], ?_, ?_, rfl⟩
  · rw [List.append_assoc]
    exact hpre
  · rw [List.length_append, hindex]
    rfl

/-- An element at any other position is passed over. -/
theorem SliceStands.pass {x : α} (h : SliceStands win all (x :: xs) ys c)
    (hend : ¬ win.endsBy c.index) (hsel : ¬ win.selects c.index) (t : σ) :
    SliceStands win all xs ys ⟨t, c.index + 1⟩ := by
  obtain ⟨pre, hpre, hindex, hys⟩ := h
  rw [Window.ofFrom, if_neg hend, if_neg hsel] at hys
  refine ⟨pre ++ [x], ?_, ?_, hys⟩
  · rw [List.append_assoc]
    exact hpre
  · rw [List.length_append, hindex]
    rfl

/-- Where the window ends within what is known, the end of the cursor below does not matter. -/
theorem Supplies.seekWindow (h : k.Supplies ends Rep Left)
    (hends : ys = [] → ends ∨ ∃ stop, win.stop = some stop ∧ stop ≤ all.length)
    (hfuel : xs.length < fuel) (hs : Left xs w c.source) (hc : SliceStands win all xs ys c) :
    (k.seekWindow win fuel c).Returns w fun r w' =>
      (∀ a rest, ys = a :: rest → ∃ b, r.1 = some b ∧ Rep w' b a) ∧ (ys = [] → r.1 = none) ∧
        ∃ xs', Left xs' w' r.2.source ∧ SliceStands win all xs' ys.tail r.2 := by
  induction fuel generalizing xs w c with
  | zero => exact absurd hfuel (Nat.not_lt_zero _)
  | succ fuel ih =>
    rw [Machine.seekWindow]
    by_cases hend : win.endsBy c.index
    · have hnil := hc.eq_nil_of_endsBy hend
      subst hnil
      rw [if_pos hend]
      exact Comp.returns_pure.mpr ⟨fun a rest hne => absurd hne.symm (List.cons_ne_nil a rest),
        fun _ => rfl, xs, hs, hc⟩
    · rw [if_neg hend]
      cases xs with
      | nil =>
        have hnil := hc.eq_nil
        subst hnil
        have he : ends := by
          rcases hends rfl with he | ⟨stop, hstop, hle⟩
          · exact he
          · -- the window would have ended here
            exact absurd (hc.endsBy_of_nil hstop hle) hend
        refine (h.pull?_nil he hs).bind ?_
        rintro ⟨answer, s⟩ w ⟨rfl, hs⟩
        exact Comp.returns_pure.mpr ⟨fun a rest hne => absurd hne.symm (List.cons_ne_nil a rest),
          fun _ => rfl, [], hs, hc⟩
      | cons x xs =>
        refine (h.pull?_cons hs).bind ?_
        rintro ⟨answer, s⟩ w ⟨⟨b, rfl, hb⟩, hl⟩
        by_cases hsel : win.selects c.index
        · obtain ⟨rest, rfl, hrest⟩ := hc.select hend hsel s
          simp only [hsel, if_true]
          refine Comp.returns_pure.mpr ⟨?_, fun hnil => absurd hnil (List.cons_ne_nil _ _), xs, hl,
            hrest⟩
          intro a rest' heq
          obtain ⟨rfl, rfl⟩ := List.cons.inj heq
          exact ⟨b, rfl, hb⟩
        · simp only [hsel]
          exact ih (Nat.lt_of_succ_lt_succ hfuel) hl (hc.pass hend hsel s)

theorem Supplies.slice (h : k.Supplies ends Rep Left) (hfuel : all.length < fuel) :
    (k.slice fuel win).Supplies (ends ∨ ∃ stop, win.stop = some stop ∧ stop ≤ all.length) Rep
      (Over (fun c => c.source.source)
        (PeekReads Rep (SliceStands win all) fun xs => SliceStands win all xs []) Left) := by
  refine Fetches.peek_over Counted.source ⟨?_, ?_⟩
  · intro a ys w c ⟨xs, hs, hc⟩
    have hlt : xs.length < fuel := Nat.lt_of_le_of_lt hc.length_le hfuel
    refine (h.seekWindow (fun hnil => absurd hnil (List.cons_ne_nil a ys)) hlt hs hc).mono ?_
    rintro r w' ⟨hr, -, hc'⟩
    exact ⟨hr a ys rfl, hc'⟩
  · intro w c he ⟨xs, hs, hc⟩
    have hlt : xs.length < fuel := Nat.lt_of_le_of_lt hc.length_le hfuel
    refine (h.seekWindow (fun _ => he) hlt hs hc).mono ?_
    rintro r w' ⟨-, hr, hc'⟩
    exact ⟨hr rfl, hc'⟩

end Machine

/-! ## Beside others -/

namespace Frame

open Machine

variable {ω σ α β : Type} {fr : Frame ω} {m : Machine ω σ α} {ends : Prop} {U : fr.Account α σ}
variable {test : α → Comp ω Bool} {p : α → Bool} {all : List α} {fuel : Nat}

abbrev FilterLeft (p : α → Bool) (all : List α) (U : fr.Account α σ) : fr.Account α (Peeked σ α) :=
  Over Peeked.source
    (PeekReads Exactly (FilterStands p all) fun xs => FilterStands p all xs []) U

abbrev TakeWhileLeft (p : α → Bool) (all : List α) (U : fr.Account α σ) :
    fr.Account α (Peeked σ α) :=
  Over Peeked.source (PeekReads Exactly (TakeStands p all) (TakeEnded p all)) U

abbrev DropWhileLeft (p : α → Bool) (all : List α) (U : fr.Account α σ) :
    fr.Account α (Peeked (Dropping σ) α) :=
  Over (fun d => d.source.source)
    (PeekReads Exactly (DropStands p all) fun xs => DropStands p all xs []) U

abbrev SliceLeft (Rep : ω → β → α → Prop) (win : Window) (all : List α) (U : fr.Account α σ) :
    fr.Account α (Peeked (Counted σ) β) :=
  Over (fun c => c.source.source)
    (PeekReads Rep (SliceStands win all) fun xs => SliceStands win all xs []) U

theorem Supplies.filter (h : fr.Supplies ends Exactly m U) (htest : Comp.Computes fr.Quiet test p)
    (hfuel : all.length < fuel) :
    fr.Supplies ends Exactly (m.filter fuel test) (FilterLeft p all U) :=
  h.over (fun _ => PeekReads.mono fun _ _ hb => hb)
    fun hm hquiet => hm.filter (htest.mono hquiet) hfuel

theorem Supplies.takeWhile (h : fr.Supplies ends Exactly m U)
    (htest : Comp.Computes fr.Quiet test p) :
    fr.Supplies ends Exactly (m.takeWhile test) (TakeWhileLeft p all U) :=
  h.over (fun _ => PeekReads.mono fun _ _ hb => hb)
    fun hm hquiet => hm.takeWhile (htest.mono hquiet)

theorem Supplies.dropWhile (h : fr.Supplies ends Exactly m U)
    (htest : Comp.Computes fr.Quiet test p) (hfuel : all.length < fuel) :
    fr.Supplies ends Exactly (m.dropWhile fuel test) (DropWhileLeft p all U) :=
  h.over (fun _ => PeekReads.mono fun _ _ hb => hb)
    fun hm hquiet => hm.dropWhile (htest.mono hquiet) hfuel

/-- The elements may be handed on by something that stands for them, if it does so for good. -/
theorem Supplies.slice {Rep : ω → β → α → Prop} {k : Machine ω σ β} {win : Window}
    (h : fr.Supplies ends Rep k U) (hrep : ∀ {w w' b a}, fr.Grows w w' → Rep w b a → Rep w' b a)
    (hfuel : all.length < fuel) :
    fr.Supplies (ends ∨ ∃ stop, win.stop = some stop ∧ stop ≤ all.length) Rep (k.slice fuel win)
      (SliceLeft Rep win all U) :=
  h.over (fun hgrows => PeekReads.mono fun _ _ => hrep hgrows) fun hk _ => hk.slice hfuel

variable {xs : List α} {s : σ} {F : fr.Region} {w : ω}

theorem filterLeft_fresh (hs : U xs s F w) :
    FilterLeft p xs U (xs.filter p) (.fresh s) F w :=
  ⟨xs, hs, List.suffix_refl xs, rfl⟩

theorem takeWhileLeft_fresh (hs : U xs s F w) :
    TakeWhileLeft p xs U (xs.takeWhile p) (.fresh s) F w :=
  ⟨xs, hs, [], rfl, by simp, rfl⟩

theorem dropWhileLeft_fresh (hs : U xs s F w) :
    DropWhileLeft p xs U (xs.dropWhile p) (.fresh ⟨s, true⟩) F w :=
  ⟨xs, hs, [], rfl, by simp [Peeked.fresh]⟩

theorem sliceLeft_fresh {Rep : ω → β → α → Prop} {win : Window} (hs : U xs s F w) :
    SliceLeft Rep win xs U (win.of xs) (.fresh ⟨s, 0⟩) F w :=
  ⟨xs, hs, [], rfl, rfl, rfl⟩

end Frame

end LazySeq
