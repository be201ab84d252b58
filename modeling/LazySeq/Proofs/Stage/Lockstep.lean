import LazySeq.Proofs.Frame
import LazySeq.Stage.Lockstep

/-!
# Cursors in lockstep are lawful

Several cursors stand side by side, each with a column of its own left. What is left of the rows
ends with the shortest column (`rows`). The cursors that run dry first must be known to their ends;
of the others it is enough that an element more is known than there are rows.

The cursors are told apart by an index, so that they may have different accounts.
-/

namespace LazySeq

variable {ω ι ρ σ α β : Type}

/-! ## Rows -/

/-- The rows of several columns, as many as the shortest has elements. -/
def rows : List (List α) → List (List α)
  | [] => []
  | [xs] => xs.map ([·])
  | xs :: cols => List.zipWith (· :: ·) xs (rows cols)

theorem rows_cons_cons (xs ys : List α) (cols : List (List α)) :
    rows (xs :: ys :: cols) = List.zipWith (· :: ·) xs (rows (ys :: cols)) := rfl

/-- The first row takes the first element of every column. -/
theorem rows_map_cons (c : α × List α) (cols : List (α × List α)) :
    rows ((c :: cols).map fun c => c.1 :: c.2) =
      (c :: cols).map Prod.fst :: rows ((c :: cols).map Prod.snd) := by
  induction cols generalizing c with
  | nil => rfl
  | cons d cols ih =>
    have hrest := ih d
    rw [List.map_cons, List.map_cons] at hrest ⊢
    rw [rows_cons_cons, hrest]
    rfl

theorem rows_eq_nil {cols : List (List α)} (h : [] ∈ cols) : rows cols = [] := by
  induction cols with
  | nil => rfl
  | cons xs cols ih =>
    cases cols with
    | nil =>
      rw [← List.mem_singleton.mp h]
      rfl
    | cons ys cols =>
      rw [rows_cons_cons]
      rcases List.mem_cons.mp h with hnil | hmem
      · rw [← hnil]
        rfl
      · rw [ih hmem, List.zipWith_nil_right]

theorem length_rows_le {cols : List (List α)} {xs : List α} (h : xs ∈ cols) :
    (rows cols).length ≤ xs.length := by
  induction cols with
  | nil => cases h
  | cons ys cols ih =>
    cases cols with
    | nil =>
      rw [List.mem_singleton.mp h]
      simp [rows]
    | cons zs cols =>
      rw [rows_cons_cons, List.length_zipWith]
      rcases List.mem_cons.mp h with rfl | hmem
      · omega
      · have := ih hmem
        omega

namespace Frame

variable {fr : Frame ω} {closed : ι → Prop} {m : Machine ω σ α} {U : ι → fr.Account α σ}
variable {cols : List (ι × List α)} {cs : List σ} {F : fr.Region} {w : ω}

/-! ## Columns side by side -/

/-- The cursors stand side by side, each with its column left. -/
def ColumnsLeft (U : ι → fr.Account α σ) : List (ι × List α) → List σ → fr.Assertion
  | [], [] => fun F _ => F = Region.none ∧ True
  | c :: cols, s :: cs => Sep (U c.1 c.2 s) (ColumnsLeft U cols cs)
  | _, _ => fun _ _ => False

theorem keeps_columnsLeft (hm : ∀ i, fr.Supplies (closed i) Machine.Exactly m (U i))
    (cols : List (ι × List α)) (cs : List σ) : fr.Keeps (ColumnsLeft U cols cs) := by
  induction cols generalizing cs with
  | nil =>
    cases cs with
    | nil => exact keeps_none
    | cons s cs => exact ⟨fun h => h.elim, fun h => h.elim⟩
  | cons c cols ih =>
    cases cs with
    | nil => exact ⟨fun h => h.elim, fun h => h.elim⟩
    | cons s cs => exact ((hm c.1).keeps c.2 s).sep (ih cs)

/-- Each of the columns is left to some cursor. -/
theorem ColumnsLeft.exists_of_mem (h : ColumnsLeft U cols cs F w) {c : ι × List α}
    (hc : c ∈ cols) : ∃ s F', U c.1 c.2 s F' w := by
  induction cols generalizing cs F with
  | nil => cases hc
  | cons d cols ih =>
    cases cs with
    | nil => exact h.elim
    | cons s cs =>
      obtain ⟨F₁, F₂, _, _, hs, hcs⟩ := h
      rcases List.mem_cons.mp hc with rfl | hc
      · exact ⟨s, F₁, hs⟩
      · exact ih hcs hc

/-- Every cursor is asked up to the first that has nothing left. -/
theorem Supplies.allHaveNext (hm : ∀ i, fr.Supplies (closed i) Machine.Exactly m (U i))
    (hclosed : ∀ c ∈ cols, c.2 = [] → closed c.1) (h : ColumnsLeft U cols cs F w) :
    (m.allHaveNext cs).Returns w fun r w' =>
      r.1 = cols.all (fun c => !c.2.isEmpty) ∧ Reaches (ColumnsLeft U cols r.2) F w w' := by
  induction cols generalizing cs F w with
  | nil =>
    cases cs with
    | nil => exact Comp.returns_pure.mpr ⟨rfl, .refl h⟩
    | cons s cs => exact h.elim
  | cons c cols ih =>
    cases cs with
    | nil => exact h.elim
    | cons s cs =>
      have hc := hclosed c List.mem_cons_self
      obtain ⟨F₁, hs, hback⟩ := Sep.left h (keeps_columnsLeft hm cols cs)
      refine ((hm c.1).hasNext hc hs).bind ?_
      rintro ⟨more, s⟩ w' ⟨rfl, hs⟩
      obtain ⟨F', hstep, hsep⟩ := hback hs
      cases hempty : c.2.isEmpty with
      | true =>
        -- the first that is dry ends the question; those after it are not asked
        refine Comp.returns_pure.mpr ⟨?_, F', hstep, hsep⟩
        rw [List.all_cons, hempty]
        rfl
      | false =>
        obtain ⟨F₂, hcs, hback⟩ := hsep.right ((hm c.1).keeps c.2 s)
        refine (ih (fun d hd => hclosed d (List.mem_cons_of_mem c hd)) hcs).bind ?_
        rintro ⟨more, cs⟩ w'' ⟨rfl, hcs⟩
        refine Comp.returns_pure.mpr ⟨?_, (hback hcs).trans hstep⟩
        rw [List.all_cons, hempty]
        rfl

/-- Where every cursor has an element, all are taken. -/
theorem Supplies.nextOfAll (hm : ∀ i, fr.Supplies (closed i) Machine.Exactly m (U i))
    {cols : List (ι × α × List α)}
    (h : ColumnsLeft U (cols.map fun c => (c.1, c.2.1 :: c.2.2)) cs F w) :
    (m.nextOfAll cs).Returns w fun r w' => r.1 = .ok (cols.map fun c => c.2.1) ∧
      Reaches (ColumnsLeft U (cols.map fun c => (c.1, c.2.2)) r.2) F w w' := by
  induction cols generalizing cs F w with
  | nil =>
    cases cs with
    | nil => exact Comp.returns_pure.mpr ⟨rfl, .refl h⟩
    | cons s cs => exact h.elim
  | cons c cols ih =>
    cases cs with
    | nil => exact h.elim
    | cons s cs =>
      obtain ⟨F₁, hs, hback⟩ := Sep.left h (keeps_columnsLeft hm _ cs)
      refine ((hm c.1).next_cons hs).bind ?_
      rintro ⟨answer, s⟩ w' ⟨⟨a, rfl, ha⟩, hs⟩
      obtain ⟨F', hstep, hsep⟩ := hback hs
      obtain ⟨F₂, hcs, hback⟩ := hsep.right ((hm c.1).keeps c.2.2 s)
      refine (ih hcs).bind ?_
      rintro ⟨row, cs⟩ w'' ⟨rfl, hcs⟩
      refine Comp.returns_pure.mpr ⟨?_, (hback hcs).trans hstep⟩
      rw [ha]
      rfl

/-- Columns that all have an element, with that element apart. -/
theorem exists_heads (h : ∀ c ∈ cols, c.2 ≠ []) : ∃ heads : List (ι × α × List α),
    cols = heads.map fun c => (c.1, c.2.1 :: c.2.2) := by
  induction cols with
  | nil => exact ⟨[], rfl⟩
  | cons c cols ih =>
    obtain ⟨i, xs⟩ := c
    obtain ⟨heads, hheads⟩ := ih fun d hd => h d (List.mem_cons_of_mem _ hd)
    obtain ⟨a, as, hxs⟩ := List.exists_cons_of_ne_nil (h (i, xs) List.mem_cons_self)
    refine ⟨(i, a, as) :: heads, ?_⟩
    rw [hheads, List.map_cons, ← hxs]

theorem rows_heads {heads : List (ι × α × List α)} (h : heads ≠ []) :
    rows ((heads.map fun c => (c.1, c.2.1 :: c.2.2)).map Prod.snd) =
      (heads.map fun c => c.2.1) :: rows ((heads.map fun c => (c.1, c.2.2)).map Prod.snd) := by
  obtain ⟨c, cs, rfl⟩ := List.exists_cons_of_ne_nil h
  have hrows := rows_map_cons c.2 (cs.map Prod.snd)
  simpa [List.map_map, Function.comp_def] using hrows

/-- There is a row where all columns have an element, and only there. -/
theorem isEmpty_rows (hcols : cols ≠ []) :
    (!(rows (cols.map Prod.snd)).isEmpty) = cols.all fun c => !c.2.isEmpty := by
  by_cases hall : ∀ c ∈ cols, c.2 ≠ []
  · obtain ⟨heads, rfl⟩ := exists_heads hall
    have hheads : heads ≠ [] := fun hnil => hcols (by rw [hnil]; rfl)
    rw [rows_heads hheads]
    simp
  · obtain ⟨c, hc, hnil⟩ : ∃ c ∈ cols, c.2 = [] := by
      simpa using hall
    rw [rows_eq_nil (List.mem_map.mpr ⟨c, hc, hnil⟩), eq_comm, List.isEmpty_nil, Bool.not_true,
      List.all_eq_false]
    exact ⟨c, hc, by simp [hnil]⟩

/-! ## The latch -/

/-- What is left of the rows over the cursors `cursors r`. If the end of the rows is to be known,
every column is known to its end or goes on past them. `Fit` is whatever else is to be known of the
columns; it has to last as they get shorter. -/
def ZipLeft (ends : Prop) (closed : ι → Prop) (Fit : List (ι × List α) → Prop)
    (U : ι → fr.Account α σ) (cursors : ρ → List σ) :
    fr.Account (List α) (Latched ρ) := fun ys l F w =>
  ∃ cols, cols ≠ [] ∧ Fit cols ∧ ys = rows (cols.map Prod.snd) ∧
    (ends → ∀ c ∈ cols, closed c.1 ∨ ys.length < c.2.length) ∧ (l.dry → ys = []) ∧
      ColumnsLeft U cols (cursors l.cursors) F w

/-- A machine that takes rows over the cursors `cursors r`, as `Machine.listRow` does. -/
structure TakesRows (closed : ι → Prop) (U : ι → fr.Account α σ) (Rep : ω → β → List α → Prop)
    (row : Machine ω ρ β) (cursors : ρ → List σ) : Prop where
  hasNext {cols : List (ι × List α)} {r : ρ} {F : fr.Region} {w : ω} : cols ≠ [] →
    (∀ c ∈ cols, c.2 = [] → closed c.1) → ColumnsLeft U cols (cursors r) F w →
      (row.hasNext r).Returns w fun x w' => x.1 = cols.all (fun c => !c.2.isEmpty) ∧
        Reaches (ColumnsLeft U cols (cursors x.2)) F w w'
  next {cols : List (ι × α × List α)} {r : ρ} {F : fr.Region} {w : ω} :
    ColumnsLeft U (cols.map fun c => (c.1, c.2.1 :: c.2.2)) (cursors r) F w →
      (row.next r).Returns w fun x w' =>
        (∃ b, x.1 = .ok b ∧ Rep w' b (cols.map fun c => c.2.1)) ∧
          Reaches (ColumnsLeft U (cols.map fun c => (c.1, c.2.2)) (cursors x.2)) F w w'

variable {ends : Prop} {Rep : ω → β → List α → Prop} {row : Machine ω ρ β} {cursors : ρ → List σ}
variable {Fit : List (ι × List α) → Prop}

theorem TakesRows.latchHasNext (h : TakesRows closed U Rep row cursors) {ys : List (List α)}
    {l : Latched ρ} (hends : ys = [] → ends) (hl : ZipLeft ends closed Fit U cursors ys l F w) :
    (row.latchHasNext l).Returns w fun r w' =>
      r.1 = !ys.isEmpty ∧ Reaches (ZipLeft ends closed Fit U cursors ys r.2) F w w' := by
  obtain ⟨r, dry⟩ := l
  obtain ⟨cols, hcols, hfit, hys, hlong, hdry, hs⟩ := hl
  cases dry with
  | true =>
    have hnil := hdry rfl
    subst hnil
    exact Comp.returns_pure.mpr ⟨rfl, .refl ⟨cols, hcols, hfit, hys, hlong, hdry, hs⟩⟩
  | false =>
    have hempty : ∀ c ∈ cols, c.2 = [] → closed c.1 := by
      intro c hc hnil
      have hrows : ys = [] := by
        rw [hys]
        exact rows_eq_nil (List.mem_map.mpr ⟨c, hc, hnil⟩)
      rcases hlong (hends hrows) c hc with hclosed | hlt
      · exact hclosed
      · rw [hnil] at hlt
        exact absurd hlt (Nat.not_lt_zero _)
    refine (h.hasNext hcols hempty hs).bind ?_
    rintro ⟨more, r⟩ w' ⟨rfl, F', hstep, hs⟩
    rw [← isEmpty_rows hcols, ← hys]
    refine Comp.returns_pure.mpr ⟨rfl, F', hstep, cols, hcols, hfit, hys, hlong, ?_, hs⟩
    intro hdry'
    simpa using hdry'

theorem keeps_zipLeft (hm : ∀ i, fr.Supplies (closed i) Machine.Exactly m (U i))
    (ys : List (List α)) (l : Latched ρ) : fr.Keeps (ZipLeft ends closed Fit U cursors ys l) := by
  refine .of_follows ?_
  intro F w ⟨cols, hcols, hfit, hys, hlong, hdry, hs⟩
  exact ⟨_, keeps_columnsLeft hm cols _, hs,
    fun _ hs' => ⟨cols, hcols, hfit, hys, hlong, hdry, hs'⟩⟩

theorem TakesRows.latch (hm : ∀ i, fr.Supplies (closed i) Machine.Exactly m (U i))
    (h : TakesRows closed U Rep row cursors)
    (hlast : ∀ heads : List (ι × α × List α), Fit (heads.map fun c => (c.1, c.2.1 :: c.2.2)) →
      Fit (heads.map fun c => (c.1, c.2.2))) :
    fr.Supplies ends Rep row.latch (ZipLeft ends closed Fit U cursors) := by
  refine .of_asked (keeps_zipLeft hm) id h.latchHasNext ?_ ?_
  · intro F a ys w ⟨r, dry⟩ ⟨cols, hcols, hfit, hys, hlong, hdry, hs⟩
    -- a row is left, so every column has an element: its head goes, its tail stays
    have hall : ∀ c ∈ cols, c.2 ≠ [] := by
      have hmore := isEmpty_rows hcols
      rw [← hys, List.isEmpty_cons, Bool.not_false, eq_comm, List.all_eq_true] at hmore
      intro c hc
      simpa using hmore c hc
    obtain ⟨heads, rfl⟩ := exists_heads hall
    have hheads : heads ≠ [] := fun hnil => hcols (by rw [hnil]; rfl)
    rw [rows_heads hheads] at hys
    obtain ⟨rfl, rfl⟩ := List.cons.inj hys
    refine (h.next hs).bind ?_
    intro ⟨answer, r⟩ w' ⟨hb, F', hstep, hs⟩
    refine Comp.returns_pure.mpr ⟨hb, F', hstep, _, ?_, hlast heads hfit, rfl, ?_, ?_, hs⟩
    · simpa using hheads
    · intro he c hc
      obtain ⟨d, hd, rfl⟩ := List.mem_map.mp hc
      refine (hlong he _ (List.mem_map_of_mem hd)).imp_right fun hlt => ?_
      exact Nat.lt_of_succ_lt_succ hlt
    · intro hd
      exact absurd (hdry hd) (List.cons_ne_nil _ _)
  · intro F w l _ hl
    exact Comp.returns_pure.mpr ⟨rfl, .refl hl⟩

/-! ## Lists and tuples of cursors -/

theorem takesRows_listRow (hm : ∀ i, fr.Supplies (closed i) Machine.Exactly m (U i)) :
    TakesRows closed U Machine.Exactly m.listRow id where
  hasNext {cols cs F w} hcols hclosed hs := by
    have hne : cs.isEmpty = false := by
      cases cols with
      | nil => exact absurd rfl hcols
      | cons c cols =>
        cases cs with
        | nil => exact hs.elim
        | cons s cs => rfl
    simp only [Machine.listRow, hne, Bool.false_eq_true, if_false]
    exact Supplies.allHaveNext hm hclosed hs
  next hs := by
    refine (Supplies.nextOfAll hm hs).mono ?_
    intro r w' ⟨hr, hs'⟩
    exact ⟨⟨_, hr, rfl⟩, hs'⟩

end Frame

namespace Machine

variable {m : Machine ω σ α}

/-- Asking a tuple of cursors is asking the list of them. -/
theorem tupleHasNext_toList (m : Machine ω σ α) (t : Tuple σ) :
    (do let r ← m.tupleHasNext t; pure (r.1, r.2.toList)) = m.allHaveNext t.toList := by
  -- on the tuple, case by case on each answer: both sides stop at the same cursor
  induction t with
  | pair s t =>
    simp only [tupleHasNext, Tuple.toList, allHaveNext, bind_assoc]
    congr 1
    funext r
    obtain ⟨more, s⟩ := r
    cases more with
    | false => simp [Tuple.toList]
    | true =>
      simp only [if_true, bind_assoc, pure_bind]
      congr 1
      funext r
      obtain ⟨more, t⟩ := r
      cases more <;> simp [Tuple.toList]
  | cons s rest ih =>
    simp only [tupleHasNext, Tuple.toList, allHaveNext, bind_assoc, ← ih]
    congr 1
    funext r
    obtain ⟨more, s⟩ := r
    cases more <;> simp [Tuple.toList]

/-- Taking a row from a tuple of cursors is taking it from the list of them. -/
theorem tupleNext_toList (m : Machine ω σ α) (t : Tuple σ) :
    (do let r ← m.tupleNext t; pure (r.1.map Tuple.toList, r.2.toList)) = m.nextOfAll t.toList := by
  induction t with
  | pair s t =>
    simp only [tupleNext, Tuple.toList, nextOfAll, bind_assoc]
    congr 1
    funext r
    obtain ⟨answer, s⟩ := r
    cases answer with
    | error e => simp [Tuple.toList, Except.map]
    | ok a =>
      simp only [bind_assoc]
      congr 1
      funext r
      obtain ⟨answer, t⟩ := r
      cases answer <;> simp [Tuple.toList, Except.map]
  | cons s rest ih =>
    simp only [tupleNext, Tuple.toList, nextOfAll, bind_assoc, ← ih]
    congr 1
    funext r
    obtain ⟨answer, s⟩ := r
    cases answer with
    | error e => simp [Tuple.toList, Except.map]
    | ok a =>
      simp only [bind_assoc]
      congr 1
      funext r
      obtain ⟨answer, t⟩ := r
      cases answer <;> simp [Tuple.toList, Except.map]

/-- Rows over a tuple of cursors are rows over the list of them. -/
theorem tupleRow_seenAs_listRow (m : Machine ω σ α) :
    m.tupleRow.SeenAs Tuple.toList Tuple.toList m.listRow where
  hasNext t := by
    have hsome : t.toList.isEmpty = false := by cases t <;> rfl
    have hlist : m.listRow.hasNext t.toList = m.allHaveNext t.toList :=
      if_neg (hsome ▸ Bool.false_ne_true)
    rw [hlist]
    exact tupleHasNext_toList m t
  next := tupleNext_toList m

theorem latchHasNext_open (row : Machine ω ρ α) (cursors : ρ) :
    row.latchHasNext ⟨cursors, false⟩ =
      (do let r ← row.hasNext cursors; pure (r.1, ⟨r.2, !r.1⟩)) := rfl

theorem latch_next (row : Machine ω ρ α) (l : Latched ρ) :
    row.latch.next l = (do
      let r ← row.latchHasNext l
      if r.1 then
        let t ← row.next r.2.cursors
        pure (t.1, ⟨t.2, r.2.dry⟩)
      else
        pure (.error .exhausted, r.2)) := rfl

/-- What can be seen of the rows can be seen behind the latch. -/
theorem SeenAs.latch {ρ' : Type} {row : Machine ω ρ α} {row' : Machine ω ρ' β} {f : ρ → ρ'}
    {g : α → β} (h : row.SeenAs f g row') :
    row.latch.SeenAs (fun l => ⟨f l.cursors, l.dry⟩) g row'.latch where
  hasNext l := by
    obtain ⟨cursors, dry⟩ := l
    cases dry with
    | true => rfl
    | false =>
      show (do let r ← row.latchHasNext ⟨cursors, false⟩; _) =
        row'.latchHasNext ⟨f cursors, false⟩
      simp only [latchHasNext_open, ← h.hasNext, bind_assoc, pure_bind]
  next l := by
    obtain ⟨cursors, dry⟩ := l
    cases dry with
    | true => rfl
    | false =>
      simp only [latch_next, latchHasNext_open, ← h.hasNext, bind_assoc, pure_bind]
      refine bind_congr ?_
      rintro ⟨more, cursors⟩
      cases more with
      | false => rfl
      | true => simp only [← h.next, bind_assoc, pure_bind, if_true]

end Machine

namespace Frame

variable {fr : Frame ω} {closed : ι → Prop} {m : Machine ω σ α} {U : ι → fr.Account α σ}

theorem takesRows_tupleRow (hm : ∀ i, fr.Supplies (closed i) Machine.Exactly m (U i)) :
    TakesRows closed U (fun _ row elements => row.toList = elements) m.tupleRow Tuple.toList where
  hasNext {cols t F w} hcols hclosed hs := by
    have hlist := Supplies.allHaveNext hm hclosed hs
    rw [← Machine.tupleHasNext_toList, Comp.returns_bind] at hlist
    refine hlist.mono fun r w' hr => ?_
    rw [Comp.returns_pure] at hr
    exact hr
  next {cols t F w} hs := by
    have hlist := Supplies.nextOfAll hm hs
    rw [← Machine.tupleNext_toList, Comp.returns_bind] at hlist
    refine hlist.mono fun r w' hr => ?_
    rw [Comp.returns_pure] at hr
    obtain ⟨hrow, hs'⟩ := hr
    refine ⟨?_, hs'⟩
    cases hr1 : r.1 with
    | error e =>
      rw [hr1] at hrow
      cases hrow
    | ok row =>
      rw [hr1] at hrow
      exact ⟨row, rfl, Except.ok.inj hrow⟩

end Frame

end LazySeq
