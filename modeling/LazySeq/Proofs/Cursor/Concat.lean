import LazySeq.Proofs.Cursor.Batches

/-!
# Batches put together again

A concatenation of batches, with windows of positions laid over the batches in between. The outer
cursor hands out batches by their numbers; the inner cursors share the reader with it, so walking a
batch changes the reader under the outer cursor. It changes neither which numbers are still to come
nor what their runs have left (`Windowed.transfer`), since no number comes twice.
-/

namespace LazySeq

open LazySeq.Frame World

variable {ω τ υ : Type} {watch : ω → υ} {ends : Prop} {F F' : (frame τ watch).Region}
variable {w w' : World ω τ} {U : (frame τ watch).Account Value (Cursor ω τ)}
variable {V V' : (frame τ watch).Account Nat (Cursor ω τ)}
variable {r n N limit : Nat} {all : List Value} {ws : List (Window × List Nat)} {ks : List Nat}
variable {c : Cursor ω τ}

/-! ## Windows over the batching cursor -/

/-- Windows over a cursor that hands out batches of reader `r`, the innermost first, each with the
numbers that it selects from. -/
def Windowed (r : Nat) : List (Window × List Nat) → (frame τ watch).Account Nat (Cursor ω τ) →
    (frame τ watch).Account Nat (Cursor ω τ)
  | [], V => V
  | win :: ws, V =>
    Windowed r ws (Cursor.Wrapped (.slice win.1) (SliceLeft (BatchValue r) win.1 win.2 V))

theorem supplies_windowed (hws : ∀ win ∈ ws, win.2.length ≤ limit)
    (hV : ∀ i, N ≤ i → (frame τ watch).Supplies ends (BatchValue r) (Cursor.machine i) V) {i : Nat}
    (hi : max N (limit + 1) + ws.length ≤ i) :
    (frame τ watch).Supplies ends (BatchValue r) (Cursor.machine i) (Windowed r ws V) := by
  induction ws generalizing N V with
  | nil => exact hV i (by rw [List.length_nil] at hi; omega)
  | cons win ws ih =>
    -- the innermost window goes into the account, at the cost of one level of fuel
    have hwin := hws win List.mem_cons_self
    refine ih (N := max N (limit + 1) + 1)
      (fun win' h => hws win' (List.mem_cons_of_mem win h)) ?_ ?_
    · intro j hj
      obtain ⟨k, rfl⟩ := Nat.exists_eq_add_one.mpr (show 0 < j by omega)
      have hrun : Cursor.Runs (ω := ω) (τ := τ) (.slice win.1) fun k =>
          (Cursor.machine k).slice k win.1 := fun _ _ => rfl
      refine Cursor.supplies_wrapped hrun ?_
      exact ((hV k (by omega)).slice BatchValue.mono (by omega)).weaken .inl
    · rw [List.length_cons] at hi
      omega

/-- Under the windows there is the batching cursor. -/
theorem Windowed.base (h : Windowed r ws V ks c F w) : ∃ ks c, V ks c F w := by
  induction ws generalizing V with
  | nil => exact ⟨ks, c, h⟩
  | cons win ws ih =>
    obtain ⟨_, _, s, _, ks, hV, _⟩ := ih h
    exact ⟨ks, _, hV⟩

/-- What the windows have selected and hold does not change with the cursor below them. -/
theorem Windowed.transfer (h : Windowed r ws V ks c F w) (hlater : Later w w')
    (hV : ∀ ks c, V ks c F w → V' ks c F' w') : Windowed r ws V' ks c F' w' := by
  induction ws generalizing V V' with
  | nil => exact hV ks c h
  | cons win ws ih =>
    refine ih h ?_
    intro ks c ⟨s, hc, js, hjs, hreads⟩
    exact ⟨s, hc, js, hV js _ hjs, hreads.mono fun _ _ => BatchValue.mono hlater⟩

/-! ## Batches in a row -/

/-- No batch is being walked. If there are no windows, the batches handed out are through. -/
def BatchIdle (U : (frame τ watch).Account Value (Cursor ω τ)) (n : Nat) (all : List Value)
    (r : Nat) (ws : List (Window × List Nat)) (xss : List (List Value)) (c : Cursor ω τ) :
    (frame τ watch).Assertion := fun F w =>
  ∃ left ks, xss = ks.map left ∧ ks.Nodup ∧ (ws = [] → ∀ j, j ∉ ks → left j = []) ∧
    Windowed r ws (Handing U n all r left) ks c F w

/-- The batch in a cell is being walked. -/
def BatchBusy (U : (frame τ watch).Account Value (Cursor ω τ)) (n : Nat) (all : List Value)
    (r : Nat) (ws : List (Window × List Nat)) (xs : List Value) (xss : List (List Value))
    (c t : Cursor ω τ) : (frame τ watch).Assertion := fun F w =>
  ∃ left k ks id, t = .shared id ∧ BatchValue r w (.cursor id) k ∧ xs = left k ∧
    xss = ks.map left ∧ (k :: ks).Nodup ∧ (ws = [] → ∀ j, j ∉ k :: ks → left j = []) ∧
      Windowed r ws (Handing U n all r left) ks c F w

/-- The bench under the windows, and how a change of it passes through them. -/
theorem Windowed.bench {left : Nat → List Value}
    (h : Windowed r ws (Handing U n all r left) ks c F w) : ∃ handed,
      Bench U n all r ⟨handed, left⟩ F w ∧ ∀ {left' : Nat → List Value} {F' w'},
        (frame τ watch).Step F w F' w' → Bench U n all r ⟨handed, left'⟩ F' w' →
          Windowed r ws (Handing U n all r left') ks c F' w' := by
  obtain ⟨_, _, rfl, handed, _, hbench⟩ := h.base
  refine ⟨handed, hbench, fun {left' F' w'} hstep hbench' => h.transfer hstep.grows ?_⟩
  intro js c' ⟨hc', handed', hjs, h'⟩
  have heq : handed' = handed := h'.handed_eq hbench
  subst heq
  exact ⟨hc', handed', hjs, hbench'⟩

section Feeds

variable {i : Nat} (houter : ∀ left, (frame τ watch).Supplies ends (BatchValue r)
  (Cursor.machine i) (Windowed r ws (Handing U n all r left)))
include houter

theorem keeps_batchIdle (xss : List (List Value)) (c : Cursor ω τ) :
    (frame τ watch).Keeps (BatchIdle U n all r ws xss c) := by
  refine .of_follows ?_
  intro F w ⟨left, ks, hxss, hnodup, hleft, h⟩
  exact ⟨_, (houter left).keeps ks c, h, fun _ h' => ⟨left, ks, hxss, hnodup, hleft, h'⟩⟩

theorem keeps_batchBusy (xs : List Value) (xss : List (List Value)) (c t : Cursor ω τ) :
    (frame τ watch).Keeps (BatchBusy U n all r ws xs xss c t) := by
  refine .of_follows ?_
  intro F w ⟨left, k, ks, id, ht, hk, hxs, hxss, hnodup, hleft, h⟩
  refine ⟨_, (houter left).keeps ks c, h, fun hlater h' => ?_⟩
  exact ⟨left, k, ks, id, ht, hk.mono hlater, hxs, hxss, hnodup, hleft, h'⟩

theorem BatchIdle.outer_hasNext {xss : List (List Value)} (hends : xss = [] → ends)
    (h : BatchIdle U n all r ws xss c F w) :
    ((Cursor.machine i).hasNext c).Returns w fun x w' =>
      x.1 = !xss.isEmpty ∧ Reaches (BatchIdle U n all r ws xss x.2) F w w' := by
  obtain ⟨left, ks, rfl, hnodup, hleft, h⟩ := h
  have hends' : ks = [] → ends := fun hnil => hends (by rw [hnil]; rfl)
  refine ((houter left).hasNext hends' h).mono ?_
  intro x w' ⟨hx, hreach⟩
  refine ⟨?_, hreach.mono fun F' h' => ⟨left, ks, rfl, hnodup, hleft, h'⟩⟩
  rw [hx, List.isEmpty_map]

theorem BatchIdle.outer_next {xs : List Value} {xss : List (List Value)}
    (h : BatchIdle U n all r ws (xs :: xss) c F w) :
    (((Cursor.machine i).map fun v => return Cursor.ofValue v).next c).Returns w fun x w' =>
      ∃ t, x.1 = .ok t ∧ Reaches (BatchBusy U n all r ws xs xss x.2 t) F w w' := by
  obtain ⟨left, ks, hxss, hnodup, hleft, h⟩ := h
  cases ks with
  | nil => cases hxss
  | cons k ks =>
    obtain ⟨rfl, rfl⟩ := List.cons.inj hxss
    refine ((houter left).next_cons h).bind ?_
    rintro ⟨answer, c'⟩ w' ⟨⟨v, rfl, hv⟩, F', hstep, h'⟩
    obtain ⟨id, b, rfl, hcell, hb, hk⟩ := hv
    refine Comp.returns_pure.mpr ⟨.shared id, rfl, F', hstep, ?_⟩
    exact ⟨left, k, ks, id, rfl, ⟨id, b, rfl, hcell, hb, hk⟩, rfl, rfl, hnodup, hleft, h'⟩

omit houter in
/-- Walking the batch in the cell: what is known of the bench, and how to come back from it. -/
theorem BatchBusy.bench {xs : List Value} {xss : List (List Value)} {t : Cursor ω τ}
    (h : BatchBusy U n all r ws xs xss c t F w) : ∃ left k id handed,
      t = .shared id ∧ w.cells[id]? = some (.batch k r) ∧ k < handed ∧ left k = xs ∧
        Bench U n all r ⟨handed, left⟩ F w ∧
        (ws = [] → all.length ≤ handed * n → 0 < n → xss = []) ∧
        ∀ {xs' F' w'}, (frame τ watch).Step F w F' w' →
          Bench U n all r ⟨handed, fun j => if j = k then xs' else left j⟩ F' w' →
            BatchBusy U n all r ws xs' xss c t F' w' := by
  obtain ⟨left, k, ks, id, rfl, hv, rfl, rfl, hnodup, hleft, h⟩ := h
  obtain ⟨handed, hbench, hback⟩ := h.bench
  have hv' := hv
  obtain ⟨id', b, hid, hcell, hb, hk⟩ := hv'
  obtain rfl := Value.cursor.inj hid
  rw [hbench.size_eq hb] at hk
  refine ⟨left, k, id, handed, rfl, hcell, hk, rfl, hbench, ?_, ?_⟩
  · intro hws hle hn
    subst hws
    obtain ⟨_, handed', hks, hbench'⟩ := h
    have heq : handed' = handed := hbench'.handed_eq hbench
    subst heq
    rw [hks, (range'_runs_eq_nil hn all handed').mpr hle]
    rfl
  · intro xs' F' w' hstep hbench'
    -- the number being walked comes once, so no other run is touched
    have hother : ks.map (fun j => if j = k then xs' else left j) = ks.map left := by
      refine List.map_congr_left fun j hj => if_neg ?_
      rintro rfl
      exact (List.nodup_cons.mp hnodup).1 hj
    refine ⟨_, k, ks, id, rfl, hv.mono hstep.grows, (if_pos rfl).symm, hother.symm, hnodup, ?_,
      hback hstep hbench'⟩
    intro hws j hj
    rw [if_neg (List.ne_of_not_mem_cons hj)]
    exact hleft hws j hj

omit houter in
/-- A batch that is dry is through. -/
theorem BatchBusy.idle {xss : List (List Value)} {t : Cursor ω τ}
    (h : BatchBusy U n all r ws [] xss c t F w) : BatchIdle U n all r ws xss c F w := by
  obtain ⟨left, k, ks, id, _, _, hxs, hxss, hnodup, hleft, h⟩ := h
  refine ⟨left, ks, hxss, (List.nodup_cons.mp hnodup).2, fun hws j hj => ?_, h⟩
  by_cases hjk : j = k
  · rw [hjk, ← hxs]
  · exact hleft hws j fun hmem => (List.mem_cons.mp hmem).elim hjk hj

end Feeds

section Inner

variable {xs : List Value} {xss : List (List Value)} {t : Cursor ω τ}
variable (hU : (frame τ watch).Supplies ends Machine.Exactly (Cursor.machine N) U)
include hU

/-- Asking the batch that is walked asks the cursor below only where that is known to end: if the
last batch is dry and no window stands between, nothing comes after it. -/
theorem BatchBusy.inner_hasNext (hn : 0 < n) (hends : ws = [] ∨ ends)
    (hempty : xs = [] → xss = [] → ends) (h : BatchBusy U n all r ws xs xss c t F w) :
    ((Cursor.machine (N + 2)).hasNext t).Returns w fun x w' =>
      x.1 = !xs.isEmpty ∧ Reaches (BatchBusy U n all r ws xs xss c x.2) F w w' := by
  obtain ⟨left, k, id, handed, rfl, hcell, hk, rfl, hbench, hlast, hback⟩ := h.bench
  have hends' : left k = [] → all.length ≤ handed * n → ends := fun hl hle =>
    hends.elim (fun hws => hempty hl (hlast hws hle hn)) fun he => he
  refine (hbench.cell_hasNext hU hcell hk hends').mono ?_
  rintro ⟨more, t⟩ w' ⟨rfl, rfl, F', hstep, hbench'⟩
  have hself : (fun j => if j = k then left k else left j) = left := by
    funext j
    split
    · next hj => rw [hj]
    · rfl
  exact ⟨rfl, F', hstep, hback hstep (by rw [hself]; exact hbench')⟩

theorem BatchBusy.inner_next {a : Value} (h : BatchBusy U n all r ws (a :: xs) xss c t F w) :
    ((Cursor.machine (N + 2)).next t).Returns w fun x w' =>
      x.1 = .ok a ∧ Reaches (BatchBusy U n all r ws xs xss c x.2) F w w' := by
  obtain ⟨left, k, id, handed, rfl, hcell, hk, hl, hbench, -, hback⟩ := h.bench
  refine (hbench.cell_next hU hcell hk hl).mono ?_
  rintro ⟨answer, t⟩ w' ⟨rfl, rfl, F', hstep, hbench'⟩
  exact ⟨rfl, F', hstep, hback hstep hbench'⟩

end Inner

variable (U n all r) in
/-- What `Frame.Feeds` asks of batches in a row. -/
theorem feeds_batches (hn : 0 < n) (hends : ws = [] ∨ ends)
    (hU : ∀ i, N ≤ i → (frame τ watch).Supplies ends Machine.Exactly (Cursor.machine i) U)
    (hws : ∀ win ∈ ws, win.2.length ≤ limit) {i : Nat}
    (hi : max (N + 1) (limit + 1) + ws.length < i) :
    Feeds ends Machine.Exactly ((Cursor.machine i).map fun v => return Cursor.ofValue v)
      (Cursor.machine i) (BatchIdle U n all r ws) (BatchBusy U n all r ws) := by
  have houter : ∀ left, (frame τ watch).Supplies ends (BatchValue r) (Cursor.machine i)
      (Windowed r ws (Handing U n all r left)) := by
    intro left
    refine supplies_windowed hws (N := N + 1) (fun j hj => ?_) (Nat.le_of_lt hi)
    obtain ⟨k, rfl⟩ := Nat.exists_eq_add_one.mpr (Nat.zero_lt_of_lt hj)
    exact supplies_handing hn (hU k (Nat.le_of_succ_le_succ hj))
  -- a batch is reached through its cell and its reader, so its elements come from two levels down
  obtain ⟨j, rfl⟩ : ∃ j, i = j + 2 := ⟨i - 2, by omega⟩
  have hinner := hU j (by omega)
  refine ⟨keeps_batchIdle houter, keeps_batchBusy houter, BatchIdle.outer_hasNext houter,
    BatchIdle.outer_next houter, ?_, ?_, ?_⟩
  · intro xs xss c t F w hempty h
    exact h.inner_hasNext hinner hn hends hempty
  · intro a xs xss c t F w h
    refine (h.inner_next hinner).mono ?_
    intro x w' ⟨hx, hreach⟩
    exact ⟨⟨a, hx, rfl⟩, hreach⟩
  · intro xss c t F w h
    exact h.idle

/-! ## The beginning -/

/-- Each window with what it selects from, where the innermost selects from `ks`. -/
def withSelected : List Window → List Nat → List (Window × List Nat)
  | [], _ => []
  | win :: wins, ks => (win, ks) :: withSelected wins (win.of ks)

theorem length_withSelected (wins : List Window) (ks : List Nat) :
    (withSelected wins ks).length = wins.length := by
  induction wins generalizing ks with
  | nil => rfl
  | cons win wins ih => rw [withSelected, List.length_cons, List.length_cons, ih]

theorem length_le_of_mem_withSelected {wins : List Window} {win : Window × List Nat}
    (h : win ∈ withSelected wins ks) : win.2.length ≤ ks.length := by
  induction wins generalizing ks with
  | nil => cases h
  | cons first wins ih =>
    rcases List.mem_cons.mp h with rfl | hmem
    · exact Nat.le_refl _
    · exact Nat.le_trans (ih hmem) (Window.of_sublist ks).length_le

/-- What is selected by windows laid one over the other, the innermost first. -/
def Window.ofAll {α : Type} (wins : List Window) (xs : List α) : List α :=
  wins.foldl (fun xs win => win.of xs) xs

theorem Window.ofAll_map {α β : Type} (f : α → β) (wins : List Window) (xs : List α) :
    ofAll wins (xs.map f) = (ofAll wins xs).map f := by
  induction wins generalizing xs with
  | nil => rfl
  | cons win wins ih =>
    have hwin := ih (win.of xs)
    rw [← Window.of_map] at hwin
    exact hwin

theorem Window.ofAll_sublist {α : Type} (wins : List Window) (xs : List α) :
    (ofAll wins xs).Sublist xs := by
  induction wins generalizing xs with
  | nil => exact List.Sublist.refl xs
  | cons win wins ih => exact (ih (win.of xs)).trans (win.of_sublist xs)

/-- Windows laid over a cursor. -/
def Cursor.windows (wins : List Window) (c : Cursor ω τ) : Cursor ω τ :=
  wins.foldl (fun c win => .slice win (.fresh ⟨c, 0⟩)) c

theorem windowed_fresh {wins : List Window} (h : V ks c F w) :
    Windowed r (withSelected wins ks) V (Window.ofAll wins ks) (c.windows wins) F w := by
  induction wins generalizing ks c V with
  | nil => exact h
  | cons win wins ih => exact ih ⟨_, rfl, sliceLeft_fresh h⟩

/-- The runs of a list, by their numbers. -/
theorem map_left_lay (hn : 0 < n) (all : List Value) :
    (List.range (runs n all).length).map (Desk.lay n all).left = runs n all := by
  refine List.ext_getElem? fun k => ?_
  have hlt := lt_length_runs hn all k
  rw [List.getElem?_map, getElem?_runs hn]
  by_cases hk : k * n < all.length
  · rw [if_pos hk, List.getElem?_range (hlt.mpr hk)]
    rfl
  · have hle : (runs n all).length ≤ k := Nat.not_lt.mp fun h => hk (hlt.mp h)
    rw [if_neg hk, List.getElem?_eq_none (by rw [List.length_range]; exact hle)]
    rfl

/-- A new batching cursor, with windows over it, has all runs before it. -/
theorem batchIdle_fresh (hn : 0 < n) (wins : List Window)
    (h : Sep (ReaderAt watch r (.fresh c)) (U all c) F w) :
    BatchIdle U n all r (withSelected wins (List.range (runs n all).length))
      (Window.ofAll wins (runs n all)) (Cursor.windows wins (.batches n r)) F w := by
  refine ⟨(Desk.lay n all).left, Window.ofAll wins (List.range (runs n all).length), ?_, ?_, ?_, ?_⟩
  · rw [← Window.ofAll_map, map_left_lay hn]
  · exact (Window.ofAll_sublist wins _).nodup List.nodup_range
  · -- without windows no number is left out, so what is not among them is no run
    intro hws j hj
    have hwins : wins = [] := by
      rw [← List.length_eq_zero_iff, ← length_withSelected wins, hws]
      rfl
    subst hwins
    have hle : ¬ j < (runs n all).length := fun hlt => hj (List.mem_range.mpr hlt)
    rw [lt_length_runs hn] at hle
    show (all.drop (j * n)).take n = []
    rw [List.drop_eq_nil_of_le (Nat.not_lt.mp hle), List.take_nil]
  · exact windowed_fresh (handing_fresh h)

/-- The account of a concatenation of batches of reader `r`. -/
def ConcatLeft (U : (frame τ watch).Account Value (Cursor ω τ)) (n : Nat) (all : List Value)
    (wins : List Window) (r : Nat) :
    (frame τ watch).Account Value (Nested (Cursor ω τ) (Cursor ω τ)) :=
  FlatLeft (runs n all).length
    (BatchIdle U n all r (withSelected wins (List.range (runs n all).length)))
    (BatchBusy U n all r (withSelected wins (List.range (runs n all).length)))

theorem concatLeft_fresh (hn : 0 < n) (wins : List Window)
    (h : Sep (ReaderAt watch r (.fresh c)) (U all c) F w) :
    ConcatLeft U n all wins r (Window.ofAll wins (runs n all)).flatten
      ⟨Cursor.windows wins (.batches n r), none⟩ F w :=
  ⟨Window.ofAll wins (runs n all), rfl, (Window.ofAll_sublist wins _).length_le,
    batchIdle_fresh hn wins h⟩

theorem supplies_concat (hn : 0 < n) {wins : List Window} (hends : wins = [] ∨ ends)
    (hU : ∀ i, N ≤ i → (frame τ watch).Supplies ends Machine.Exactly (Cursor.machine i) U) {i : Nat}
    (hi : max N all.length + wins.length + 1 < i) :
    (frame τ watch).Supplies ends Machine.Exactly
      (((Cursor.machine i).map fun v => return Cursor.ofValue v).flatten i (Cursor.machine i))
      (ConcatLeft U n all wins r) := by
  have hcount := length_runs_le n all
  have hlimit : ∀ win ∈ withSelected wins (List.range (runs n all).length),
      win.2.length ≤ (runs n all).length := fun win hwin => by
    have hle := length_le_of_mem_withSelected hwin
    rwa [List.length_range] at hle
  refine Feeds.flatten (feeds_batches U r n all hn ?_ hU hlimit ?_) (by omega)
  · refine hends.imp_left fun hwins => ?_
    rw [hwins]
    rfl
  · rw [length_withSelected]
    omega

theorem Cursor.hasLeft_concat (hn : 0 < n) (wins : List Window)
    (h : Sep (ReaderAt watch r (.fresh c)) (HasLeft watch True N all c) F w) :
    HasLeft watch True (max N all.length + wins.length + 3)
      (Window.ofAll wins (runs n all)).flatten
      (.concat ⟨Cursor.windows wins (.batches n r), none⟩) F w := by
  refine hasLeft_of_stage .concat (fun _ _ => rfl)
    (U := ConcatLeft (HasLeft watch True N) n all wins r) (fun i hi => ?_)
    (concatLeft_fresh hn wins h)
  exact supplies_concat hn (.inr trivial) (fun j hj => supplies_hasLeft hj) (by omega)

end LazySeq
