import LazySeq.Proofs.Sequence.Means

/-!
# What rows over several sequences mean

Rows in lockstep (`Sequence.Means.zip`, `Sequence.Means.zipAll`) and the combinators built on them,
and rows that take one element of each sequence in every way (`Sequence.Means.product`,
`Sequence.Means.productOf`).

A product over three sequences or more is a product of two, the second of them a product itself.
Its elements are nested pairs, or rows in a pair, and are made flat by a map: `map_spread_nested`
and `map_prependRow` say that this brings the rows.
-/

namespace LazySeq

open LazySeq.Frame World

variable {ω τ υ : Type} {watch : ω → υ} {ends : Prop} {w : World ω τ} {xs ys : List Value}

/-! ## Several cursors -/

namespace Cursor

variable {N : Nat} {ss : List (Sequence ω τ)} {cols : List (Prop × List Value)}

/-- The cursors on a list of sequences stand side by side. -/
theorem Starts.startList (h : List.Forall₂ (fun s col => Starts watch col.1 N s col.2) ss cols) :
    (Sequence.startList ss).Returns w fun cs w' =>
      Reaches (ColumnsLeft (fun closed => HasLeft watch closed N) cols cs) Region.none w w' := by
  induction h generalizing w with
  | nil => exact Comp.returns_pure.mpr (.refl ⟨rfl, trivial⟩)
  | @cons s _ ss _ hs _ ih =>
    show (do return (← s.start) :: (← Sequence.startList ss) : Comp (World ω τ) _).Returns w _
    refine (hs w).bind ?_
    intro c w' hc
    refine ih.bind ?_
    intro cs w'' hcs
    exact Comp.returns_pure.mpr (.beside (keeps_hasLeft _ c) hc hcs)

/-- Starting a tuple of sequences is starting the list of them. -/
theorem startTuple_toList (t : Tuple (Sequence ω τ)) :
    (do let r ← Sequence.startTuple t; pure r.toList) = Sequence.startList t.toList := by
  induction t with
  | pair a b =>
    show (do
      let r ← (do return Tuple.pair (← a.start) (← b.start))
      pure r.toList : Comp (World ω τ) _) =
        (do return (← a.start) :: (← (do return (← b.start) :: (← pure []))))
    simp [Tuple.toList]
  | cons a rest ih =>
    show (do
      let r ← (do return Tuple.cons (← a.start) (← Sequence.startTuple rest))
      pure r.toList : Comp (World ω τ) _) =
        (do return (← a.start) :: (← Sequence.startList rest.toList))
    rw [← ih]
    simp [Tuple.toList]

theorem Starts.startTuple {t : Tuple (Sequence ω τ)}
    (h : List.Forall₂ (fun s col => Starts watch col.1 N s col.2) t.toList cols) :
    (Sequence.startTuple t).Returns w fun r w' =>
      Reaches (ColumnsLeft (fun closed => HasLeft watch closed N) cols r.toList)
        Region.none w w' := by
  have hlist := Starts.startList (w := w) h
  rw [← startTuple_toList, Comp.returns_bind] at hlist
  refine hlist.mono fun r w' hr => ?_
  rw [Comp.returns_pure] at hr
  exact hr

end Cursor

namespace Sequence

variable {s t : Sequence ω τ} {ss : List (Sequence ω τ)} {cols : List (Prop × List Value)}

/-- The sequences mean the columns; of each it is said whether it is known to its end. -/
def MeanColumns (watch : ω → υ) : List (Sequence ω τ) → List (Prop × List Value) → Prop :=
  List.Forall₂ fun s col => s.Means watch col.1 col.2

/-- Fuel that is enough for each of the sequences. -/
theorem MeanColumns.exists_starts (h : MeanColumns watch ss cols) :
    ∃ N, List.Forall₂ (fun s col => Cursor.Starts watch col.1 N s col.2) ss cols := by
  induction h with
  | nil => exact ⟨0, .nil⟩
  | cons hs _ ih =>
    obtain ⟨N, hs⟩ := hs
    obtain ⟨N', hrest⟩ := ih
    refine ⟨max N N', .cons (hs.mono (Nat.le_max_left N N')) ?_⟩
    exact hrest.imp fun _ _ h => h.mono (Nat.le_max_right N N')

theorem MeanColumns.ne_nil (h : MeanColumns watch ss cols) (hss : ss ≠ []) : cols ≠ [] := by
  rintro rfl
  exact hss (List.forall₂_nil_right_iff.mp h)

/-! ## Lockstep -/

theorem Means.zip_columns {t : Tuple (Sequence ω τ)} (h : MeanColumns watch t.toList cols)
    (hlong : ∀ c ∈ cols, c.1 ∨ (rows (cols.map Prod.snd)).length < c.2.length) :
    (zip t).Means watch True ((rows (cols.map Prod.snd)).map .list) := by
  have hcols : cols ≠ [] := h.ne_nil (by cases t <;> exact List.cons_ne_nil _ _)
  obtain ⟨N, hs⟩ := h.exists_starts
  refine ⟨N + 1, fun w => ?_⟩
  show (do return Cursor.zip ⟨← startTuple t, false⟩ : Comp (World ω τ) _).Returns w _
  refine (Cursor.Starts.startTuple hs).bind ?_
  intro r w' hr
  exact Comp.returns_pure.mpr (hr.mono fun _ => Cursor.hasLeft_zip hcols hlong)

theorem Means.zipAll_columns (hss : ss ≠ []) (h : MeanColumns watch ss cols)
    (hlong : ∀ c ∈ cols, c.1 ∨ (rows (cols.map Prod.snd)).length < c.2.length) :
    (zipAll ss).Means watch True ((rows (cols.map Prod.snd)).map .list) := by
  have hcols := h.ne_nil hss
  obtain ⟨N, hs⟩ := h.exists_starts
  refine ⟨N + 1, fun w => ?_⟩
  show (do return Cursor.zipAll ⟨← startList ss, false⟩ : Comp (World ω τ) _).Returns w _
  refine (Cursor.Starts.startList hs).bind ?_
  intro cs w' hcs
  exact Comp.returns_pure.mpr (hcs.mono fun _ => Cursor.hasLeft_zipAll hcols hlong)

/-- The sequences mean the lists, each to its end. -/
def MeanAll (watch : ω → υ) : List (Sequence ω τ) → List (List Value) → Prop :=
  List.Forall₂ fun s xs => s.Means watch True xs

variable {xss : List (List Value)}

theorem MeanAll.columns (h : MeanAll watch ss xss) :
    MeanColumns watch ss (xss.map ((True, ·))) := by
  induction h with
  | nil => exact .nil
  | cons hs _ ih => exact .cons hs ih

theorem rows_closed (xss : List (List Value)) :
    rows ((xss.map ((True, ·))).map Prod.snd) = rows xss := by
  rw [List.map_map]
  exact congrArg rows (List.map_id xss)

theorem closed_of_mem {n : Nat} {c : Prop × List Value} (hc : c ∈ xss.map ((True, ·))) :
    c.1 ∨ n < c.2.length := by
  obtain ⟨xs, _, rfl⟩ := List.mem_map.mp hc
  exact .inl trivial

theorem Means.zip {t : Tuple (Sequence ω τ)} (h : MeanAll watch t.toList xss) :
    (zip t).Means watch True ((rows xss).map .list) := by
  rw [← rows_closed]
  exact .zip_columns h.columns fun _ => closed_of_mem

theorem Means.zipAll (hss : ss ≠ []) (h : MeanAll watch ss xss) :
    (zipAll ss).Means watch True ((rows xss).map .list) := by
  rw [← rows_closed]
  exact .zipAll_columns hss h.columns fun _ => closed_of_mem

theorem rows_pair {α : Type} (xs ys : List α) : rows [xs, ys] = List.zipWith ([·, ·]) xs ys := by
  rw [rows_cons_cons, rows, List.zipWith_map_right]

theorem Means.zip_pair (hs : s.Means watch True xs) (ht : t.Means watch True ys) :
    (Sequence.zip (.pair s t)).Means watch True (List.zipWith (fun a b => .list [a, b]) xs ys) := by
  have h := Means.zip (t := .pair s t) (.cons hs (.cons ht .nil))
  rw [rows_pair, List.map_zipWith] at h
  exact h

theorem Means.index {key : Fn ω} {g : Value → Value} (hkey : Fn.Maps τ watch key g)
    (h : s.Means watch True xs) :
    (s.index key).Means watch True (xs.map fun v => .list [g v, v]) := by
  have hzip := (h.map hkey).zip_pair h
  rw [List.zipWith_map_left, List.zipWith_self] at hzip
  exact hzip

/-- Elements with their positions. -/
def enumerated (xs : List Value) : List Value :=
  xs.zipIdx.map fun (v, i) => .list [.int i, v]

theorem zipWith_integers (xs : List Value) (n : Nat) :
    List.zipWith (fun a b => Value.list [a, b]) (integers n (xs.length + 1)) xs =
      (xs.zipIdx n).map fun (v, i) => .list [.int i, v] := by
  induction xs generalizing n with
  | nil => exact List.zipWith_nil_right
  | cons v xs ih =>
    rw [integers_succ, List.zipWith_cons_cons, List.zipIdx_cons, List.map_cons]
    exact congrArg _ (ih (n + 1))

/-- Elements with their positions are rows. The numbers go on for ever, so one more of them can be
known than there are elements. -/
theorem map_rows_integers (xs : List Value) :
    (rows [integers 0 (xs.length + 1), xs]).map .list = enumerated xs := by
  rw [rows_pair, List.map_zipWith]
  exact zipWith_integers xs 0

theorem length_integers (n : Int) (k : Nat) : (integers n k).length = k := by
  rw [integers, List.length_map, List.length_range]

theorem Means.enumerate (h : s.Means watch True xs) :
    s.enumerate.Means watch True (enumerated xs) := by
  have hcount : (source (.count 0 none) : Sequence ω τ).Means watch False
      (integers 0 (xs.length + 1)) := means_source (Iterator.brings_count watch 0 _)
  have hcolumns : MeanColumns watch (Tuple.pair (source (.count 0 none)) s).toList
      [(False, integers 0 (xs.length + 1)), (True, xs)] := .cons hcount (.cons h .nil)
  have hzip := Means.zip_columns hcolumns ?_
  · rw [← map_rows_integers]
    exact hzip
  · intro c hc
    rcases List.mem_cons.mp hc with rfl | hc
    · -- the end of the numbers is not known, so there has to be one more of them than rows
      right
      show (rows [integers 0 (xs.length + 1), xs]).length < (integers 0 (xs.length + 1)).length
      have hrows : (rows [integers 0 (xs.length + 1), xs]).length ≤ xs.length :=
        length_rows_le (List.mem_cons_of_mem _ List.mem_cons_self)
      rw [length_integers]
      exact Nat.lt_succ_of_le hrows
    · rw [List.mem_singleton.mp hc]
      exact .inl trivial

/-- A comparison on a row of two. -/
def comparedRow (q : Value → Value → Bool) : Value → Value
  | .list [a, b] => .bool (q a b)
  | row => row

theorem computes_compareRow {compare : Value → Value → Comp ω Bool} {q : Value → Value → Bool}
    (h : ∀ a, Comp.Computes (fun o o' => watch o' = watch o) (compare a) (q a)) :
    Comp.Computes (fun o o' => watch o' = watch o) (compareRow compare) (comparedRow q) := by
  intro row o
  unfold compareRow
  split
  · next a b =>
    rw [map_eq_pure_bind]
    refine (h a b o).bind ?_
    intro r o' ⟨hr, hwatch⟩
    exact Comp.returns_pure.mpr ⟨by rw [hr]; rfl, hwatch⟩
  · next hrow =>
    refine Comp.returns_pure.mpr ⟨?_, rfl⟩
    unfold comparedRow
    split
    · next a b => exact absurd rfl (hrow a b)
    · rfl

theorem Means.equate {compare : Value → Value → Comp ω Bool} {q : Value → Value → Bool}
    (hq : ∀ a, Comp.Computes (fun o o' => watch o' = watch o) (compare a) (q a))
    (hs : s.Means watch True xs) (ht : t.Means watch True ys) :
    (equate compare s t).Means watch True (List.zipWith (fun a b => .bool (q a b)) xs ys) := by
  have hzip := hs.zip_pair ht
  have hmap := hzip.map (Fn.maps_call (computes_compareRow hq))
  rw [List.map_zipWith] at hmap
  exact hmap

/-! ## Products -/

theorem Means.pairs (hs : s.Means watch True xs) (ht : t.Means watch True ys) :
    (s.pairs t).Means watch True ((allPairs xs ys).map Cursor.pairValue) := by
  obtain ⟨N, hs⟩ := hs
  obtain ⟨N', ht⟩ := ht
  have hs := hs.mono (Nat.le_max_left N N')
  have ht := ht.mono (Nat.le_max_right N N')
  exact ⟨_, hs.over (fun c => .pairs t ⟨c, none⟩) rfl fun _ _ _ hc => hc.pairs ht⟩

/-- Every way to take one element of each list; the last varies fastest. -/
def allRows {α : Type} : List (List α) → List (List α)
  | [] => [[]]
  | xs :: xss => xs.flatMap fun a => (allRows xss).map (a :: ·)

theorem allRows_singleton {α : Type} (xs : List α) : allRows [xs] = xs.map ([·]) := by
  rw [allRows, allRows, List.map_eq_flatMap]
  rfl

theorem map_pairs {β : Type} (f : Value → β) (xs ys : List Value) :
    ((allPairs xs ys).map Cursor.pairValue).map f =
      xs.flatMap fun a => ys.map fun b => f (.list [a, b]) := by
  simp [allPairs, Cursor.pairValue, List.map_flatMap, Function.comp_def]

theorem allRows_pair (xs ys : List Value) :
    (allRows [xs, ys]).map .list = (allPairs xs ys).map Cursor.pairValue := by
  rw [allRows, allRows_singleton, ← List.map_id ((allPairs xs ys).map Cursor.pairValue), map_pairs]
  simp [List.map_flatMap, Function.comp_def]

/-- What pairs of pairs mean, nested to the right. -/
def nested : List (List Value) → List Value
  | [] => []
  | [xs] => xs
  | xs :: xss => (allPairs xs (nested xss)).map Cursor.pairValue

theorem spread_zero (v : Value) : spread 0 v = [v] := by
  rw [spread]
  intro k a rest hk
  cases hk

/-- The things in the nested pairs are the rows. -/
theorem map_spread_nested {k : Nat} (h : xss.length = k + 1) :
    (nested xss).map (spread k) = allRows xss := by
  -- on the lists; `nested` and `allRows` part from each other only at the last of them
  induction xss generalizing k with
  | nil => cases h
  | cons xs xss ih =>
    cases xss with
    | nil =>
      obtain rfl : k = 0 := by
        rw [List.length_singleton] at h
        omega
      rw [allRows_singleton]
      exact List.map_congr_left fun v _ => spread_zero v
    | cons ys xss =>
      obtain ⟨k, rfl⟩ : ∃ j, k = j + 1 := ⟨k - 1, by simp only [List.length_cons] at h; omega⟩
      have hrest := ih (k := k) (by simp only [List.length_cons] at h ⊢; omega)
      rw [allRows, ← hrest, nested, map_pairs]
      · simp only [spread, List.map_map, Function.comp_def]
      · exact fun hnil => List.cons_ne_nil ys xss hnil

theorem Means.nestedPairs {t : Tuple (Sequence ω τ)} (h : MeanAll watch t.toList xss) :
    (nestedPairs t).Means watch True (nested xss) := by
  induction t generalizing xss with
  | pair s t =>
    obtain ⟨⟩ | ⟨hs, ⟨⟩ | ⟨ht, ⟨⟩⟩⟩ := h
    exact hs.pairs ht
  | cons s rest ih =>
    obtain ⟨⟩ | ⟨hs, hrest⟩ := h
    -- `nested` of more than one list is a list of pairs, and a tuple has two things at least
    have hne : ∀ xss : List (List Value), MeanAll watch rest.toList xss → xss ≠ [] := by
      rintro _ hnil rfl
      have hlength := hnil.length_eq
      have := rest.two_le_size
      rw [Tuple.length_toList, List.length_nil] at hlength
      omega
    rw [nested]
    · exact hs.pairs (ih hrest)
    · exact hne _ hrest

theorem Means.product {t : Tuple (Sequence ω τ)} (h : MeanAll watch t.toList xss) :
    (product t).Means watch True ((allRows xss).map .list) := by
  cases t with
  | pair s t =>
    obtain ⟨⟩ | ⟨hs, ⟨⟩ | ⟨ht, ⟨⟩⟩⟩ := h
    rw [allRows_pair]
    exact hs.pairs ht
  | cons s rest =>
    have hlength : xss.length = rest.size + 1 := by
      rw [← h.length_eq, Tuple.length_toList, Tuple.size]
    rw [← map_spread_nested hlength, List.map_map]
    exact (Means.nestedPairs h).map (Fn.maps_pure watch _)

theorem map_prependRow (xs : List Value) (rest : List (List Value)) :
    ((allPairs xs (rest.map .list)).map Cursor.pairValue).map prependRow =
      (xs.flatMap fun a => rest.map (a :: ·)).map .list := by
  rw [map_pairs, List.map_flatMap]
  refine congrArg (xs.flatMap ·) (funext fun a => ?_)
  rw [List.map_map, List.map_map]
  rfl

theorem Means.productOf (hs : s.Means watch True xs) (ht : t.Means watch True ys)
    (h : MeanAll watch ss xss) :
    (productOf s t ss).Means watch True ((allRows (xs :: ys :: xss)).map .list) := by
  -- the product of all but the first comes first, and its rows get an element in front
  induction h generalizing s t xs ys with
  | nil =>
    rw [allRows_pair]
    exact hs.pairs ht
  | cons hc _ ih =>
    rw [allRows, ← map_prependRow]
    exact (hs.pairs (ih ht hc)).map (Fn.maps_pure watch _)

end Sequence

end LazySeq
