import LazySeq.Proofs.Batch.AnyOrder
import LazySeq.Proofs.Cursor.HasLeft

/-!
# Batches of a shared reader

A batching cursor of a running program and the batches it handed out live in different places and
reach the cursor they read from through a shared reader. `Bench` is the desk of
`Batch.AnyOrder` laid out there: what each run of the reader's elements has left, and how many were
handed out as batches.

The batching cursor supplies the numbers of the runs that were not handed out yet (`Handing`). What
it hands out is a cursor in a cell, which stands for the number of its run (`BatchValue`).
-/

namespace LazySeq

open LazySeq.Frame World Batching

variable {ω τ υ : Type} {watch : ω → υ} {ends : Prop} {F : (frame τ watch).Region} {w : World ω τ}
variable {m : Machine (World ω τ) (Cursor ω τ) Value}
variable {U : (frame τ watch).Account Value (Cursor ω τ)}

/-! ## The account of batches beside others -/

/-- `Batching.Account` as an assertion. -/
def Shelved (U : (frame τ watch).Account Value (Cursor ω τ)) (lefts : List (List Value))
    (rest : List Value) (b : Batching (Cursor ω τ) Value) : (frame τ watch).Assertion :=
  fun F w => ∃ xs, U xs b.reader F w ∧ b.Stands lefts rest xs

/-- The account of the batches of reader `r`, with the place of that reader. -/
def BatchesLeft (U : (frame τ watch).Account Value (Cursor ω τ)) (r : Nat)
    (lefts : List (List Value)) (rest : List Value) : (frame τ watch).Assertion :=
  fun F w => ∃ b, Sep (ReaderAt watch r b) (Shelved U lefts rest b) F w

variable {r n : Nat} {lefts lefts' : List (List Value)} {rest rest' : List Value}

theorem account_after {b : Batching (Cursor ω τ) Value} {w' : World ω τ} :
    Account (After U F w) lefts rest w' b ↔ Reaches (Shelved U lefts rest b) F w w' := by
  constructor
  · intro ⟨xs, ⟨F', hstep, hxs⟩, hb⟩
    exact ⟨F', hstep, xs, hxs, hb⟩
  · intro ⟨F', hstep, xs, hxs, hb⟩
    exact ⟨xs, ⟨F', hstep, hxs⟩, hb⟩

theorem keeps_shelved (hU : (frame τ watch).Supplies ends Machine.Exactly m U)
    (b : Batching (Cursor ω τ) Value) : (frame τ watch).Keeps (Shelved U lefts rest b) := by
  refine .of_follows ?_
  intro F w ⟨xs, hxs, hb⟩
  exact ⟨_, hU.keeps xs _, hxs, fun _ hxs' => ⟨xs, hxs', hb⟩⟩

theorem keeps_batchesLeft (hU : (frame τ watch).Supplies ends Machine.Exactly m U) :
    (frame τ watch).Keeps (BatchesLeft U r lefts rest) := by
  refine .of_follows ?_
  intro F w ⟨b, hb⟩
  exact ⟨_, (keeps_readerAt r b).sep (keeps_shelved hU b), hb, fun _ hb' => ⟨b, hb'⟩⟩

/-- The reader has handed out as many batches as there are entries in the account. -/
theorem BatchesLeft.size_eq (h : BatchesLeft U r lefts rest F w) {b : Batching (Cursor ω τ) Value}
    (hb : w.readers[r]? = some b) : b.shelves.size = lefts.length := by
  obtain ⟨b', F₁, F₂, -, -, ⟨-, hb'⟩, xs, -, hst⟩ := h
  rw [hb] at hb'
  obtain rfl := Option.some.inj hb'
  exact hst.size_eq

/-- A call that is known to move the account of batches moves it on a shared reader too. -/
theorem inReader_batches {α : Type} (hU : (frame τ watch).Supplies ends Machine.Exactly m U)
    {call : Batching (Cursor ω τ) Value → Comp (World ω τ) (α × Batching (Cursor ω τ) Value)}
    {Q : α → Prop} (lefts' : List (List Value)) (rest' : List Value)
    (hlen : lefts.length ≤ lefts'.length) (h : BatchesLeft U r lefts rest F w)
    (hcall : ∀ {Left w b}, m.Supplies ends Machine.Exactly Left → Account Left lefts rest w b →
      (call b).Returns w fun x w' => Q x.1 ∧ Account Left lefts' rest' w' x.2) :
    (inReader call r).Returns w fun x w' =>
      x.2 = r ∧ Q x.1 ∧ Reaches (BatchesLeft U r lefts' rest') F w w' := by
  obtain ⟨b, hb⟩ := h
  have hsize : b.shelves.size = lefts.length := by
    obtain ⟨F₁, F₂, -, -, -, xs, -, hst⟩ := hb
    exact hst.size_eq
  refine (inReader_returns (P := fun _ b' => Shelved U lefts' rest' b') (Q := fun a _ => Q a) hb
    (fun _ b' => keeps_shelved hU b') fun F₂ hF₂ => ?_).mono ?_
  · -- the call is known in one world at a time: take the places it owns for that world
    refine (hcall (hU.after F₂ w) (account_after.mpr (.refl hF₂))).mono ?_
    intro x w' ⟨hx, hacc⟩
    refine ⟨?_, hx, account_after.mp hacc⟩
    obtain ⟨xs, -, hst⟩ := hacc
    rw [hsize, hst.size_eq]
    exact hlen
  · intro x w' ⟨hr, b', hx, hreach⟩
    exact ⟨hr, hx, hreach.mono fun _ hF' => ⟨b', hF'⟩⟩

/-! ## The bench -/

/-- The desk `d` over the list `all`, laid out on reader `r`. -/
def Bench (U : (frame τ watch).Account Value (Cursor ω τ)) (n : Nat) (all : List Value) (r : Nat)
    (d : Desk Value) : (frame τ watch).Assertion := fun F w =>
  ∃ lefts rest, d.Agrees n all lefts rest ∧ BatchesLeft U r lefts rest F w

variable {all : List Value} {d : Desk Value}

theorem keeps_bench (hU : (frame τ watch).Supplies ends Machine.Exactly m U) :
    (frame τ watch).Keeps (Bench U n all r d) := by
  refine .of_follows ?_
  intro F w ⟨lefts, rest, hd, h⟩
  exact ⟨_, keeps_batchesLeft hU, h, fun _ h' => ⟨lefts, rest, hd, h'⟩⟩

theorem Bench.size_eq (h : Bench U n all r d F w) {b : Batching (Cursor ω τ) Value}
    (hb : w.readers[r]? = some b) : b.shelves.size = d.handed := by
  obtain ⟨lefts, rest, hd, h⟩ := h
  rw [h.size_eq hb, hd.length_eq]

theorem Bench.reader (h : Bench U n all r d F w) : ∃ b, w.readers[r]? = some b := by
  obtain ⟨_, _, _, b, _, _, _, _, ⟨_, hb⟩, _⟩ := h
  exact ⟨b, hb⟩

/-- The number of batches handed out can be read off the world. -/
theorem Bench.handed_eq {d' : Desk Value} (h : Bench U n all r d F w)
    (h' : Bench U n all r d' F w) : d.handed = d'.handed := by
  obtain ⟨b, hb⟩ := h.reader
  rw [← h.size_eq hb, h'.size_eq hb]

theorem Bench.batches_hasNext (hU : (frame τ watch).Supplies ends Machine.Exactly m U)
    (hends : all.length ≤ d.handed * n → ends) (h : Bench U n all r d F w) :
    (inReader (m.batches n).hasNext r).Returns w fun x w' => x.2 = r ∧
      x.1 = decide (d.handed * n < all.length) ∧ Reaches (Bench U n all r d) F w w' := by
  obtain ⟨lefts, rest, hd, h⟩ := h
  have hrest : rest = [] → ends := fun hnil => hends (by
    rw [hd.rest_eq] at hnil
    exact List.drop_eq_nil_iff.mp hnil)
  refine (inReader_batches hU (Q := fun more => more = !rest.isEmpty) lefts rest (Nat.le_refl _) h
    fun hm hb => ?_).mono ?_
  · refine (hm.batchesHasNext hrest hb).mono ?_
    intro x w' ⟨hx, _, hs, hst⟩
    exact ⟨hx, rest, hs, hst⟩
  · intro x w' ⟨hr, hx, hreach⟩
    exact ⟨hr, hx.trans hd.isEmpty_rest, hreach.mono fun _ h => ⟨lefts, rest, hd, h⟩⟩

theorem Bench.batches_next_cons (hU : (frame τ watch).Supplies ends Machine.Exactly m U)
    (hmore : d.handed * n < all.length) (h : Bench U n all r d F w) :
    (inReader (m.batches n).next r).Returns w fun x w' => x.2 = r ∧ x.1 = .ok d.handed ∧
      Reaches (Bench U n all r ⟨d.handed + 1, d.left⟩) F w w' := by
  obtain ⟨lefts, rest, hd, h⟩ := h
  have hrest : rest ≠ [] := by
    have hempty := hd.isEmpty_rest
    simpa [hmore] using hempty
  refine (inReader_batches hU (Q := fun answer => answer = .ok lefts.length)
    (lefts ++ [rest.take n]) (rest.drop n) (by simp) h fun hm hb => ?_).mono ?_
  · exact hm.batches_next_cons hrest hb
  · intro x w' ⟨hr, hx, hreach⟩
    rw [hd.length_eq] at hx
    exact ⟨hr, hx, hreach.mono fun _ h => ⟨_, _, hd.hand, h⟩⟩

theorem Bench.batches_next_nil (hU : (frame τ watch).Supplies ends Machine.Exactly m U)
    (he : ends) (hmore : all.length ≤ d.handed * n) (h : Bench U n all r d F w) :
    (inReader (m.batches n).next r).Returns w fun x w' => x.2 = r ∧ x.1 = .error .exhausted ∧
      Reaches (Bench U n all r d) F w w' := by
  obtain ⟨lefts, rest, hd, h⟩ := h
  have hrest : rest = [] := by
    rw [hd.rest_eq]
    exact List.drop_eq_nil_of_le hmore
  subst hrest
  refine (inReader_batches hU (Q := fun answer => answer = .error .exhausted) lefts []
    (Nat.le_refl _) h fun hm hb => ?_).mono ?_
  · exact hm.batches_next_nil he hb
  · intro x w' ⟨hr, hx, hreach⟩
    exact ⟨hr, hx, hreach.mono fun _ h => ⟨lefts, [], hd, h⟩⟩

theorem Bench.batch_hasNext (hU : (frame τ watch).Supplies ends Machine.Exactly m U) {k : Nat}
    (hk : k < d.handed) (hends : d.left k = [] → all.length ≤ d.handed * n → ends)
    (h : Bench U n all r d F w) :
    (inReader (m.batch k).hasNext r).Returns w fun x w' => x.2 = r ∧
      x.1 = (!(d.left k).isEmpty) ∧ Reaches (Bench U n all r d) F w w' := by
  obtain ⟨lefts, rest, hd, h⟩ := h
  have hends' : d.left k = [] → rest = [] → ends := fun hl hnil => hends hl (by
    rw [hd.rest_eq] at hnil
    exact List.drop_eq_nil_iff.mp hnil)
  refine (inReader_batches hU (Q := fun more => more = !(d.left k).isEmpty) lefts rest
    (Nat.le_refl _) h fun hm hb => ?_).mono ?_
  · refine (hm.batchHasNext (hd.getElem?_of_lt hk) hends' hb).mono ?_
    intro x w' ⟨hx, _, _, hacc⟩
    exact ⟨hx, hacc⟩
  · intro x w' ⟨hr, hx, hreach⟩
    exact ⟨hr, hx, hreach.mono fun _ h => ⟨lefts, rest, hd, h⟩⟩

theorem Bench.batch_next (hU : (frame τ watch).Supplies ends Machine.Exactly m U) {k : Nat}
    {a : Value} {l : List Value} (hk : k < d.handed) (hl : d.left k = a :: l)
    (h : Bench U n all r d F w) :
    (inReader (m.batch k).next r).Returns w fun x w' => x.2 = r ∧ x.1 = .ok a ∧
      Reaches (Bench U n all r ⟨d.handed, fun j => if j = k then l else d.left j⟩) F w w' := by
  obtain ⟨lefts, rest, hd, h⟩ := h
  have hleft := hd.getElem?_of_lt hk
  rw [hl] at hleft
  refine (inReader_batches hU (Q := fun answer => answer = .ok a) (lefts.set k l) rest (by simp)
    h fun hm hb => ?_).mono ?_
  · exact hm.batch_next_cons hleft hb
  · intro x w' ⟨hr, hx, hreach⟩
    exact ⟨hr, hx, hreach.mono fun _ h => ⟨_, _, hd.read hk l, h⟩⟩

/-- A call on a batch is replied to as on the desk. -/
theorem Bench.batch_call (hU : (frame τ watch).Supplies True Machine.Exactly m U) {k : Nat}
    (hk : k < d.handed) (ask : Ask) (h : Bench U n all r d F w) :
    (inReader ((m.batch k).call ask) r).Returns w fun x w' => x.2 = r ∧
      x.1 = (ListCursor.call ask (d.left k)).1 ∧
        Reaches (Bench U n all r ⟨d.handed, fun j =>
          if j = k then (ListCursor.call ask (d.left k)).2 else d.left j⟩) F w w' := by
  obtain ⟨lefts, rest, hd, h⟩ := h
  refine (inReader_batches hU (Q := fun reply => reply = (ListCursor.call ask (d.left k)).1)
    (lefts.set k (ListCursor.call ask (d.left k)).2) rest (by simp) h fun hm hb => ?_).mono ?_
  · exact hm.batch_call (hd.getElem?_of_lt hk) hb ask
  · intro x w' ⟨hr, hx, hreach⟩
    exact ⟨hr, hx, hreach.mono fun _ h => ⟨_, _, hd.read hk _, h⟩⟩

/-! ## The batching cursor -/

/-- A cursor in a cell that stands for batch `k` of reader `r`, which was handed out. -/
def BatchValue (r : Nat) (w : World ω τ) (v : Value) (k : Nat) : Prop :=
  ∃ id b, v = .cursor id ∧ w.cells[id]? = some (.batch k r) ∧ w.readers[r]? = some b ∧
    k < b.shelves.size

theorem BatchValue.mono {w' : World ω τ} {v : Value} {k : Nat} (hlater : Later w w')
    (h : BatchValue r w v k) : BatchValue r w' v k := by
  obtain ⟨id, b, hv, hcell, hb, hk⟩ := h
  obtain ⟨b', hb', hle⟩ := hlater.readers r b hb
  exact ⟨id, b', hv, hlater.cells id _ hcell, hb', Nat.lt_of_lt_of_le hk hle⟩

theorem BatchValue.cell {id : CursorId} {k : Nat} (h : BatchValue r w (.cursor id) k) :
    w.cells[id]? = some (.batch k r) := by
  obtain ⟨id', b, hid, hcell, -⟩ := h
  cases hid
  exact hcell

/-- The batching cursor has the numbers of the runs left that were not handed out, where `left` is
what each run has left, handed out or not. -/
def Handing (U : (frame τ watch).Account Value (Cursor ω τ)) (n : Nat) (all : List Value) (r : Nat)
    (left : Nat → List Value) : (frame τ watch).Account Nat (Cursor ω τ) := fun ks c F w =>
  c = .batches n r ∧ ∃ handed, ks = List.range' handed ((runs n all).length - handed) ∧
    Bench U n all r ⟨handed, left⟩ F w

/-- A new batching cursor has all runs before it. -/
theorem handing_fresh {c : Cursor ω τ} (h : Sep (ReaderAt watch r (.fresh c)) (U all c) F w) :
    Handing U n all r (Desk.lay n all).left (List.range (runs n all).length) (.batches n r) F
      w := by
  refine ⟨rfl, 0, ?_, [], all, Desk.agrees_lay n all, .fresh c, ?_⟩
  · rw [Nat.sub_zero, List.range_eq_range']
  · obtain ⟨F₁, F₂, hF, hapart, hreader, hc⟩ := h
    exact ⟨F₁, F₂, hF, hapart, hreader, all, hc, stands_fresh all c⟩

/-- Handing out a batch puts it into a cell of its own, which touches no place. -/
theorem Bench.next_adopted (hU : (frame τ watch).Supplies ends Machine.Exactly m U) {k : Nat}
    {left : Nat → List Value} (hmore : k * n < all.length) (h : Bench U n all r ⟨k, left⟩ F w) :
    (((readerMachine (m.batches n)).map fun k => return .cursor (← adopt (.batch k r))).next
      r).Returns w fun x w' => (∃ v, x.1 = .ok v ∧ BatchValue r w' v k) ∧ x.2 = r ∧
        Reaches (Bench U n all r ⟨k + 1, left⟩) F w w' := by
  refine (h.batches_next_cons hU hmore).bind ?_
  rintro ⟨answer, r'⟩ w' ⟨rfl, rfl, hreach⟩
  rw [Comp.returns_bind, Comp.returns_bind]
  refine (adopt_returns watch).mono ?_
  intro id w'' ⟨hcell, hquiet⟩
  have hreach' := hreach.quiet (keeps_bench hU) hquiet
  refine Comp.returns_pure.mpr (Comp.returns_pure.mpr ⟨⟨.cursor id, rfl, ?_⟩, rfl, hreach'⟩)
  -- by now the reader counts the new batch
  obtain ⟨F', -, hbench⟩ := hreach'
  obtain ⟨b, hb⟩ := hbench.reader
  refine ⟨id, b, rfl, hcell, hb, ?_⟩
  rw [hbench.size_eq hb]
  exact Nat.lt_succ_self k

theorem supplies_handing {N : Nat} (hn : 0 < n) {left : Nat → List Value}
    (hU : (frame τ watch).Supplies ends Machine.Exactly (Cursor.machine N) U) :
    (frame τ watch).Supplies ends (BatchValue r) (Cursor.machine (N + 1))
      (Handing U n all r left) where
  keeps ks c := by
    refine .of_follows ?_
    intro F w ⟨hc, handed, hks, h⟩
    exact ⟨_, keeps_bench hU, h, fun _ h' => ⟨hc, handed, hks, h'⟩⟩
  hasNext {F ks w c} hends hc := by
    obtain ⟨rfl, handed, hks, h⟩ := hc
    have hnil : ks = [] ↔ all.length ≤ handed * n := by rw [hks, range'_runs_eq_nil hn]
    have hmore : (!ks.isEmpty) = decide (handed * n < all.length) := by
      rw [Bool.eq_iff_iff, decide_eq_true_iff, ← Nat.not_le, ← hnil, Bool.not_eq_true',
        List.isEmpty_eq_false_iff]
    have hends' : all.length ≤ handed * n → ends := fun hle => hends (hnil.mpr hle)
    rw [Cursor.machine_hasNext (Cursor.batches n) rfl]
    refine Comp.Returns.bind (h.batches_hasNext hU hends') ?_
    rintro ⟨more, r'⟩ w' ⟨rfl, rfl, hreach⟩
    refine Comp.returns_pure.mpr ⟨hmore.symm, hreach.mono fun _ h => ⟨rfl, handed, hks, h⟩⟩
  next_cons {F k ks w c} hc := by
    obtain ⟨rfl, handed, hks, h⟩ := hc
    obtain ⟨rfl, hmore, hrest⟩ := range'_runs_eq_cons hn hks
    rw [Cursor.machine_next (Cursor.batches n) rfl]
    refine Comp.Returns.bind (h.next_adopted hU hmore) ?_
    rintro ⟨answer, r'⟩ w' ⟨hanswer, rfl, hreach⟩
    exact Comp.returns_pure.mpr ⟨hanswer, hreach.mono fun _ h => ⟨rfl, k + 1, hrest, h⟩⟩
  next_nil {F w c} he hc := by
    obtain ⟨rfl, handed, hks, h⟩ := hc
    have hmore : all.length ≤ handed * n := (range'_runs_eq_nil hn all handed).mp hks.symm
    rw [Cursor.machine_next (Cursor.batches n) rfl]
    refine Comp.Returns.bind (P := fun x w' => x.1 = .error .exhausted ∧ x.2 = r ∧
      Reaches (Bench U n all r ⟨handed, left⟩) F w w') ?_ ?_
    · refine (h.batches_next_nil hU he hmore).bind ?_
      rintro ⟨answer, r'⟩ w' ⟨rfl, rfl, hreach⟩
      exact Comp.returns_pure.mpr ⟨rfl, rfl, hreach⟩
    · rintro ⟨answer, r'⟩ w' ⟨rfl, rfl, hreach⟩
      exact Comp.returns_pure.mpr ⟨rfl, hreach.mono fun _ h => ⟨rfl, handed, hks, h⟩⟩

/-! ## A batch in a cell -/

theorem Bench.cell_hasNext {N id k handed : Nat} {left : Nat → List Value}
    (hU : (frame τ watch).Supplies ends Machine.Exactly (Cursor.machine N) U)
    (hcell : w.cells[id]? = some (.batch k r)) (hk : k < handed)
    (hends : left k = [] → all.length ≤ handed * n → ends)
    (h : Bench U n all r ⟨handed, left⟩ F w) :
    ((Cursor.machine (N + 2)).hasNext (.shared id)).Returns w fun x w' => x.2 = .shared id ∧
      x.1 = (!(left k).isEmpty) ∧ Reaches (Bench U n all r ⟨handed, left⟩) F w w' := by
  rw [Cursor.machine_hasNext .shared rfl]
  -- a batch stays the cursor it is: all that moves is the reader it points to
  refine Comp.Returns.bind (inCell_returns hcell (Q := fun more w' =>
    more = (!(left k).isEmpty) ∧ Reaches (Bench U n all r ⟨handed, left⟩) F w w') ?_) ?_
  · rw [Cursor.machine_hasNext (.batch k) rfl]
    refine Comp.Returns.bind (h.batch_hasNext hU hk hends) ?_
    intro ⟨more, r'⟩ w' ⟨hr, hmore, hreach⟩
    obtain ⟨F', hstep, h'⟩ := hreach
    exact Comp.returns_pure.mpr ⟨congrArg (Cursor.batch k) hr, hstep.grows, hmore, F', hstep, h'⟩
  · intro ⟨more, id'⟩ w' ⟨hid, hmore⟩
    exact Comp.returns_pure.mpr ⟨congrArg Cursor.shared hid, hmore⟩

theorem Bench.cell_next {N id k handed : Nat} {left : Nat → List Value} {a : Value}
    {l : List Value} (hU : (frame τ watch).Supplies ends Machine.Exactly (Cursor.machine N) U)
    (hcell : w.cells[id]? = some (.batch k r)) (hk : k < handed) (hl : left k = a :: l)
    (h : Bench U n all r ⟨handed, left⟩ F w) :
    ((Cursor.machine (N + 2)).next (.shared id)).Returns w fun x w' => x.2 = .shared id ∧
      x.1 = .ok a ∧
        Reaches (Bench U n all r ⟨handed, fun j => if j = k then l else left j⟩) F w w' := by
  rw [Cursor.machine_next .shared rfl]
  refine Comp.Returns.bind (inCell_returns hcell (Q := fun answer w' => answer = .ok a ∧
    Reaches (Bench U n all r ⟨handed, fun j => if j = k then l else left j⟩) F w w') ?_) ?_
  · rw [Cursor.machine_next (.batch k) rfl]
    refine Comp.Returns.bind (h.batch_next hU hk hl) ?_
    intro ⟨answer, r'⟩ w' ⟨hr, hanswer, hreach⟩
    obtain ⟨F', hstep, h'⟩ := hreach
    exact Comp.returns_pure.mpr ⟨congrArg (Cursor.batch k) hr, hstep.grows, hanswer, F', hstep, h'⟩
  · intro ⟨answer, id'⟩ w' ⟨hid, hanswer⟩
    exact Comp.returns_pure.mpr ⟨congrArg Cursor.shared hid, hanswer⟩

end LazySeq
