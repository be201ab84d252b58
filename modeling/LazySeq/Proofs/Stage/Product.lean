import LazySeq.Proofs.Bill
import LazySeq.Stage.Product

/-!
# Pairs of two sequences are lawful

A row has left what the inner cursor walking it has left, each paired with the element of the row;
after it come whole rows, one for each element that the outer cursor has left. Each of these rows
costs what a walk of the inner sequence costs, its start included (`Bills.pairs`).
-/

namespace LazySeq

namespace Frame

variable {ω σ τ α β : Type} {fr : Frame ω} {m : Machine ω σ α} {k : Machine ω τ β}
variable {bill : ω → Nat} {U : Nat → fr.Account α σ} {V : Nat → fr.Account β τ}
variable {start : Comp ω τ} {inner : List β} {limit price owed : Nat}

/-! ## What is left of the rows -/

/-- Every element of the one list with every element of the other, row by row. -/
def allPairs (xs : List α) (inner : List β) : List (α × β) :=
  xs.flatMap fun a => inner.map (a, ·)

/-- What is left of the rows, where the outer cursor has at most `limit` elements left. -/
def RowsLeft (limit : Nat) (inner : List β) (price : Nat) (U : Nat → fr.Account α σ)
    (V : Nat → fr.Account β τ) (owed : Nat) : fr.Account (α × β) (Rowed σ τ α)
  | ys, ⟨s, none⟩ => fun F w =>
    ∃ xs o, ys = allPairs xs inner ∧ owed = o + xs.length * price ∧ xs.length ≤ limit ∧
      U o xs s F w
  | ys, ⟨s, some (a, t)⟩ => fun F w =>
    ∃ xs zs o o', ys = zs.map (a, ·) ++ allPairs xs inner ∧ owed = o + o' + xs.length * price ∧
      xs.length ≤ limit ∧ Sep (U o xs s) (V o' zs t) F w

/-- The same once it was asked: inside a row, or past all of them. -/
def RowsAsked (limit : Nat) (inner : List β) (price : Nat) (U : Nat → fr.Account α σ)
    (V : Nat → fr.Account β τ) (owed : Nat) : fr.Account (α × β) (Rowed σ τ α)
  | ys, ⟨s, none⟩ => fun F w => ys = [] ∧ owed = 0 ∧ U 0 [] s F w
  | ys, ⟨s, some (a, t)⟩ => fun F w =>
    ∃ xs z zs o o', ys = (a, z) :: zs.map (a, ·) ++ allPairs xs inner ∧
      owed = o + o' + xs.length * price ∧ xs.length ≤ limit ∧ Sep (U o xs s) (V o' (z :: zs) t) F w

theorem RowsAsked.settled {ys : List (α × β)} {c : Rowed σ τ α} {F : fr.Region} {w : ω}
    (h : RowsAsked limit inner price U V owed ys c F w) :
    Settled (RowsLeft limit inner price U V) owed ys c F w := by
  obtain ⟨s, row⟩ := c
  cases row with
  | none =>
    obtain ⟨rfl, rfl, hs⟩ := h
    exact ⟨fun _ => rfl, [], 0, rfl, by simp, Nat.zero_le limit, hs⟩
  | some row =>
    obtain ⟨xs, z, zs, o, o', rfl, howed, hle, hsep⟩ := h
    refine ⟨fun hnil => ?_, xs, z :: zs, o, o', rfl, howed, hle, hsep⟩
    cases hnil

theorem keeps_rowsLeft (hm : fr.Bills bill m U) (hk : fr.Bills bill k V) (ys : List (α × β))
    (c : Rowed σ τ α) : fr.Keeps (RowsLeft limit inner price U V owed ys c) := by
  obtain ⟨s, row⟩ := c
  cases row with
  | none =>
    refine .of_follows ?_
    intro F w ⟨xs, o, hys, howed, hle, hs⟩
    exact ⟨_, hm.keeps o xs s, hs, fun _ hs' => ⟨xs, o, hys, howed, hle, hs'⟩⟩
  | some row =>
    obtain ⟨a, t⟩ := row
    refine .of_follows ?_
    intro F w ⟨xs, zs, o, o', hys, howed, hle, hsep⟩
    exact ⟨_, (hm.keeps o xs s).sep (hk.keeps o' zs t), hsep,
      fun _ hsep' => ⟨xs, zs, o, o', hys, howed, hle, hsep'⟩⟩

/-! ## Row after row -/

section Rows

variable (hstart : ∀ w, start.Returns w fun t w' =>
  Spends bill (fun o => V o inner t) price Region.none w w')
include hstart

/-- Between two rows: the outer cursor is pulled, and a new row is begun beside it. -/
theorem Bills.seekRow_between (hm : fr.Bills bill m U) {n : Nat} (limit : Nat) {xs : List α}
    {s : σ} {o : Nat} {F : fr.Region} {w : ω} (hs : U o xs s F w)
    (hrest : ∀ a xs' s t o o' F w, xs = a :: xs' → Sep (U o xs' s) (V o' inner t) F w →
      (m.seekRow start k n ⟨s, some (a, t)⟩).Returns w fun r w' =>
        r.1 = !(allPairs xs inner).isEmpty ∧
          Spends bill (fun d => RowsAsked limit inner price U V d (allPairs xs inner) r.2)
            (o + o' + xs'.length * price) F w w') :
    (do
      match ← m.pull? s with
      | (none, outer) => return (false, Rowed.mk outer none)
      | (some a, outer) => m.seekRow start k n (Rowed.mk outer (some (a, ← start)))).Returns w
      fun r w' => r.1 = !(allPairs xs inner).isEmpty ∧
        Spends bill (fun d => RowsAsked limit inner price U V d (allPairs xs inner) r.2)
          (o + xs.length * price) F w w' := by
  cases hxs : xs with
  | nil =>
    subst hxs
    refine (hm.pull?_nil hs).bind ?_
    rintro ⟨answer, s⟩ w' ⟨rfl, o', hbill, F', hstep, hzero, hs⟩
    obtain rfl := hzero rfl
    refine Comp.returns_pure.mpr ⟨rfl, 0, ?_, F', hstep, rfl, rfl, hs⟩
    rw [List.length_nil, Nat.zero_mul]
    exact hbill
  | cons x xs' =>
    rw [hxs] at hs
    refine (hm.pull?_cons hs).bind ?_
    rintro ⟨answer, s⟩ w' ⟨rfl, o₁, hbill, F', hstep, hs'⟩
    refine (hstart w').bind ?_
    intro t w'' ⟨o₂, hbill', ht⟩
    -- the cursor of the new row is built from nothing, so it comes to stand beside the outer one
    obtain ⟨F'', hstep', hboth⟩ := Reaches.beside (hm.keeps o₁ xs' s) ⟨F', hstep, hs'⟩ ht
    refine (hrest x xs' s t o₁ o₂ F'' w'' hxs hboth).mono ?_
    intro r w''' ⟨hr, hspends⟩
    rw [← hxs]
    refine ⟨hr, hspends.trans hstep' ?_⟩
    rw [hxs, List.length_cons, Nat.succ_mul]
    omega

theorem Bills.seekRow (hm : fr.Bills bill m U) (hk : fr.Bills bill k V) {n : Nat} {xs : List α}
    {zs : List β} {a : α} {s : σ} {t : τ} {o o' : Nat} {F : fr.Region} {w : ω}
    (hle : xs.length ≤ limit) (hn : xs.length < n) (hsep : Sep (U o xs s) (V o' zs t) F w) :
    (m.seekRow start k n ⟨s, some (a, t)⟩).Returns w fun r w' =>
      r.1 = !(zs.map (a, ·) ++ allPairs xs inner).isEmpty ∧
        Spends bill
          (fun d => RowsAsked limit inner price U V d (zs.map (a, ·) ++ allPairs xs inner) r.2)
          (o + o' + xs.length * price) F w w' := by
  induction n generalizing xs zs a s t o o' F w with
  | zero => exact absurd hn (Nat.not_lt_zero _)
  | succ n ih =>
    rw [Machine.seekRow, Machine.rowHasNext, Comp.returns_bind, Comp.returns_bind]
    obtain ⟨F₂, ht, hback⟩ := hsep.right (hm.keeps o xs s)
    refine (hk.hasNext ht).mono ?_
    rintro ⟨more, t⟩ w' ⟨rfl, o₂, hbill, ht⟩
    obtain ⟨F', hstep, hsep⟩ := hback ht
    rw [Comp.returns_pure]
    cases zs with
    | cons z zs =>
      obtain ⟨F₁, F₂, hF, hapart, hs, -, ht⟩ := hsep
      refine Comp.returns_pure.mpr ⟨rfl, o + o₂ + xs.length * price, by omega, F', hstep, ?_⟩
      exact ⟨xs, z, zs, o, o₂, rfl, rfl, hle, F₁, F₂, hF, hapart, hs, ht⟩
    | nil =>
      -- the row is through and owes nothing any more, and its cursor is given up
      have hzero : o₂ = 0 := by
        obtain ⟨F₁, F₂, -, -, -, hzero, -⟩ := hsep
        exact hzero rfl
      obtain ⟨F'', hstep', hs⟩ := Sep.drop_left (Reaches.refl hsep.comm)
      refine (hm.seekRow_between hstart limit hs ?_).mono ?_
      · intro a xs' s t o o' F w hxs hrow
        subst hxs
        exact ih (Nat.le_of_succ_le hle) (Nat.lt_of_succ_lt_succ hn) hrow
      · intro r w'' ⟨hr, hspends⟩
        refine ⟨hr, hspends.trans (hstep.trans hstep') ?_⟩
        omega

theorem Bills.seekRow_left (hm : fr.Bills bill m U) (hk : fr.Bills bill k V) {fuel : Nat}
    (hfuel : limit < fuel) {ys : List (α × β)} {c : Rowed σ τ α} {F : fr.Region} {w : ω}
    (hc : RowsLeft limit inner price U V owed ys c F w) :
    (m.seekRow start k fuel c).Returns w fun r w' => r.1 = !ys.isEmpty ∧
      Spends bill (fun d => RowsAsked limit inner price U V d ys r.2) owed F w w' := by
  obtain ⟨s, row⟩ := c
  cases row with
  | some row =>
    obtain ⟨a, t⟩ := row
    obtain ⟨xs, zs, o, o', rfl, rfl, hle, hsep⟩ := hc
    exact hm.seekRow hstart hk hle (Nat.lt_of_le_of_lt hle hfuel) hsep
  | none =>
    obtain ⟨xs, o, rfl, rfl, hle, hs⟩ := hc
    obtain ⟨n, rfl⟩ := Nat.exists_eq_add_one.mpr (Nat.zero_lt_of_lt hfuel)
    rw [Machine.seekRow, Machine.rowHasNext, Comp.returns_bind, Comp.returns_pure]
    refine hm.seekRow_between hstart limit hs ?_
    intro a xs' s t o o' F w hxs hsep
    subst hxs
    refine hm.seekRow hstart hk (Nat.le_of_succ_le hle) ?_ hsep
    rw [List.length_cons] at hle
    omega

/-- The pairs of an outer cursor with a sequence of which every row, started in any world, has
`inner` left and costs `price`. -/
theorem Bills.pairs (hm : fr.Bills bill m U) (hk : fr.Bills bill k V) {fuel : Nat}
    (hfuel : limit < fuel) :
    fr.Bills bill (m.pairs fuel start k) (RowsLeft limit inner price U V) where
  keeps _ := keeps_rowsLeft hm hk
  hasNext hc := by
    refine (hm.seekRow_left hstart hk hfuel hc).mono ?_
    intro r w' ⟨hr, hspends⟩
    exact ⟨hr, hspends.mono fun _ _ => RowsAsked.settled⟩
  next_cons {owed F y ys w c} hc := by
    refine (hm.seekRow_left hstart hk hfuel hc).bind ?_
    rintro ⟨more, s, row⟩ w' ⟨rfl, d, hbill, F', hstep, hs⟩
    cases row with
    | none =>
      obtain ⟨hnil, -⟩ := hs
      cases hnil
    | some row =>
      obtain ⟨x, t⟩ := row
      obtain ⟨xs, z, zs, o, o', hys, hd, hle, hsep⟩ := hs
      obtain ⟨rfl, rfl⟩ := List.cons.inj hys
      obtain ⟨F₂, ht, hback⟩ := hsep.right (hm.keeps o xs s)
      refine (hk.next_cons ht).bind ?_
      rintro ⟨answer, t⟩ w'' ⟨rfl, o₂, hbill', ht'⟩
      refine Comp.returns_pure.mpr ⟨rfl, o + o₂ + xs.length * price, by omega, ?_⟩
      refine ((hback ht').mono fun F' h => ?_).trans hstep
      exact ⟨xs, zs, o, o₂, rfl, rfl, hle, h⟩
  next_nil {owed F w c} hc := by
    refine (hm.seekRow_left hstart hk hfuel hc).bind ?_
    rintro ⟨more, s, row⟩ w' ⟨rfl, d, hbill, F', hstep, hs⟩
    cases row with
    | none => exact Comp.returns_pure.mpr ⟨rfl, d, hbill, F', hstep, RowsAsked.settled hs⟩
    | some row =>
      obtain ⟨x, t⟩ := row
      obtain ⟨xs, z, zs, o, o', hys, -⟩ := hs
      cases hys

end Rows

/-! ## Without costs -/

variable {U : fr.Account α σ} {V : fr.Account β τ}

/-- `RowsLeft` where nothing costs anything. -/
def PairsLeft (limit : Nat) (inner : List β) (U : fr.Account α σ) (V : fr.Account β τ) :
    fr.Account (α × β) (Rowed σ τ α) :=
  fun ys c F w => ∃ owed, RowsLeft limit inner 0 (Free U) (Free V) owed ys c F w

theorem pairsLeft_fresh {xs : List α} {s : σ} {F : fr.Region} {w : ω} (h : U xs s F w) :
    PairsLeft xs.length inner U V (allPairs xs inner) ⟨s, none⟩ F w :=
  ⟨0, xs, 0, rfl, rfl, Nat.le_refl _, rfl, h⟩

theorem Supplies.pairs
    (hstart : ∀ w, start.Returns w fun t w' => Reaches (V inner t) Region.none w w')
    (hm : fr.Supplies True Machine.Exactly m U) (hk : fr.Supplies True Machine.Exactly k V)
    {fuel : Nat} (hfuel : limit < fuel) :
    fr.Supplies True Machine.Exactly (m.pairs fuel start k) (PairsLeft limit inner U V) := by
  refine (hm.bills.pairs (fun w => ?_) hk.bills hfuel).supplies
  exact (hstart w).mono fun t w' ht => (spends_free ht).mono fun _ _ ht => ht.2

end Frame

end LazySeq
