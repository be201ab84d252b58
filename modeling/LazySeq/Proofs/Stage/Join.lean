import LazySeq.Proofs.Frame
import LazySeq.Stage.Join

/-!
# One cursor after another is lawful

A chain has left what the first cursor has left and then what the second has. The two own different
places until the first is through; then its places are given up.

For `Machine.flatten` the outer cursor and the inner cursors it hands out may share state, so their
account is a joint one (`Machine.Feeds`): it says what the current inner cursor has left and what
those still to come have.
-/

namespace LazySeq

variable {ω σ τ α β : Type} {fr : Frame ω}

namespace Frame

/-! ## Two in a row -/

/-- What a chain has left. -/
def ChainLeft (U : fr.Account α σ) (V : fr.Account α τ) : fr.Account α (Relay σ τ)
  | xs, .first s t => fun F w => ∃ ys zs, xs = ys ++ zs ∧ Sep (U ys s) (V zs t) F w
  | xs, .second t => V xs t

/-- The same once it was asked: the first cursor is still walked only if it has an element. -/
def ChainAsked (U : fr.Account α σ) (V : fr.Account α τ) : fr.Account α (Relay σ τ)
  | xs, .first s t => fun F w => ∃ y ys zs, xs = y :: ys ++ zs ∧ Sep (U (y :: ys) s) (V zs t) F w
  | xs, .second t => V xs t

variable {ends : Prop} {Rep : ω → β → α → Prop} {m : Machine ω σ β} {k : Machine ω τ β}
variable {U : fr.Account α σ} {V : fr.Account α τ}

theorem ChainAsked.left {xs : List α} {r : Relay σ τ} {F : fr.Region} {w : ω}
    (h : ChainAsked U V xs r F w) : ChainLeft U V xs r F w := by
  cases r with
  | first s t =>
    obtain ⟨y, ys, zs, hxs, hsep⟩ := h
    exact ⟨y :: ys, zs, hxs, hsep⟩
  | second t => exact h

theorem Supplies.chainHasNext (hm : fr.Supplies True Rep m U) (hk : fr.Supplies ends Rep k V)
    {xs : List α} {r : Relay σ τ} {F : fr.Region} {w : ω} (hends : xs = [] → ends)
    (hr : ChainLeft U V xs r F w) :
    (Machine.chainHasNext m k r).Returns w fun r w' =>
      r.1 = !xs.isEmpty ∧ Reaches (ChainAsked U V xs r.2) F w w' := by
  cases r with
  | second t =>
    refine (hk.hasNext hends hr).bind ?_
    rintro ⟨more, t⟩ w' ⟨rfl, ht⟩
    exact Comp.returns_pure.mpr ⟨rfl, ht⟩
  | first s t =>
    obtain ⟨ys, zs, rfl, hsep⟩ := hr
    obtain ⟨F₁, hs, hback⟩ := hsep.left (hk.keeps zs t)
    refine (hm.hasNext (fun _ => trivial) hs).bind ?_
    rintro ⟨more, s⟩ w' ⟨rfl, hs⟩
    have hsep' := hback hs
    cases ys with
    | cons y ys =>
      refine Comp.returns_pure.mpr ⟨rfl, hsep'.mono fun F' h => ?_⟩
      exact ⟨y, ys, zs, rfl, h⟩
    | nil =>
      -- the first is through, and what it owned with it
      obtain ⟨F₂, hstep, ht⟩ := Sep.drop_left hsep'
      refine (hk.hasNext hends ht).bind ?_
      rintro ⟨more, t⟩ w'' ⟨rfl, ht⟩
      exact Comp.returns_pure.mpr ⟨rfl, ht.trans hstep⟩

theorem keeps_chainLeft (hm : fr.Supplies True Rep m U) (hk : fr.Supplies ends Rep k V)
    (xs : List α) (r : Relay σ τ) : fr.Keeps (ChainLeft U V xs r) := by
  cases r with
  | second t => exact hk.keeps xs t
  | first s t =>
    refine .of_follows ?_
    intro F w ⟨ys, zs, hxs, hsep⟩
    exact ⟨_, (hm.keeps ys s).sep (hk.keeps zs t), hsep, fun _ hsep' => ⟨ys, zs, hxs, hsep'⟩⟩

theorem Supplies.chain (hm : fr.Supplies True Rep m U) (hk : fr.Supplies ends Rep k V) :
    fr.Supplies ends Rep (m.chain k) (ChainLeft U V) := by
  refine .of_asked (keeps_chainLeft hm hk) ChainAsked.left (hm.chainHasNext hk) ?_ ?_
  · intro F a xs w r hr
    cases r with
    | first s t =>
      obtain ⟨y, ys, zs, hxs, hsep⟩ := hr
      obtain ⟨rfl, rfl⟩ := List.cons.inj hxs
      obtain ⟨F₁, hs, hback⟩ := hsep.left (hk.keeps zs t)
      refine (hm.next_cons hs).bind ?_
      intro ⟨answer, s⟩ w' ⟨hb, hs⟩
      refine Comp.returns_pure.mpr ⟨hb, (hback hs).mono fun F' h => ?_⟩
      exact ⟨ys, zs, rfl, h⟩
    | second t =>
      refine (hk.next_cons hr).bind ?_
      intro ⟨answer, t⟩ w' ⟨hb, ht⟩
      exact Comp.returns_pure.mpr ⟨hb, ht⟩
  · intro F w r he hr
    cases r with
    | first s t =>
      obtain ⟨y, ys, zs, hxs, -⟩ := hr
      cases hxs
    | second t =>
      refine (hk.next_nil he hr).bind ?_
      rintro ⟨answer, t⟩ w' ⟨rfl, ht⟩
      exact Comp.returns_pure.mpr ⟨rfl, ht⟩

/-! ## Any number in a row -/

/-- The outer cursor hands out inner cursors one after the other. `Idle xss` where it will hand out
cursors with the lists `xss` left and none is being walked, `Busy xs xss` where the one handed out
last is, and has `xs` left. -/
structure Feeds (ends : Prop) (Rep : ω → β → α → Prop) (m : Machine ω σ τ) (k : Machine ω τ β)
    (Idle : List (List α) → σ → fr.Assertion)
    (Busy : List α → List (List α) → σ → τ → fr.Assertion) : Prop where
  keeps_idle (xss : List (List α)) (s : σ) : fr.Keeps (Idle xss s)
  keeps_busy (xs : List α) (xss : List (List α)) (s : σ) (t : τ) : fr.Keeps (Busy xs xss s t)
  outer_hasNext {xss : List (List α)} {s : σ} {F : fr.Region} {w : ω} : (xss = [] → ends) →
    Idle xss s F w → (m.hasNext s).Returns w fun r w' =>
      r.1 = !xss.isEmpty ∧ Reaches (Idle xss r.2) F w w'
  outer_next {xs : List α} {xss : List (List α)} {s : σ} {F : fr.Region} {w : ω} :
    Idle (xs :: xss) s F w → (m.next s).Returns w fun r w' =>
      ∃ t, r.1 = .ok t ∧ Reaches (Busy xs xss r.2 t) F w w'
  inner_hasNext {xs : List α} {xss : List (List α)} {s : σ} {t : τ} {F : fr.Region} {w : ω} :
    (xs = [] → xss = [] → ends) → Busy xs xss s t F w → (k.hasNext t).Returns w fun r w' =>
      r.1 = !xs.isEmpty ∧ Reaches (Busy xs xss s r.2) F w w'
  inner_next {a : α} {xs : List α} {xss : List (List α)} {s : σ} {t : τ} {F : fr.Region} {w : ω} :
    Busy (a :: xs) xss s t F w → (k.next t).Returns w fun r w' =>
      (∃ b, r.1 = .ok b ∧ Rep w' b a) ∧ Reaches (Busy xs xss s r.2) F w w'
  /-- an inner cursor that is through is given up -/
  through {xss : List (List α)} {s : σ} {t : τ} {F : fr.Region} {w : ω} :
    Busy [] xss s t F w → Idle xss s F w

/-- What is left of inner cursors in a row, of which at most `limit` are still to come. -/
def FlatLeft (limit : Nat) (Idle : List (List α) → σ → fr.Assertion)
    (Busy : List α → List (List α) → σ → τ → fr.Assertion) : fr.Account α (Nested σ τ)
  | ys, ⟨s, none⟩ => fun F w => ∃ xss, ys = xss.flatten ∧ xss.length ≤ limit ∧ Idle xss s F w
  | ys, ⟨s, some t⟩ => fun F w =>
    ∃ xs xss, ys = xs ++ xss.flatten ∧ xss.length ≤ limit ∧ Busy xs xss s t F w

variable {Idle : List (List α) → σ → fr.Assertion} {m : Machine ω σ τ} {k : Machine ω τ β}
variable {Busy : List α → List (List α) → σ → τ → fr.Assertion} {limit : Nat}

theorem Feeds.keeps (h : Feeds ends Rep m k Idle Busy) (ys : List α) (c : Nested σ τ) :
    fr.Keeps (FlatLeft limit Idle Busy ys c) := by
  obtain ⟨s, current⟩ := c
  cases current with
  | none =>
    refine .of_follows ?_
    intro F w ⟨xss, hys, hle, hs⟩
    exact ⟨_, h.keeps_idle xss s, hs, fun _ hs' => ⟨xss, hys, hle, hs'⟩⟩
  | some t =>
    refine .of_follows ?_
    intro F w ⟨xs, xss, hys, hle, hs⟩
    exact ⟨_, h.keeps_busy xs xss s t, hs, fun _ hs' => ⟨xs, xss, hys, hle, hs'⟩⟩

/-- Where a row of inner cursors stands after it was asked: before an element, or past them all. -/
def FlatAsked (limit : Nat) (Idle : List (List α) → σ → fr.Assertion)
    (Busy : List α → List (List α) → σ → τ → fr.Assertion) : fr.Account α (Nested σ τ)
  | ys, ⟨s, none⟩ => fun F w => ys = [] ∧ Idle [] s F w
  | ys, ⟨s, some t⟩ => fun F w =>
    ∃ x xs xss, ys = x :: xs ++ xss.flatten ∧ xss.length ≤ limit ∧ Busy (x :: xs) xss s t F w

theorem FlatAsked.left {ys : List α} {c : Nested σ τ} {F : fr.Region} {w : ω}
    (h : FlatAsked limit Idle Busy ys c F w) : FlatLeft limit Idle Busy ys c F w := by
  obtain ⟨s, current⟩ := c
  cases current with
  | none =>
    obtain ⟨rfl, hs⟩ := h
    exact ⟨[], rfl, Nat.zero_le limit, hs⟩
  | some t =>
    obtain ⟨x, xs, xss, hys, hle, hs⟩ := h
    exact ⟨x :: xs, xss, hys, hle, hs⟩

/-- Asking the outer cursor, when no inner cursor is being walked, and going on from there. -/
theorem Feeds.settle_idle (h : Feeds ends Rep m k Idle Busy) {n : Nat} {xss : List (List α)}
    {s : σ} {F : fr.Region} {w : ω} (hends : xss.flatten = [] → ends) (hle : xss.length ≤ limit)
    (hs : Idle xss s F w)
    (hrest : ∀ xs xss' s t F w, xss = xs :: xss' → Busy xs xss' s t F w →
      (Machine.settle m k n ⟨s, some t⟩).Returns w fun r w' =>
        r.1 = !(xs ++ xss'.flatten).isEmpty ∧
          Reaches (FlatAsked limit Idle Busy (xs ++ xss'.flatten) r.2) F w w') :
    (do
      let (more, outer) ← m.hasNext s
      if more then
        let (answer, outer) ← m.next outer
        Machine.settle m k n ⟨outer, answer.toOption⟩
      else
        return (false, ⟨outer, none⟩)).Returns w fun r w' =>
      r.1 = !xss.flatten.isEmpty ∧ Reaches (FlatAsked limit Idle Busy xss.flatten r.2) F w w' := by
  have hends' : xss = [] → ends := fun hnil => hends (by rw [hnil, List.flatten_nil])
  refine (h.outer_hasNext hends' hs).bind ?_
  rintro ⟨more, s⟩ w' ⟨rfl, F', hstep, hs⟩
  cases xss with
  | nil => exact Comp.returns_pure.mpr ⟨rfl, F', hstep, rfl, hs⟩
  | cons xs xss =>
    refine (h.outer_next hs).bind ?_
    rintro ⟨answer, s⟩ w'' ⟨t, rfl, F'', hstep', hs⟩
    refine (hrest _ _ _ _ _ _ rfl hs).mono ?_
    intro r w''' ⟨hr, hreach⟩
    exact ⟨hr, hreach.trans (hstep.trans hstep')⟩

/-- One round for every inner cursor that is through, and one for the one that is not. -/
theorem Feeds.settle (h : Feeds ends Rep m k Idle Busy) {n : Nat} {xs : List α}
    {xss : List (List α)} {s : σ} {t : τ} {F : fr.Region} {w : ω}
    (hends : xs ++ xss.flatten = [] → ends) (hle : xss.length ≤ limit) (hn : xss.length < n)
    (hs : Busy xs xss s t F w) :
    (Machine.settle m k n ⟨s, some t⟩).Returns w fun r w' =>
      r.1 = !(xs ++ xss.flatten).isEmpty ∧
        Reaches (FlatAsked limit Idle Busy (xs ++ xss.flatten) r.2) F w w' := by
  induction n generalizing xs xss s t F w with
  | zero => exact absurd hn (Nat.not_lt_zero _)
  | succ n ih =>
    have hends' : xs = [] → xss = [] → ends := fun hxs hxss => hends (by rw [hxs, hxss]; rfl)
    rw [Machine.settle, Machine.currentHasNext, Comp.returns_bind, Comp.returns_bind]
    refine (h.inner_hasNext hends' hs).mono ?_
    rintro ⟨more, t⟩ w' ⟨rfl, F', hstep, hs⟩
    rw [Comp.returns_pure]
    cases xs with
    | cons x xs =>
      exact Comp.returns_pure.mpr ⟨rfl, F', hstep, x, xs, xss, rfl, hle, hs⟩
    | nil =>
      refine (h.settle_idle hends hle (h.through hs) ?_).mono ?_
      · intro xs xss' s t F w hxss hbusy
        subst hxss
        refine ih (fun hnil => hends ?_) ?_ ?_ hbusy
        · rw [List.nil_append, List.flatten_cons]
          exact hnil
        · exact Nat.le_of_succ_le hle
        · exact Nat.lt_of_succ_lt_succ hn
      · intro r w'' ⟨hr, hreach⟩
        exact ⟨hr, hreach.trans hstep⟩

theorem Feeds.settle_left (h : Feeds ends Rep m k Idle Busy) {fuel : Nat} (hfuel : limit < fuel)
    {ys : List α} {c : Nested σ τ} {F : fr.Region} {w : ω} (hends : ys = [] → ends)
    (hc : FlatLeft limit Idle Busy ys c F w) :
    (Machine.settle m k fuel c).Returns w fun r w' =>
      r.1 = !ys.isEmpty ∧ Reaches (FlatAsked limit Idle Busy ys r.2) F w w' := by
  obtain ⟨s, current⟩ := c
  cases current with
  | some t =>
    obtain ⟨xs, xss, rfl, hle, hs⟩ := hc
    exact h.settle hends hle (Nat.lt_of_le_of_lt hle hfuel) hs
  | none =>
    obtain ⟨xss, rfl, hle, hs⟩ := hc
    obtain ⟨n, rfl⟩ := Nat.exists_eq_add_one.mpr (Nat.zero_lt_of_lt hfuel)
    rw [Machine.settle, Machine.currentHasNext, Comp.returns_bind, Comp.returns_pure]
    refine h.settle_idle hends hle hs ?_
    intro xs xss' s t F w hxss hbusy
    subst hxss
    refine h.settle (fun hnil => hends hnil) (Nat.le_of_succ_le hle) ?_ hbusy
    rw [List.length_cons] at hle
    omega

theorem Feeds.flatten (h : Feeds ends Rep m k Idle Busy) {fuel : Nat} (hfuel : limit < fuel) :
    fr.Supplies ends Rep (m.flatten fuel k) (FlatLeft limit Idle Busy) := by
  refine .of_asked h.keeps FlatAsked.left (h.settle_left hfuel) ?_ ?_
  · intro F a ys w ⟨s, current⟩ hs
    cases current with
    | none =>
      obtain ⟨hnil, -⟩ := hs
      cases hnil
    | some t =>
      obtain ⟨x, xs, xss, hys, hle, hs⟩ := hs
      obtain ⟨rfl, rfl⟩ := List.cons.inj hys
      refine (h.inner_next hs).bind ?_
      intro ⟨answer, t⟩ w' ⟨hb, ht⟩
      refine Comp.returns_pure.mpr ⟨hb, ht.mono fun F' h => ?_⟩
      exact ⟨xs, xss, rfl, hle, h⟩
  · intro F w ⟨s, current⟩ _ hs
    cases current with
    | none => exact Comp.returns_pure.mpr ⟨rfl, .refl (FlatAsked.left hs)⟩
    | some t =>
      obtain ⟨x, xs, xss, hys, -⟩ := hs
      cases hys

end Frame

end LazySeq
