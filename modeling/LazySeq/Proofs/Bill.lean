import LazySeq.Proofs.Frame
import LazySeq.Stage.Transform

/-!
# What a traversal costs

`bill` reads a number off the world, such as how often something was called. `Frame.Bills` is
`Frame.Supplies` with the cost of what is left: a cursor with `xs` left `owes` what its calls will
still add to the bill until it has reported its end. Then it owes nothing.

Cursors side by side owe what they owe together, since one call is made at a time. Where the costs
do not matter they are left out (`Bills.supplies`), or made out to nobody (`Supplies.bills`).
-/

namespace LazySeq

namespace Frame

variable {ω σ α β : Type} {fr : Frame ω} {bill : ω → Nat} {F F' : fr.Region} {w w' w'' : ω}

/-! ## Spending -/

section Spending

variable {A B : Nat → fr.Assertion} {owed owed' : Nat}

/-- The owner of `F`, who owed `owed` in `w`, can have come to `w'`, where `A` is known of what is
still owed: what is off the debt is on the bill. -/
def Spends (bill : ω → Nat) (A : Nat → fr.Assertion) (owed : Nat) (F : fr.Region) (w w' : ω) :
    Prop :=
  ∃ owed', bill w' + owed' = bill w + owed ∧ Reaches (A owed') F w w'

theorem Spends.refl (h : A owed F w) : Spends bill A owed F w w :=
  ⟨owed, rfl, .refl h⟩

theorem Spends.mono (h : Spends bill A owed F w w') (hAB : ∀ o F', A o F' w' → B o F' w') :
    Spends bill B owed F w w' := by
  obtain ⟨o, hbill, hreach⟩ := h
  exact ⟨o, hbill, hreach.mono (hAB o)⟩

theorem Spends.trans (hstep : fr.Step F w F' w') (hbill : bill w' + owed' = bill w + owed)
    (h : Spends bill A owed' F' w' w'') : Spends bill A owed F w w'' := by
  obtain ⟨o, hbill', hreach⟩ := h
  exact ⟨o, hbill'.trans hbill, hreach.trans hstep⟩

end Spending

/-! ## Accounts with costs -/

variable {m : Machine ω σ α} {U : Nat → fr.Account α σ} {owed : Nat}

/-- Nothing is owed once it is known that nothing is left. -/
def Settled (U : Nat → fr.Account α σ) (owed : Nat) (xs : List α) (s : σ) : fr.Assertion :=
  fun F w => (xs = [] → owed = 0) ∧ U owed xs s F w

/-- Cursors supply what they have left, and add to the bill what they owe. -/
structure Bills (bill : ω → Nat) (m : Machine ω σ α) (U : Nat → fr.Account α σ) : Prop where
  keeps (owed : Nat) (xs : List α) (s : σ) : fr.Keeps (U owed xs s)
  hasNext {owed : Nat} {F : fr.Region} {xs : List α} {w : ω} {s : σ} : U owed xs s F w →
    (m.hasNext s).Returns w fun r w' => r.1 = !xs.isEmpty ∧
      Spends bill (fun o => Settled U o xs r.2) owed F w w'
  next_cons {owed : Nat} {F : fr.Region} {a : α} {xs : List α} {w : ω} {s : σ} :
    U owed (a :: xs) s F w →
      (m.next s).Returns w fun r w' => r.1 = .ok a ∧ Spends bill (fun o => U o xs r.2) owed F w w'
  next_nil {owed : Nat} {F : fr.Region} {w : ω} {s : σ} : U owed [] s F w →
    (m.next s).Returns w fun r w' => r.1 = .error .exhausted ∧
      Spends bill (fun o => Settled U o [] r.2) owed F w w'

/-- The costs left out. -/
theorem Bills.supplies (h : fr.Bills bill m U) :
    fr.Supplies True Machine.Exactly m fun xs s F w => ∃ owed, U owed xs s F w where
  keeps xs s := by
    refine .of_follows ?_
    intro F w ⟨owed, hs⟩
    exact ⟨_, h.keeps owed xs s, hs, fun _ hs' => ⟨owed, hs'⟩⟩
  hasNext _ := by
    intro ⟨owed, hs⟩
    refine (h.hasNext hs).mono ?_
    rintro r w' ⟨hr, o, -, hreach⟩
    exact ⟨hr, hreach.mono fun _ hs' => ⟨o, hs'.2⟩⟩
  next_cons := by
    intro F a xs w s ⟨owed, hs⟩
    refine (h.next_cons hs).mono ?_
    rintro r w' ⟨hr, o, -, hreach⟩
    exact ⟨⟨a, hr, rfl⟩, hreach.mono fun _ hs' => ⟨o, hs'⟩⟩
  next_nil _ := by
    intro ⟨owed, hs⟩
    refine (h.next_nil hs).mono ?_
    rintro r w' ⟨hr, o, -, hreach⟩
    exact ⟨hr, hreach.mono fun _ hs' => ⟨o, hs'.2⟩⟩

/-- Nothing costs anything. -/
def Free (U : fr.Account α σ) (owed : Nat) : fr.Account α σ :=
  fun xs s F w => owed = 0 ∧ U xs s F w

theorem spends_free {U : fr.Account α σ} {xs : List α} {s : σ} (h : Reaches (U xs s) F w w') :
    Spends (fun _ => 0) (fun o => Settled (Free U) o xs s) 0 F w w' :=
  ⟨0, rfl, h.mono fun _ hs => ⟨fun _ => rfl, rfl, hs⟩⟩

theorem Supplies.bills {U : fr.Account α σ} (h : fr.Supplies True Machine.Exactly m U) :
    fr.Bills (fun _ => 0) m (Free U) where
  keeps owed xs s := by
    refine .of_follows ?_
    intro F w ⟨howed, hs⟩
    exact ⟨_, h.keeps xs s, hs, fun _ hs' => ⟨howed, hs'⟩⟩
  hasNext := by
    rintro _ F xs w s ⟨rfl, hs⟩
    exact (h.hasNext (fun _ => trivial) hs).mono fun r w' hr => ⟨hr.1, spends_free hr.2⟩
  next_cons := by
    rintro _ F a xs w s ⟨rfl, hs⟩
    refine (h.next_cons hs).mono ?_
    rintro r w' ⟨⟨b, hr, rfl⟩, hreach⟩
    exact ⟨hr, (spends_free hreach).mono fun o F' hs => hs.2⟩
  next_nil := by
    rintro _ F w s ⟨rfl, hs⟩
    exact (h.next_nil trivial hs).mono fun r w' hr => ⟨hr.1, spends_free hr.2⟩

/-! ## Guarded pulls -/

variable {a : α} {xs : List α} {s : σ}

theorem Bills.pull?_cons (h : fr.Bills bill m U) (hs : U owed (a :: xs) s F w) :
    (m.pull? s).Returns w fun r w' => r.1 = some a ∧
      Spends bill (fun o => U o xs r.2) owed F w w' := by
  refine (h.hasNext hs).bind ?_
  rintro ⟨more, s⟩ w' ⟨rfl, o, hbill, F', hstep, -, hs⟩
  refine (h.next_cons hs).bind ?_
  rintro ⟨answer, s⟩ w'' ⟨rfl, hspends⟩
  exact Comp.returns_pure.mpr ⟨rfl, hspends.trans hstep hbill⟩

theorem Bills.pull?_nil (h : fr.Bills bill m U) (hs : U owed [] s F w) :
    (m.pull? s).Returns w fun r w' => r.1 = none ∧
      Spends bill (fun o => Settled U o [] r.2) owed F w w' := by
  refine (h.hasNext hs).bind ?_
  rintro ⟨more, s⟩ w' ⟨rfl, hspends⟩
  exact Comp.returns_pure.mpr ⟨rfl, hspends⟩

/-! ## Schedules -/

theorem Bills.call (h : fr.Bills bill m U) (ask : Ask) (hs : U owed xs s F w) :
    (m.call ask s).Returns w fun r w' => r.1 = (ListCursor.call ask xs).1 ∧
      Spends bill (fun o F w => (xs = [] → o = 0) ∧ U o (ListCursor.call ask xs).2 r.2 F w)
        owed F w w' := by
  cases ask with
  | hasNext =>
    refine (h.hasNext hs).bind ?_
    rintro ⟨left, s⟩ w' ⟨rfl, hspends⟩
    exact Comp.returns_pure.mpr ⟨rfl, hspends⟩
  | next =>
    cases xs with
    | nil =>
      refine (h.next_nil hs).bind ?_
      rintro ⟨answer, s⟩ w' ⟨rfl, hspends⟩
      exact Comp.returns_pure.mpr ⟨rfl, hspends⟩
    | cons a xs =>
      refine (h.next_cons hs).bind ?_
      rintro ⟨answer, s⟩ w' ⟨rfl, hspends⟩
      refine Comp.returns_pure.mpr ⟨rfl, hspends.mono fun o F' hs => ⟨fun hnil => ?_, hs⟩⟩
      cases hnil

/-- A schedule is answered as by the cursor over the list. Once a call was refused, everything that
was owed is on the bill. -/
theorem Bills.run (h : fr.Bills bill m U) (asks : List Ask) (hs : U owed xs s F w) :
    (m.run asks s).Returns w fun r w' => r.1 = ListCursor.run asks xs ∧
      Spends bill (fun o F w =>
        ((xs = [] ∧ owed = 0 ∨ ∃ reply ∈ ListCursor.run asks xs, reply.Refuses) → o = 0) ∧
          U o (ListCursor.after asks xs) r.2 F w) owed F w w' := by
  induction asks generalizing owed xs s F w with
  | nil =>
    refine Comp.returns_pure.mpr ⟨rfl, .refl ⟨fun hdone => ?_, hs⟩⟩
    rcases hdone with ⟨-, howed⟩ | ⟨reply, hmem, -⟩
    · exact howed
    · cases hmem
  | cons ask asks ih =>
    refine (h.call ask hs).bind ?_
    rintro ⟨reply, s⟩ w' ⟨rfl, o, hbill, F', hstep, hzero, hs⟩
    refine (ih hs).bind ?_
    rintro ⟨replies, s⟩ w'' ⟨rfl, hspends⟩
    refine Comp.returns_pure.mpr ⟨rfl, (hspends.mono fun o' F'' hs' => ?_).trans hstep hbill⟩
    refine ⟨fun hdone => hs'.1 ?_, hs'.2⟩
    -- where this call was the first to be refused, nothing is left or owed from here on
    have hleft : xs = [] → (ListCursor.call ask xs).2 = [] ∧ o = 0 := by
      intro hnil
      refine ⟨?_, hzero hnil⟩
      rw [hnil]
      cases ask <;> rfl
    rcases hdone with ⟨hnil, -⟩ | ⟨reply, hmem, hrefuses⟩
    · exact .inl (hleft hnil)
    · rcases List.mem_cons.mp hmem with rfl | hmem
      · exact .inl (hleft (ListCursor.refuses_call_iff.mp hrefuses))
      · exact .inr ⟨reply, hmem, hrefuses⟩

/-! ## Stages over one cursor -/

/-- The images of what is left, at the same cost. -/
def MapOwes (g : α → β) (U : Nat → fr.Account α σ) (owed : Nat) : fr.Account β σ :=
  fun ys s F w => ∃ xs, ys = xs.map g ∧ U owed xs s F w

theorem Bills.map (h : fr.Bills bill m U) {f : α → Comp ω β} {g : α → β}
    (hf : ∀ a, f a = pure (g a)) : fr.Bills bill (m.map f) (MapOwes g U) where
  keeps owed ys s := by
    refine .of_follows ?_
    intro F w ⟨xs, hys, hs⟩
    exact ⟨_, h.keeps owed xs s, hs, fun _ hs' => ⟨xs, hys, hs'⟩⟩
  hasNext := by
    rintro owed F _ w s ⟨xs, rfl, hs⟩
    refine (h.hasNext hs).mono ?_
    intro r w' ⟨hr, hspends⟩
    rw [List.isEmpty_map]
    refine ⟨hr, hspends.mono fun o F' ⟨hzero, hs'⟩ => ⟨fun hnil => ?_, xs, rfl, hs'⟩⟩
    exact hzero (List.map_eq_nil_iff.mp hnil)
  next_cons := by
    intro owed F y ys w s ⟨xs, hys, hs⟩
    cases xs with
    | nil => cases hys
    | cons x xs =>
      obtain ⟨rfl, rfl⟩ := List.cons.inj hys
      refine (h.next_cons hs).bind ?_
      rintro ⟨answer, s⟩ w' ⟨rfl, hspends⟩
      show (f x >>= fun b => pure (Except.ok b, s)).Returns w' _
      rw [hf, pure_bind]
      exact Comp.returns_pure.mpr ⟨rfl, hspends.mono fun o F' hs' => ⟨xs, rfl, hs'⟩⟩
  next_nil := by
    intro owed F w s ⟨xs, hys, hs⟩
    obtain rfl := List.map_eq_nil_iff.mp hys.symm
    refine (h.next_nil hs).bind ?_
    rintro ⟨answer, s⟩ w' ⟨rfl, hspends⟩
    exact Comp.returns_pure.mpr
      ⟨rfl, hspends.mono fun o F' ⟨hzero, hs'⟩ => ⟨fun _ => hzero rfl, [], rfl, hs'⟩⟩

end Frame

end LazySeq
