import LazySeq.Proofs.Simulation.Basic
import LazySeq.Stage.Product
import LazySeq.Stage.Replay

/-!
# Starting anew follows

The two stages that start a cursor while they run, over machines and starts that follow each other.
The rows of a product are searched for, and the second search may be given more rounds than the
first: where the first is done in time, so is the second.
-/

namespace LazySeq

/-! ## States that are alike -/

section States

variable {σ σ' ρ ρ' α α' : Type} {s t : σ → σ' → Prop} {r u : ρ → ρ' → Prop}
variable {v v' : α → α' → Prop}

/-- Both have as many passes left, and the passes that go on are alike. -/
inductive Replay.Alike (s : σ → σ' → Prop) : Replay σ → Replay σ' → Prop where
  | fresh (left : Option Nat) : Alike s (.fresh left) (.fresh left)
  | running {pass : σ} {pass' : σ'} (h : s pass pass') (yielded : Bool) (left : Option Nat) :
    Alike s (.running pass yielded left) (.running pass' yielded left)
  | ended : Alike s .ended .ended

/-- A row and the element in front of it. -/
def RowAlike (v : α → α' → Prop) (r : ρ → ρ' → Prop) (row : α × ρ) (row' : α' × ρ') : Prop :=
  v row.1 row'.1 ∧ r row.2 row'.2

structure Rowed.Alike (s : σ → σ' → Prop) (v : α → α' → Prop) (r : ρ → ρ' → Prop)
    (c : Rowed σ ρ α) (c' : Rowed σ' ρ' α') : Prop where
  outer : s c.outer c'.outer
  row : Option.Rel (RowAlike v r) c.row c'.row

theorem Replay.Alike.imp {c : Replay σ} {c' : Replay σ'} (hs : ∀ {x x'}, s x x' → t x x')
    (h : c.Alike s c') : c.Alike t c' := by
  cases h with
  | fresh left => exact .fresh left
  | running h yielded left => exact .running (hs h) yielded left
  | ended => exact .ended

theorem Rowed.Alike.imp {c : Rowed σ ρ α} {c' : Rowed σ' ρ' α'} (hs : ∀ {x x'}, s x x' → t x x')
    (hv : ∀ {a a'}, v a a' → v' a a') (hr : ∀ {x x'}, r x x' → u x x') (h : c.Alike s v r c') :
    c.Alike t v' u c' :=
  ⟨hs h.outer, Comparison.Rel.option_imp (fun hrow => ⟨hv hrow.1, hr hrow.2⟩) h.row⟩

end States

namespace Comparison

variable {ω ω' σ σ' ρ ρ' α α' β β' : Type} {C : Comparison ω ω'} {S : C.Rel σ σ'}
variable {R : C.Rel ρ ρ'} {V : C.Rel α α'} {W : C.Rel β β'}

namespace Rel

def replay (S : C.Rel σ σ') : C.Rel (Replay σ) (Replay σ') :=
  ⟨fun b => Replay.Alike (S b), fun hle h => h.imp (S.mono hle)⟩

def rowed (S : C.Rel σ σ') (V : C.Rel α α') (R : C.Rel ρ ρ') :
    C.Rel (Rowed σ ρ α) (Rowed σ' ρ' α') :=
  ⟨fun b => Rowed.Alike (S b) (V b) (R b),
    fun hle h => h.imp (S.mono hle) (V.mono hle) (R.mono hle)⟩

end Rel

/-! ## Pass after pass -/

section Passes

variable {m : Machine ω σ α} {m' : Machine ω' σ' α'} {start : Comp ω σ} {start' : Comp ω' σ'}

theorem Mimics.startPass (h : C.Mimics S V m m') (hstart : ∀ b, C.Follows b start start' S)
    (left : Option Nat) (b : C.Bond) :
    C.Follows b (m.startPass start left) (m'.startPass start' left)
      (Rel.eq.prod S.replay) := by
  match left with
  | some 0 => exact follows_pure ⟨rfl, .ended⟩
  | some (n + 1) | none =>
    refine (hstart b).bind ?_
    intro b' s s' hle hs
    refine (h.hasNext hs).bind ?_
    rintro b'' ⟨more, s⟩ ⟨_, s'⟩ hle' ⟨rfl, hs⟩
    exact follows_ite (follows_pure ⟨rfl, .running hs _ _⟩) (follows_pure ⟨rfl, .ended⟩)

theorem Mimics.replayHasNext (h : C.Mimics S V m m') (hstart : ∀ b, C.Follows b start start' S) :
    C.Carries S.replay (Rel.eq.prod S.replay) (m.replayHasNext start)
      (m'.replayHasNext start') := by
  intro b c c' hc
  cases hc with
  | fresh left => exact h.startPass hstart left b
  | ended => exact follows_pure ⟨rfl, .ended⟩
  | running hpass yielded left =>
    refine (h.hasNext hpass).bind ?_
    rintro b' ⟨more, s⟩ ⟨_, s'⟩ hle ⟨rfl, hs⟩
    refine follows_ite (follows_pure ⟨rfl, .running hs yielded left⟩) ?_
    exact follows_ite (h.startPass hstart left b') (follows_pure ⟨rfl, .ended⟩)

theorem Mimics.replay (h : C.Mimics S V m m') (hstart : ∀ b, C.Follows b start start' S) :
    C.Mimics S.replay V (m.replay start) (m'.replay start') where
  hasNext := h.replayHasNext hstart
  next b c c' hc := by
    refine (h.replayHasNext hstart hc).bind ?_
    rintro b' ⟨more, c⟩ ⟨_, c'⟩ hle ⟨rfl, hc⟩
    cases hc with
    | fresh left => cases more <;> exact follows_pure ⟨.error _, .fresh left⟩
    | ended => cases more <;> exact follows_pure ⟨.error _, .ended⟩
    | running hpass yielded left =>
      cases more with
      | false => exact follows_pure ⟨.error _, .running hpass yielded left⟩
      | true =>
        refine (h.next hpass).bind ?_
        rintro b'' ⟨answer, s⟩ ⟨answer', s'⟩ hle' ⟨ha, hs⟩
        exact follows_pure ⟨ha, .running hs true left⟩

end Passes

/-! ## Row after row -/

variable {m : Machine ω σ α} {m' : Machine ω' σ' α'} {k : Machine ω ρ β} {k' : Machine ω' ρ' β'}
variable {start : Comp ω ρ} {start' : Comp ω' ρ'}

theorem Mimics.rowHasNext (hk : C.Mimics R W k k') :
    C.Carries (V.prod R).option (Rel.eq.prod (V.prod R).option) k.rowHasNext
      k'.rowHasNext := by
  intro b o o' ho
  cases ho with
  | none => exact follows_pure ⟨rfl, .none⟩
  | @some row row' hrow =>
    refine (hk.hasNext hrow.2).bind ?_
    rintro b' ⟨more, t⟩ ⟨_, t'⟩ hle ⟨rfl, ht⟩
    exact follows_pure ⟨rfl, .some ⟨V.mono hle hrow.1, ht⟩⟩

theorem Mimics.seekRow (h : C.Mimics S V m m') (hk : C.Mimics R W k k')
    (hstart : ∀ b, C.Follows b start start' R) {n n' : Nat} (hn : n ≤ n') :
    C.Carries (S.rowed V R) (Rel.eq.prod (S.rowed V R)) (m.seekRow start k n)
      (m'.seekRow start' k' n') := by
  induction n generalizing n' with
  | zero => exact fun _ _ _ _ => follows_throw
  | succ n ih =>
    obtain ⟨n', rfl⟩ := Nat.exists_eq_add_one.mpr (Nat.lt_of_lt_of_le (Nat.succ_pos n) hn)
    intro b c c' hc
    refine (hk.rowHasNext hc.row).bind ?_
    rintro b' ⟨more, row⟩ ⟨_, row'⟩ hle ⟨rfl, hrow⟩
    have houter := S.mono hle hc.outer
    refine follows_ite (follows_pure ⟨rfl, houter, hrow⟩) ?_
    refine (h.pull? houter).bind ?_
    rintro b'' ⟨o, s⟩ ⟨o', s'⟩ hle' ⟨ha, hs⟩
    obtain ha | _ := ha
    · refine (hstart b'').bind ?_
      intro b''' t t' hle'' ht
      exact ih (Nat.le_of_succ_le_succ hn) ⟨S.mono hle'' hs, .some ⟨V.mono hle'' ha, ht⟩⟩
    · exact follows_pure ⟨rfl, hs, .none⟩

theorem Mimics.pairs (h : C.Mimics S V m m') (hk : C.Mimics R W k k')
    (hstart : ∀ b, C.Follows b start start' R) {n n' : Nat} (hn : n ≤ n') :
    C.Mimics (S.rowed V R) (V.prod W) (m.pairs n start k) (m'.pairs n' start' k') where
  hasNext := h.seekRow hk hstart hn
  next b c c' hc := by
    refine (h.seekRow hk hstart hn hc).bind ?_
    rintro b' ⟨more, s, row⟩ ⟨_, s', row'⟩ hle ⟨rfl, hs, hrow⟩
    cases hrow with
    | none => cases more <;> exact follows_pure ⟨.error _, hs, .none⟩
    | @some row row' hrow =>
      cases more with
      | false => exact follows_pure ⟨.error _, hs, .some hrow⟩
      | true =>
        refine (hk.next hrow.2).bind ?_
        rintro b'' ⟨answer, t⟩ ⟨answer', t'⟩ hle' ⟨ha, ht⟩
        have hfront := V.mono hle' hrow.1
        refine follows_pure ⟨?_, S.mono hle' hs, .some ⟨hfront, ht⟩⟩
        exact Rel.map_answer (Q := V.prod W) (f := (row.1, ·)) (fun hc => ⟨hfront, hc⟩) ha

end Comparison

end LazySeq
