import LazySeq.Proofs.Frame
import LazySeq.Stage.Replay

/-!
# Pass after pass is lawful

A replay has left what the running pass has left and the passes still to come. Where their number is
not limited, it supplies any number of them; it comes to an end only over nothing.
-/

namespace LazySeq

namespace Frame

variable {ω σ α : Type} {fr : Frame ω} {ends : Prop} {m : Machine ω σ α} {U : fr.Account α σ}
variable {start : Comp ω σ} {all : List α}

/-- The passes over `all` still to come. Without a limit it is any number of them, and that there
are no more is known only of passes over nothing. -/
def PassesLeft (ends : Prop) (all : List α) (left : Option Nat) (ys : List α) : Prop :=
  ∃ j, ys = (List.replicate j all).flatten ∧ (∀ n, left = some n → j = n) ∧
    (left = none → ends → all = [])

/-- Where a pass can be begun over something, it comes first, and one pass less is left. -/
theorem PassesLeft.succ {left : Option Nat} {ys : List α} (h : PassesLeft ends all left ys)
    (hends : ys = [] → ends) (hleft : left ≠ some 0) (hall : all ≠ []) :
    ∃ rest, ys = all ++ rest ∧ PassesLeft ends all (left.map (· - 1)) rest := by
  obtain ⟨j, hys, hlimit, hnone⟩ := h
  obtain ⟨i, rfl⟩ : ∃ i, j = i + 1 := by
    refine Nat.exists_eq_add_one.mpr (Nat.pos_of_ne_zero fun hj => ?_)
    subst hj
    -- that no pass is left would be known from the limit, or from the end
    cases left with
    | some n => exact hleft (by rw [← hlimit n rfl])
    | none => exact hall (hnone rfl (hends hys))
  refine ⟨(List.replicate i all).flatten, ?_, i, rfl, ?_, ?_⟩
  · rw [hys, List.replicate_succ, List.flatten_cons]
  · intro n hn
    obtain ⟨l, hl, hpred⟩ := Option.map_eq_some_iff.mp hn
    have hi := hlimit l hl
    omega
  · intro hn
    exact hnone (Option.map_eq_none_iff.mp hn)

/-- What a replay has left. A pass from which nothing was taken yet has an element, and so has
every later one. -/
def ReplayLeft (ends : Prop) (all : List α) (U : fr.Account α σ) : fr.Account α (Replay σ)
  | ys, .fresh left => fun F _ => F = Region.none ∧ PassesLeft ends all left ys
  | ys, .running s yielded left => fun F w => ∃ xs rest, ys = xs ++ rest ∧
    PassesLeft ends all left rest ∧ all ≠ [] ∧ (yielded = false → xs ≠ []) ∧ U xs s F w
  | ys, .ended => fun F _ => F = Region.none ∧ ys = []

/-- The same once it was asked: before an element, or past all of them. -/
def ReplayAsked (ends : Prop) (all : List α) (U : fr.Account α σ) : fr.Account α (Replay σ)
  | _, .fresh _ => fun _ _ => False
  | ys, .running s _ left => fun F w => ∃ x xs rest, ys = x :: xs ++ rest ∧
    PassesLeft ends all left rest ∧ all ≠ [] ∧ U (x :: xs) s F w
  | ys, .ended => fun F _ => F = Region.none ∧ ys = []

theorem ReplayAsked.left {ys : List α} {r : Replay σ} {F : fr.Region} {w : ω}
    (h : ReplayAsked ends all U ys r F w) : ReplayLeft ends all U ys r F w := by
  cases r with
  | fresh left => exact h.elim
  | running s yielded left =>
    obtain ⟨x, xs, rest, hys, hrest, hall, hs⟩ := h
    exact ⟨x :: xs, rest, hys, hrest, hall, fun _ => List.cons_ne_nil x xs, hs⟩
  | ended => exact h

theorem keeps_replayLeft (h : fr.Supplies True Machine.Exactly m U) (ys : List α) (r : Replay σ) :
    fr.Keeps (ReplayLeft ends all U ys r) := by
  cases r with
  | fresh left => exact keeps_none
  | running s yielded left =>
    refine .of_follows ?_
    intro F w ⟨xs, rest, hys, hrest, hall, hyielded, hs⟩
    exact ⟨_, h.keeps xs s, hs, fun _ hs' => ⟨xs, rest, hys, hrest, hall, hyielded, hs'⟩⟩
  | ended => exact keeps_none

/-- A pass that is left is started. -/
theorem startPass_of_ne_zero {left : Option Nat} (hzero : left ≠ some 0) :
    m.startPass start left = do
      let (more, s) ← m.hasNext (← start)
      if more then
        return (true, .running s false (left.map (· - 1)))
      else
        return (false, .ended) := by
  unfold Machine.startPass
  split
  · exact absurd rfl hzero
  · rfl

variable (hstart : ∀ w, start.Returns w fun s w' => Reaches (U all s) Region.none w w')
include hstart

/-- A pass is started if one is left, and goes on if there is anything to walk. Whatever was owned
before is given up. -/
theorem Supplies.startPass (h : fr.Supplies True Machine.Exactly m U) {left : Option Nat}
    {ys : List α} (hends : ys = [] → ends) (hleft : PassesLeft ends all left ys) (F : fr.Region)
    (w : ω) :
    (m.startPass start left).Returns w fun r w' =>
      r.1 = !ys.isEmpty ∧ Reaches (ReplayAsked ends all U ys r.2) F w w' := by
  by_cases hzero : left = some 0
  · obtain ⟨j, hys, hlimit, _⟩ := hleft
    have hnil : ys = [] := by
      rw [hys, hlimit 0 hzero]
      rfl
    subst hzero hnil
    exact Comp.returns_pure.mpr ⟨rfl, .give_up (Step.refl F w) ⟨rfl, rfl⟩⟩
  · rw [startPass_of_ne_zero hzero]
    refine (hstart w).bind ?_
    rintro s w' ⟨F', hstep, hs⟩
    refine (h.hasNext (fun _ => trivial) hs).bind ?_
    rintro ⟨more, s⟩ w'' ⟨rfl, hs⟩
    by_cases hall : all = []
    · -- a pass over nothing: whatever the number of passes, nothing is left
      have hnil : ys = [] := by
        obtain ⟨j, hys, _⟩ := hleft
        rw [hys, hall]
        simp
      obtain ⟨F'', hstep', -⟩ := hs
      rw [hnil, hall]
      exact Comp.returns_pure.mpr
        ⟨rfl, .give_up ((hstep.trans hstep').widen fun _ => False.elim) ⟨rfl, rfl⟩⟩
    · obtain ⟨rest, rfl, hrest⟩ := hleft.succ hends hzero hall
      obtain ⟨x, xs, rfl⟩ := List.exists_cons_of_ne_nil hall
      refine Comp.returns_pure.mpr ⟨rfl, (Reaches.mono (hs.trans hstep) ?_).of_none F⟩
      intro F'' hs
      exact ⟨x, xs, rest, rfl, hrest, hall, hs⟩

theorem Supplies.replayHasNext (h : fr.Supplies True Machine.Exactly m U) {ys : List α}
    {r : Replay σ} {F : fr.Region} {w : ω} (hends : ys = [] → ends)
    (hr : ReplayLeft ends all U ys r F w) :
    (m.replayHasNext start r).Returns w fun r w' =>
      r.1 = !ys.isEmpty ∧ Reaches (ReplayAsked ends all U ys r.2) F w w' := by
  cases r with
  | fresh left => exact h.startPass hstart hends hr.2 F w
  | ended =>
    obtain ⟨rfl, rfl⟩ := hr
    exact Comp.returns_pure.mpr ⟨rfl, .refl ⟨rfl, rfl⟩⟩
  | running s yielded left =>
    obtain ⟨xs, rest, rfl, hrest, hall, hyielded, hs⟩ := hr
    refine (h.hasNext (fun _ => trivial) hs).bind ?_
    rintro ⟨more, s⟩ w' ⟨rfl, F', hstep, hs⟩
    cases xs with
    | cons x xs =>
      exact Comp.returns_pure.mpr ⟨rfl, F', hstep, x, xs, rest, rfl, hrest, hall, hs⟩
    | nil =>
      cases yielded with
      | false => exact absurd rfl (hyielded rfl)
      | true =>
        refine (h.startPass hstart hends hrest F' w').mono ?_
        intro r w'' ⟨hr, hreach⟩
        exact ⟨hr, hreach.trans hstep⟩

/-- A replay of a sequence of which every pass, started in any world, has `all` left. -/
theorem Supplies.replay (h : fr.Supplies True Machine.Exactly m U) :
    fr.Supplies ends Machine.Exactly (m.replay start) (ReplayLeft ends all U) := by
  refine .of_asked (keeps_replayLeft h) ReplayAsked.left (h.replayHasNext hstart) ?_ ?_
  · intro F a ys w r hr
    cases r with
    | fresh left => exact hr.elim
    | ended => cases hr.2
    | running s yielded left =>
      obtain ⟨x, xs, rest, hys, hrest, hall, hs⟩ := hr
      obtain ⟨rfl, rfl⟩ := List.cons.inj hys
      refine (h.next_cons hs).bind ?_
      intro ⟨answer, s⟩ w' ⟨hb, hs⟩
      refine Comp.returns_pure.mpr ⟨hb, hs.mono fun F' hs => ?_⟩
      exact ⟨xs, rest, rfl, hrest, hall, fun hnot => absurd hnot.symm Bool.false_ne_true, hs⟩
  · intro F w r _ hr
    cases r with
    | fresh left => exact hr.elim
    | ended => exact Comp.returns_pure.mpr ⟨rfl, .refl hr⟩
    | running s yielded left =>
      obtain ⟨x, xs, rest, hys, -⟩ := hr
      cases hys

end Frame

end LazySeq
