import LazySeq.Proofs.Independence.Session

/-!
# Sides do not interfere

The main statement is `Session.sees_iff_alone`: what the sides of a session see, turn after turn, is
what each of them sees when it takes its own turns alone. This holds of any restartable sequence,
any number of sides and any order of their turns, and all turns of the session are answered exactly
when those of each side alone are.

Beside the world of the session stands one world for each side, in which that side alone has had its
turns. In the world of the session every side owns spots, and no spot has two owners. A side's own
spots are paired with spots of its own world, both ways (`Twin`): from the session to the side, so
that the side alone is answered where the session is, and back. A turn changes spots of its side and
makes new ones, which then belong to that side (`Twin.step`); for all other sides it might as well
not have been taken (`Twin.of_same`).
-/

namespace LazySeq

variable {ω τ ι : Type}

/-! ## One side -/

/-- Nothing has to be kept. -/
def keepNothing : Spot → Option (Content ω τ) :=
  fun _ => none

open Classical in
/-- What stands in the spots that are not owned. -/
noncomputable def World.outside (w : World ω τ) (own : Spot → Prop) : Spot → Option (Content ω τ) :=
  fun p => if own p then none else w.content p

theorem World.outside_eq_none_iff {w : World ω τ} {own : Spot → Prop} {p : Spot} :
    w.outside own p = none ↔ own p ∨ w.content p = none := by
  by_cases hp : own p <;> simp [World.outside, hp]

theorem World.outside_eq_some_iff {w : World ω τ} {own : Spot → Prop} {p : Spot}
    {c : Content ω τ} : w.outside own p = some c ↔ ¬ own p ∧ w.content p = some c := by
  simp [World.outside]

/-- The spots that are owned after a step: those that were, and those that are new. -/
def Grown (own : Spot → Prop) (w w' : World ω τ) (p : Spot) : Prop :=
  w'.content p ≠ none ∧ (own p ∨ w.content p = none)

/-- A side stands alone in the world `v` as it does in the world `w`, where it owns the spots `own`.
Both ways are needed: each pairing alone says only that one run is answered where the other is. -/
structure Twin (own : Spot → Prop) (w v : World ω τ) (held alone : List CursorId) : Prop where
  there : ∃ b : Pairing, w.Alike b v ∧ (∀ p q, b p q → own p) ∧ List.Forall₂ b.cells held alone
  back : ∃ b : Pairing, v.Alike b w ∧ (∀ q p, b q p → own p) ∧ List.Forall₂ b.cells alone held

namespace Twin

variable {own : Spot → Prop} {w w' v v' : World ω τ} {held alone : List CursorId}
variable {s : Sequence ω τ} {fuel : Nat} {turn : Turn} {seen seen' : Sight}
variable {now now' : List CursorId}

theorem nil (own : Spot → Prop) (w v : World ω τ) : Twin own w v [] [] where
  there := ⟨.empty, fun hp => hp.elim, fun _ _ hp => hp.elim, .nil⟩
  back := ⟨.empty, fun hp => hp.elim, fun _ _ hp => hp.elim, .nil⟩

/-- Of the world of the session a side knows no more than its own spots. -/
theorem of_same (h : Twin own w v held alone) (hsame : ∀ p, own p → w'.content p = w.content p) :
    Twin own w' v held alone where
  there := by
    obtain ⟨b, hb, hown, hheld⟩ := h.there
    refine ⟨b, fun {p q} hp => ?_, hown, hheld⟩
    rw [hsame p (hown p q hp)]
    exact hb hp
  back := by
    obtain ⟨b, hb, hown, hheld⟩ := h.back
    refine ⟨b, fun {q p} hp => ?_, hown, hheld⟩
    rw [hsame p (hown q p hp)]
    exact hb hp

/-- A turn that is answered in the session is answered alone, and the side sees the same. What the
side does not own is left as it was. -/
theorem answers (hs : s.Restartable) (h : Twin own w v held alone)
    (hrun : turn.run fuel s held w = .ok (seen, now) w') :
    ∃ now' v', turn.run fuel s alone v = .ok (seen, now') v' ∧
      (∃ b : Pairing, w'.Alike b v' ∧ (∀ p q, b p q → Grown own w w' p) ∧
        List.Forall₂ b.cells now now') ∧
      ∀ p c, ¬ own p → w.content p = some c → w'.content p = some c := by
  obtain ⟨b, hb, hown, hheld⟩ := h.there
  have hapart : Apart (w.outside own) keepNothing b w v :=
    ⟨hb, fun hp => ⟨World.outside_eq_none_iff.mpr (.inl (hown _ _ hp)), rfl⟩,
      fun hc => (World.outside_eq_some_iff.mp hc).2, nofun⟩
  obtain ⟨b', ⟨_, now'⟩, v', -, hrun', hb', rfl, hnow⟩ :=
    carries_turn hs fuel turn hheld w w' v _ hapart hrun
  refine ⟨now', v', hrun', ⟨b', hb'.alike, fun p q hp => ?_, hnow⟩,
    fun p c hp hc => hb'.kept (World.outside_eq_some_iff.mpr ⟨hp, hc⟩)⟩
  obtain ⟨c, -, hc, -⟩ := hb'.alike hp
  exact ⟨by simp [hc], World.outside_eq_none_iff.mp (hb'.free hp).1⟩

theorem answers_back (hs : s.Restartable) (h : Twin own w v held alone)
    (hrun : turn.run fuel s alone v = .ok (seen, now) v') :
    ∃ now' w', turn.run fuel s held w = .ok (seen, now') w' ∧
      ∃ b : Pairing, v'.Alike b w' ∧ (∀ q p, b q p → Grown own w w' p) ∧
        List.Forall₂ b.cells now now' := by
  obtain ⟨b, hb, hown, hheld⟩ := h.back
  have hapart : Apart keepNothing (w.outside own) b v w :=
    ⟨hb, fun hp => ⟨rfl, World.outside_eq_none_iff.mpr (.inl (hown _ _ hp))⟩, nofun,
      fun hc => (World.outside_eq_some_iff.mp hc).2⟩
  obtain ⟨b', ⟨_, now'⟩, w', -, hrun', hb', rfl, hnow⟩ :=
    carries_turn hs fuel turn hheld v v' w _ hapart hrun
  refine ⟨now', w', hrun', b', hb'.alike, fun q p hp => ?_, hnow⟩
  obtain ⟨-, c, -, hc, -⟩ := hb'.alike hp
  exact ⟨by simp [hc], World.outside_eq_none_iff.mp (hb'.free hp).2⟩

/-- A turn that is answered in both worlds. -/
theorem step (hs : s.Restartable) (h : Twin own w v held alone)
    (hrun : turn.run fuel s held w = .ok (seen, now) w')
    (hrun' : turn.run fuel s alone v = .ok (seen', now') v') :
    seen = seen' ∧ Twin (Grown own w w') w' v' now now' ∧
      ∀ p c, ¬ own p → w.content p = some c → w'.content p = some c := by
  obtain ⟨_, _, hthen, hthere, hkept⟩ := h.answers hs hrun
  cases hrun'.symm.trans hthen
  obtain ⟨_, _, hthen', hback⟩ := h.answers_back hs hrun'
  cases hrun.symm.trans hthen'
  exact ⟨rfl, ⟨hthere, hback⟩, hkept⟩

end Twin

/-! ## All sides -/

/-- Every side stands alone in a world of its own as it does in the world `w` of the session, where
each owns spots that no other side owns. -/
structure Sides (own : ι → Spot → Prop) (w : World ω τ) (held : ι → List CursorId)
    (worlds : ι → World ω τ) (alone : ι → ι → List CursorId) : Prop where
  twin (i : ι) : Twin (own i) w (worlds i) (held i) (alone i i)
  unique {i j : ι} {p : Spot} : own i p → own j p → i = j
  there {i : ι} {p : Spot} : own i p → w.content p ≠ none

section

variable [DecidableEq ι] {own : ι → Spot → Prop} {w w' v' : World ω τ} {held : ι → List CursorId}
variable {worlds : ι → World ω τ} {alone : ι → ι → List CursorId} {s : Sequence ω τ} {fuel : Nat}
variable {i : ι} {turn : Turn} {turns : List (ι × Turn)} {seen : List (ι × Sight)}

/-- Who owns a spot after a turn of the side `i`, which then owns the spots `mine`. -/
theorem owner_cases {mine : Spot → Prop} {j : ι} {p : Spot} (h : Function.update own i mine j p) :
    j = i ∧ mine p ∨ j ≠ i ∧ own j p := by
  by_cases hj : j = i
  · subst hj
    exact .inl ⟨rfl, by simpa using h⟩
  · exact .inr ⟨hj, by simpa [hj] using h⟩

theorem Sides.step (hs : s.Restartable) (h : Sides own w held worlds alone) {saw saw' : Sight}
    {now now' : List CursorId} (hrun : turn.run fuel s (held i) w = .ok (saw, now) w')
    (hrun' : turn.run fuel s (alone i i) (worlds i) = .ok (saw', now') v') :
    saw = saw' ∧ Sides (Function.update own i (Grown (own i) w w')) w'
      (Function.update held i now) (Function.update worlds i v')
      (Function.update alone i (Function.update (alone i) i now')) := by
  obtain ⟨hsee, htwin, hkept⟩ := (h.twin i).step hs hrun hrun'
  -- what another side owns was there before and is not owned by the side whose turn it is
  have hsame : ∀ {j p}, j ≠ i → own j p → w'.content p = w.content p := by
    intro j p hj hp
    obtain ⟨c, hc⟩ := Option.ne_none_iff_exists'.mp (h.there hp)
    rw [hkept p c (fun hi => hj (h.unique hp hi)) hc, hc]
  have hnew : ∀ {j p}, j ≠ i → own j p → ¬ Grown (own i) w w' p := by
    rintro j p hj hp ⟨-, hi | hnone⟩
    · exact hj (h.unique hp hi)
    · exact h.there hp hnone
  refine ⟨hsee, fun j => ?_, fun {j k p} hjp hkp => ?_, fun {j p} hjp => ?_⟩
  · by_cases hj : j = i
    · subst hj
      simpa using htwin
    · simpa [hj] using (h.twin j).of_same fun p => hsame hj
  · obtain ⟨rfl, hj⟩ | ⟨hji, hj⟩ := owner_cases hjp
    · obtain ⟨rfl, hk⟩ | ⟨hki, hk⟩ := owner_cases hkp
      · rfl
      · exact absurd hj (hnew hki hk)
    · obtain ⟨rfl, hk⟩ | ⟨hki, hk⟩ := owner_cases hkp
      · exact absurd hk (hnew hji hj)
      · exact h.unique hj hk
  · obtain ⟨rfl, hp⟩ | ⟨hji, hp⟩ := owner_cases hjp
    · exact hp.1
    · rw [hsame hji hp]
      exact h.there hp

namespace Session

/-- What is seen of a session is what is seen of its first turn, and then of the others. -/
theorem run_cons_iff : (∃ w', run fuel s ((i, turn) :: turns) held w = .ok seen w') ↔
    ∃ saw now v others, turn.run fuel s (held i) w = .ok (saw, now) v ∧
      seen = (i, saw) :: others ∧
        ∃ w', run fuel s turns (Function.update held i now) v = .ok others w' := by
  constructor
  · rintro ⟨w', hrun⟩
    have hret : (run fuel s ((i, turn) :: turns) held).Returns w fun a _ => a = seen :=
      ⟨seen, w', hrun, rfl⟩
    rw [run, Comp.returns_bind] at hret
    obtain ⟨⟨saw, now⟩, v, hturn, hrest⟩ := hret
    obtain ⟨others, v', hothers, hseen⟩ := Comp.returns_bind.mp hrest
    exact ⟨saw, now, v, others, hturn, (Comp.returns_pure.mp hseen).symm, v', hothers⟩
  · rintro ⟨saw, now, v, others, hturn, rfl, v', hothers⟩
    have hret : (run fuel s ((i, turn) :: turns) held).Returns w fun a _ =>
        a = (i, saw) :: others := by
      rw [run, Comp.returns_bind]
      exact ⟨(saw, now), v, hturn,
        Comp.returns_bind.mpr ⟨others, v', hothers, Comp.returns_pure.mpr rfl⟩⟩
    obtain ⟨_, w', hrun, rfl⟩ := hret
    exact ⟨w', hrun⟩

theorem run_iff (hs : s.Restartable) (h : Sides own w held worlds alone) :
    (∃ w', run fuel s turns held w = .ok seen w') ↔
      seen.map Prod.fst = turns.map Prod.fst ∧
        ∀ i, ∃ v, run fuel s (turns.filter (·.1 = i)) (alone i) (worlds i) =
          .ok (seen.filter (·.1 = i)) v := by
  induction turns generalizing own w held worlds alone seen with
  | nil =>
    constructor
    · rintro ⟨w', ⟨⟩⟩
      exact ⟨rfl, fun i => ⟨_, rfl⟩⟩
    · rintro ⟨horder, -⟩
      obtain rfl := List.map_eq_nil_iff.mp horder
      exact ⟨w, rfl⟩
  | cons head turns ih =>
    obtain ⟨i, turn⟩ := head
    rw [run_cons_iff]
    constructor
    · rintro ⟨saw, now, w', others, hrun, rfl, hothers⟩
      obtain ⟨now', v', hrun', -⟩ := (h.twin i).answers hs hrun
      obtain ⟨-, hsides⟩ := h.step hs hrun hrun'
      obtain ⟨horder, heach⟩ := (ih hsides).mp hothers
      refine ⟨by simp [horder], fun j => ?_⟩
      have hj := heach j
      by_cases hij : i = j
      · subst hij
        simp only [Function.update_self] at hj
        simp only [decide_true, List.filter_cons_of_pos]
        exact run_cons_iff.mpr ⟨saw, now', v', _, hrun', rfl, hj⟩
      · simpa [hij, Function.update_of_ne (Ne.symm hij)] using hj
    · rintro ⟨horder, heach⟩
      obtain ⟨⟨j, saw⟩, others, rfl, hj, hrest⟩ := List.map_eq_cons_iff.mp horder
      obtain rfl : i = j := hj.symm
      have hmine := heach i
      simp only [decide_true, List.filter_cons_of_pos] at hmine
      obtain ⟨_, now', v', _, hrun', heq, hothers⟩ := run_cons_iff.mp hmine
      cases heq
      obtain ⟨now, w', hrun, -⟩ := (h.twin i).answers_back hs hrun'
      obtain ⟨-, hsides⟩ := h.step hs hrun hrun'
      refine ⟨saw, now, w', others, hrun, rfl, (ih hsides).mpr ⟨hrest, fun j => ?_⟩⟩
      by_cases hij : i = j
      · subst hij
        simpa only [Function.update_self] using hothers
      · simpa [hij, Function.update_of_ne (Ne.symm hij)] using heach j

/-- What a side sees of a session is what it sees when the turns of all other sides are left out,
and the session is answered when each side alone is. -/
theorem sees_iff_alone (hs : s.Restartable) : Sees fuel s turns w seen ↔
    seen.map Prod.fst = turns.map Prod.fst ∧
      ∀ i, Sees fuel s (turns.filter (·.1 = i)) w (seen.filter (·.1 = i)) := by
  have hstart : Sides (fun (_ : ι) _ => False) w (fun _ => []) (fun _ => w) fun _ _ => [] :=
    ⟨fun i => .nil _ w w, fun hp => hp.elim, fun hp => hp.elim⟩
  exact run_iff hs hstart

/-- Two sides over batches of a product, the second of which goes on to its second batch early. -/
theorem sees_iff_alone_batches :
    let digits : Sequence Unit Unit := .source (.list [.int 0, .int 1])
    let s := Sequence.batch 2 Nat.two_pos
      (.product (.pair digits (.map (.pure (Value.add 1)) digits)))
    let w : World Unit Unit := .fresh ()
    let turns : List (Bool × Turn) := [(true, .start), (false, .start), (true, .call 0 .next),
      (false, .call 0 .next), (true, .call 1 .next), (false, .call 0 .next), (true, .call 0 .next),
      (false, .call 1 .next), (true, .call 1 .next), (true, .call 2 .next),
      (false, .call 0 .hasNext)]
    let seen : List (Bool × Sight) := [(true, .started), (false, .started),
      (true, .reply (.item (.ok (.cursor 1)))), (false, .reply (.item (.ok (.cursor 1)))),
      (true, .reply (.item (.ok (.list [.int 0, .int 1])))),
      (false, .reply (.item (.ok (.cursor 2)))), (true, .reply (.item (.ok (.cursor 2)))),
      (false, .reply (.item (.ok (.list [.int 0, .int 1])))),
      (true, .reply (.item (.ok (.list [.int 0, .int 2])))),
      (true, .reply (.item (.ok (.list [.int 1, .int 1])))), (false, .reply (.more false))]
    s.Restartable ∧ Sees 9 s turns w seen ∧
      ∀ i, Sees 9 s (turns.filter (·.1 = i)) w (seen.filter (·.1 = i)) := by
  intro digits s w turns seen
  have hdigits : digits.Restartable := .source (.list (by decide))
  have hadded : (Sequence.map (.pure (Value.add 1)) digits).Restartable :=
    .map (Fn.isPure_pure (Value.uniform_onInt fun _ => rfl)) hdigits
  have hboth : ∀ t ∈ [digits, .map (.pure (Value.add 1)) digits], t.Restartable :=
    List.forall_mem_cons.mpr ⟨hdigits, List.forall_mem_singleton.mpr hadded⟩
  have hs : s.Restartable := .batch 2 _ (Sequence.restartable_product hboth)
  have hall : Sees 9 s turns w seen := by decide +kernel
  exact ⟨hs, hall, ((sees_iff_alone hs).mp hall).2⟩

end Session

end

end LazySeq
