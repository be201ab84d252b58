import LazySeq.Proofs.Signals
import LazySeq.Proofs.Stage.Replay

/-!
# Passes are begun in turn

What a replay signals of the passes it starts, whatever they do. A pass is begun only when the one
before has said that it has nothing left, and never more of them than the limit allows
(`Turns`). A call begins one at the most and asks twice at the most (`ensures_call_replay`).
-/

namespace LazySeq

/-! ## In turn -/

namespace Signal

/-- Every cursor that was begun has said that it has nothing left. -/
def Spent (signals : List Signal) : Prop :=
  ∀ i, .begins i ∈ signals → .replies i (.more false) ∈ signals

/-- A cursor is begun only when every cursor that was begun before has said that it has nothing
left. -/
def InTurn (signals : List Signal) : Prop :=
  ∀ before i, before ++ [.begins i] <+: signals → Spent before

/-- From `before` on at most so many cursors were begun, and it was asked at most so often whether
an element is left. -/
def Adds (starts asked : Nat) (before after : List Signal) : Prop :=
  ∃ new, after = before ++ new ∧ begun new ≤ starts ∧ questions new ≤ asked

variable {signals : List Signal} {i : Nat}

theorem spent_nil : Spent [] := nofun

theorem inTurn_nil : InTurn [] := fun before i h => by simp at h

/-- One signal more. -/
theorem InTurn.concat (h : InTurn signals) {e : Signal} (he : ∀ i, e = .begins i → Spent signals) :
    InTurn (signals ++ [e]) := by
  intro before i hbefore
  rcases List.prefix_concat_iff.mp hbefore with heq | hbefore
  · obtain ⟨rfl, hbegins⟩ := List.append_singleton_inj.mp heq
    exact he i hbegins.symm
  · exact h before i hbefore

/-- A call begins nothing. -/
theorem InTurn.call (h : InTurn signals) (ask : Ask) (reply : Reply Unit) :
    InTurn (signals ++ [.asks i ask, .replies i reply]) := by
  have hasked : InTurn (signals ++ [.asks i ask]) := h.concat nofun
  have hreplied : InTurn (signals ++ [.asks i ask] ++ [.replies i reply]) := hasked.concat nofun
  rwa [List.append_assoc] at hreplied

theorem Adds.refl (signals : List Signal) : Adds 0 0 signals signals :=
  ⟨[], by simp, Nat.le_refl 0, Nat.le_refl 0⟩

theorem Adds.trans {s a s' a' : Nat} {x y z : List Signal} (h : Adds s a x y)
    (h' : Adds s' a' y z) : Adds (s + s') (a + a') x z := by
  obtain ⟨new, rfl, hs, ha⟩ := h
  obtain ⟨new', rfl, hs', ha'⟩ := h'
  refine ⟨new ++ new', List.append_assoc x new new', ?_, ?_⟩
  · rw [begun_append]
    omega
  · rw [questions_append]
    omega

theorem Adds.mono {s a s' a' : Nat} {x y : List Signal} (h : Adds s a x y) (hs : s ≤ s')
    (ha : a ≤ a') : Adds s' a' x y := by
  obtain ⟨new, rfl, hnew, hnew'⟩ := h
  exact ⟨new, rfl, hnew.trans hs, hnew'.trans ha⟩

theorem adds_begins (signals : List Signal) (i : Nat) : Adds 1 0 signals (signals ++ [.begins i]) :=
  ⟨[.begins i], rfl, Nat.le_refl 1, Nat.le_refl 0⟩

theorem adds_hasNext (signals : List Signal) (i : Nat) (reply : Reply Unit) :
    Adds 0 1 signals (signals ++ [.asks i .hasNext, .replies i reply]) :=
  ⟨_, rfl, Nat.le_refl 0, Nat.le_refl 1⟩

theorem adds_next (signals : List Signal) (i : Nat) (reply : Reply Unit) :
    Adds 0 0 signals (signals ++ [.asks i .next, .replies i reply]) :=
  ⟨_, rfl, Nat.le_refl 0, Nat.le_refl 0⟩

end Signal

open Signal

/-! ## The limit -/

/-- Of a limit on passes `n` are used up, and `left` remains. -/
def Remains (limit : Option Nat) (n : Nat) (left : Option Nat) : Prop :=
  limit = left.map (n + ·)

theorem remains_zero (limit : Option Nat) : Remains limit 0 limit := by
  cases limit <;> simp [Remains]

/-- A pass is used up where one is left, and what is left is then really one less. -/
theorem Remains.succ {limit left : Option Nat} {n : Nat} (h : Remains limit n left)
    (hleft : left ≠ some 0) : Remains limit (n + 1) (left.map (· - 1)) := by
  rw [Remains] at h ⊢
  subst h
  cases left with
  | none => rfl
  | some k =>
    have hk : k ≠ 0 := fun hk => hleft (congrArg some hk)
    have hsum : n + k = n + 1 + (k - 1) := by omega
    exact congrArg some hsum

theorem Remains.le {limit left : Option Nat} {n most : Nat} (h : Remains limit n left)
    (hlimit : limit = some most) : n ≤ most := by
  rw [Remains, hlimit] at h
  obtain ⟨k, -, hk⟩ := Option.map_eq_some_iff.mp h.symm
  omega

/-! ## Where a replay stands -/

/-- All passes begun so far are over, and `left` may still be started. -/
structure Between (limit left : Option Nat) (signals : List Signal) : Prop where
  remains : Remains limit (begun signals) left
  inTurn : InTurn signals
  spent : Spent signals

/-- What a replay has signalled so far. -/
def Turns (limit : Option Nat) (signals : List Signal) : Replay (Nat × σ) → Prop
  | .fresh left => Between limit left signals
  | .running pass _ left => Remains limit (begun signals) left ∧ InTurn signals ∧
    ∀ i, .begins i ∈ signals → i = pass.1 ∨ .replies i (.more false) ∈ signals
  | .ended => InTurn signals ∧ ∃ left, Remains limit (begun signals) left

/-- An answer and where the replay stands then: a pass goes on or there is none any more. -/
def Settled (r : Bool × Replay σ) : Prop :=
  match r.2 with
  | .fresh _ => False
  | .running _ _ _ => r.1 = true
  | .ended => r.1 = false

variable {ω σ α : Type} {start : Comp ω σ} {m : Machine ω σ α} {limit left : Option Nat}
variable {r : Replay (Nat × σ)} {v : Noted ω Signal} {signals : List Signal}

theorem turns_fresh (limit : Option Nat) :
    Turns limit [] (.fresh limit : Replay (Nat × σ)) :=
  ⟨remains_zero limit, inTurn_nil, spent_nil⟩

theorem Turns.inTurn (h : Turns limit signals r) : InTurn signals := by
  cases r with
  | fresh left => exact h.inTurn
  | running pass yielded left => exact h.2.1
  | ended => exact h.1

theorem Turns.begun_le (h : Turns limit signals r) {most : Nat} (hlimit : limit = some most) :
    begun signals ≤ most := by
  cases r with
  | fresh left => exact h.remains.le hlimit
  | running pass yielded left => exact h.1.le hlimit
  | ended =>
    obtain ⟨-, left, hremains⟩ := h
    exact hremains.le hlimit

/-- Once the running pass says that nothing is left, another may follow. -/
theorem Turns.between {pass : Nat × σ} {yielded : Bool}
    (h : Turns limit signals (.running pass yielded left)) :
    Between limit left
      (signals ++ [.asks pass.1 .hasNext, .replies pass.1 (.more false)]) where
  remains := by simpa using h.1
  inTurn := h.2.1.call .hasNext _
  spent i hi := by
    have hbegun : .begins i ∈ signals := by simpa using hi
    -- the running pass was the only one that had not said so yet
    rcases h.2.2 i hbegun with rfl | hspent
    · simp
    · exact List.mem_append_left _ hspent

/-- A call of the running pass leaves it running. -/
theorem Turns.call {pass pass' : Nat × σ} {yielded : Bool}
    (h : Turns limit signals (.running pass yielded left)) (ask : Ask) (reply : Reply Unit)
    (hname : pass'.1 = pass.1) (yielded' : Bool) :
    Turns limit (signals ++ [.asks pass.1 ask, .replies pass.1 reply])
      (.running pass' yielded' left) := by
  obtain ⟨hremains, hturn, hothers⟩ := h
  refine ⟨by simpa using hremains, hturn.call ask reply, fun i hi => ?_⟩
  have hbegun : .begins i ∈ signals := by simpa using hi
  rw [hname]
  exact (hothers i hbegun).imp_right (List.mem_append_left _)

/-- A pass is begun. -/
theorem Between.turns (h : Between limit left signals) (hleft : left ≠ some 0) (pass : Nat × σ) :
    Turns limit (signals ++ [.begins pass.1]) (.running pass false (left.map (· - 1))) := by
  refine ⟨?_, h.inTurn.concat fun _ _ => h.spent, fun i hi => ?_⟩
  · rw [begun_append]
    exact h.remains.succ hleft
  · rcases List.mem_append.mp hi with hi | hi
    · exact .inr (List.mem_append_left _ (h.spent i hi))
    · obtain rfl : i = pass.1 := by simpa using hi
      exact .inl rfl

theorem Between.ended (h : Between limit left signals) :
    Turns limit signals (.ended : Replay (Nat × σ)) :=
  ⟨h.inTurn, left, h.remains⟩

/-! ## What a call adds -/

/-- An ended replay stays so. -/
theorem call_ended (ask : Ask) :
    (m.replay start).call ask .ended = pure (ask.refusal, .ended) := by
  cases ask <;> rfl

theorem ensures_startPass_named (h : Between limit left v.notes) :
    (m.named.startPass (enrolStart start) left).Ensures v fun r v' =>
      Settled r ∧ Turns limit v'.notes r.2 ∧ Adds 1 1 v.notes v'.notes := by
  by_cases hleft : left = some 0
  · -- the limit is used up, so nothing is begun and nothing asked
    subst hleft
    exact Comp.ensures_pure.mpr ⟨rfl, h.ended, (Adds.refl _).mono (Nat.zero_le 1) (Nat.zero_le 1)⟩
  · rw [Frame.startPass_of_ne_zero hleft]
    refine ensures_enrolStart.bind ?_
    intro pass v₁ hbegins
    have hpass := h.turns hleft pass
    have hadds := adds_begins v.notes pass.1
    rw [← hbegins] at hpass hadds
    refine ensures_named_hasNext.bind ?_
    intro ⟨more, pass'⟩ v₂ ⟨hname, hasked⟩
    have hadds₂ := hadds.trans (adds_hasNext v₁.notes pass.1 (.more more))
    rw [← hasked] at hadds₂
    cases more with
    | true =>
      have hgoes := hpass.call .hasNext (.more true) hname false
      rw [← hasked] at hgoes
      exact Comp.ensures_pure.mpr ⟨rfl, hgoes, hadds₂⟩
    | false =>
      have hover := hpass.between
      rw [← hasked] at hover
      exact Comp.ensures_pure.mpr ⟨rfl, hover.ended, hadds₂⟩

theorem ensures_replayHasNext_named (h : Turns limit v.notes r) :
    (m.named.replayHasNext (enrolStart start) r).Ensures v fun r v' =>
      Settled r ∧ Turns limit v'.notes r.2 ∧ Adds 1 2 v.notes v'.notes := by
  cases r with
  | fresh left =>
    refine (ensures_startPass_named h).mono ?_
    intro r v' ⟨hsettled, hturns, hadds⟩
    exact ⟨hsettled, hturns, hadds.mono (Nat.le_refl 1) (Nat.le_succ 1)⟩
  | ended =>
    exact Comp.ensures_pure.mpr ⟨rfl, h, (Adds.refl _).mono (Nat.zero_le 1) (Nat.zero_le 2)⟩
  | running pass yielded left =>
    refine ensures_named_hasNext.bind ?_
    intro ⟨more, pass'⟩ v₁ ⟨hname, hasked⟩
    have hadds := adds_hasNext v.notes pass.1 (.more more)
    rw [← hasked] at hadds
    cases more with
    | true =>
      have hgoes := h.call .hasNext (.more true) hname yielded
      rw [← hasked] at hgoes
      exact Comp.ensures_pure.mpr ⟨rfl, hgoes, hadds.mono (Nat.zero_le 1) (Nat.le_succ 1)⟩
    | false =>
      have hover := h.between
      rw [← hasked] at hover
      cases yielded with
      | true =>
        -- the second question goes to the pass that is begun next
        refine (ensures_startPass_named hover).mono ?_
        intro r v' ⟨hsettled, hturns, hadds'⟩
        exact ⟨hsettled, hturns, hadds.trans hadds'⟩
      | false =>
        exact Comp.ensures_pure.mpr
          ⟨rfl, hover.ended, hadds.mono (Nat.zero_le 1) (Nat.le_succ 1)⟩

/-- Whatever the passes do, a call begins one at the most, asks twice at the most, and keeps the
passes in turn. -/
theorem ensures_call_replay (h : Turns limit v.notes r) (ask : Ask) :
    ((m.named.replay (enrolStart start)).call ask r).Ensures v fun r v' =>
      Turns limit v'.notes r.2 ∧ Adds 1 2 v.notes v'.notes ∧
        (r.1 = .more false → r.2 = .ended) := by
  refine Machine.ensures_call ?_ ?_
  · intro _
    refine (ensures_replayHasNext_named h).mono ?_
    intro ⟨more, r⟩ v' ⟨hsettled, hturns, hadds⟩
    refine ⟨hturns, hadds, fun hmore => ?_⟩
    obtain rfl : more = false := by simpa using hmore
    cases r with
    | fresh left => exact hsettled.elim
    | running pass yielded left => cases hsettled
    | ended => rfl
  · intro _
    refine (ensures_replayHasNext_named h).bind ?_
    intro ⟨more, r⟩ v₁ ⟨hsettled, hturns, hadds⟩
    cases r with
    | fresh left => exact hsettled.elim
    | ended =>
      obtain rfl : more = false := hsettled
      exact Comp.ensures_pure.mpr ⟨hturns, hadds, nofun⟩
    | running pass yielded left =>
      obtain rfl : more = true := hsettled
      refine ensures_named_next.bind ?_
      intro ⟨answer, pass'⟩ v₂ ⟨hname, hpulled⟩
      have hgoes := hturns.call .next (Reply.item answer).plain hname true
      have hadds₂ := hadds.trans (adds_next v₁.notes pass.1 (Reply.item answer).plain)
      rw [← hpulled] at hgoes hadds₂
      exact Comp.ensures_pure.mpr ⟨hgoes, hadds₂, nofun⟩

end LazySeq
