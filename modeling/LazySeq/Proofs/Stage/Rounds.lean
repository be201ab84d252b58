import LazySeq.Proofs.Stage.Turns
import LazySeq.Proofs.Word

/-!
# A replay as a loop

`Machine.replay` says what one call comes to. `Machine.rounds` is the loop that comes to it: as long
as it is not settled whether an element is left, a pass is started, or the running pass is asked
and given up. The loop has no bound of its own, and it counts the passes down in a machine word.
-/

namespace LazySeq

/-- What the loop keeps. -/
structure Rounds (σ : Type) where
  current : Option σ
  left : Option Nat
  yielded : Bool
  finished : Bool

namespace Rounds

variable {σ : Type}

/-- Nothing was started yet. -/
def fresh (left : Option Nat) : Rounds σ := ⟨none, left, false, false⟩

/-- Where the replay stands. -/
def toReplay (c : Rounds σ) : Replay σ :=
  match c.finished, c.current with
  | true, _ => .ended
  | false, none => .fresh c.left
  | false, some s => .running s c.yielded c.left

@[simp]
theorem toReplay_fresh (left : Option Nat) :
    (fresh left : Rounds σ).toReplay = .fresh left := rfl

/-- Uses up a pass that is left. -/
def countDown? : Option Nat → Option (Option Nat)
  | none => some none
  | some left => (Word.sub? left 1).map some

theorem countDown?_of_ne_zero {left : Option Nat} (h : left ≠ some 0) :
    countDown? left = some (left.map (· - 1)) := by
  cases left with
  | none => rfl
  | some n =>
    have hn : 1 ≤ n := Nat.one_le_iff_ne_zero.mpr fun hn => h (congrArg some hn)
    rw [countDown?, Word.sub?_of_le hn]
    rfl

end Rounds

namespace Machine

variable {ω σ α : Type}

/-! ## The loop -/

/-- Goes round until it is settled whether an element is left, but not more often than `n` times.
`fault` is what happens if the passes left are counted down below zero. -/
def goRound (fault : Comp ω (Bool × Rounds σ)) (start : Comp ω σ) (m : Machine ω σ α) :
    Nat → Rounds σ → Comp ω (Bool × Rounds σ)
  | 0, _ => throw .outOfFuel
  | n + 1, c =>
    if c.finished then
      return (false, c)
    else
      match c.current with
      | none =>
        if c.left = some 0 then
          m.goRound fault start n { c with finished := true }
        else
          match Rounds.countDown? c.left with
          | none => fault
          | some left => do
            let s ← start
            m.goRound fault start n { c with current := some s, left := left, yielded := false }
      | some s => do
        let (more, s) ← m.hasNext s
        if more then
          return (true, { c with current := some s })
        else
          m.goRound fault start n { c with current := none, finished := !c.yielded }

/-- Walks a sequence again and again by the loop, of at most `n` rounds a call. -/
def rounds (fault : Comp ω (Bool × Rounds σ)) (n : Nat) (start : Comp ω σ) (m : Machine ω σ α) :
    Machine ω (Rounds σ) α where
  hasNext := m.goRound fault start n
  next c := do
    match ← m.goRound fault start n c with
    | (true, ⟨some s, left, _, finished⟩) => do
      let (answer, s) ← m.next s
      return (answer, ⟨some s, left, true, finished⟩)
    | (_, c) => return (.error .exhausted, c)

variable {fault : Comp ω (Bool × Rounds σ)} {start : Comp ω σ} {m : Machine ω σ α}
variable {c : Rounds σ} {n : Nat}

theorem goRound_finished (h : c.finished = true) :
    m.goRound fault start (n + 1) c = pure (false, c) := by
  rw [goRound, if_pos h]

/-- Between two passes it takes three rounds. -/
theorem goRound_between (hcurrent : c.current = none) (hfinished : c.finished = false) :
    (do let r ← m.goRound fault start (n + 3) c; pure (r.1, r.2.toReplay)) =
      m.startPass start c.left := by
  obtain ⟨current, left, yielded, finished⟩ := c
  obtain rfl : current = none := hcurrent
  obtain rfl : finished = false := hfinished
  rw [goRound, if_neg Bool.false_ne_true]
  by_cases hleft : left = some 0
  · simp only [hleft, if_true, goRound_finished, pure_bind]
    rfl
  · simp only [if_neg hleft, Rounds.countDown?_of_ne_zero hleft,
      Frame.startPass_of_ne_zero hleft, bind_assoc]
    refine bind_congr fun s => ?_
    rw [goRound, if_neg Bool.false_ne_true, bind_assoc]
    refine bind_congr fun ⟨more, s⟩ => ?_
    cases more with
    | true => rfl
    | false =>
      -- nothing was taken from the pass that was just begun, so this round is the last but one
      simp only [Bool.false_eq_true, if_false, Bool.not_false, goRound_finished, pure_bind]
      rfl

/-- Wherever it stands, four rounds settle it, and the passes left never go below zero. -/
theorem goRound_eq (c : Rounds σ) :
    (do let r ← m.goRound fault start (n + 4) c; pure (r.1, r.2.toReplay)) =
      m.replayHasNext start c.toReplay := by
  obtain ⟨current, left, yielded, finished⟩ := c
  cases finished with
  | true =>
    rw [goRound_finished rfl]
    rfl
  | false =>
    cases current with
    | none => exact goRound_between rfl rfl
    | some s =>
      have hreplay : Rounds.toReplay ⟨some s, left, yielded, false⟩ = .running s yielded left := rfl
      rw [hreplay, replayHasNext, goRound, if_neg Bool.false_ne_true, bind_assoc]
      refine bind_congr fun ⟨more, s⟩ => ?_
      cases more with
      | true => rfl
      | false =>
        -- one round gave the pass up; the three that are left do for the next
        cases yielded with
        | true => exact goRound_between (c := ⟨none, left, true, false⟩) rfl rfl
        | false =>
          simp only [Bool.false_eq_true, if_false, Bool.not_false, goRound_finished, pure_bind]
          rfl

/-- The loop says that an element is left only if it is not finished. -/
theorem ensures_goRound (w : ω) :
    (m.goRound fault start n c).Ensures w fun r _ => r.1 = true → r.2.finished = false := by
  -- on the rounds: the last one has asked a pass, or has found the loop finished
  induction n generalizing c w with
  | zero => exact nofun
  | succ n ih =>
    obtain ⟨current, left, yielded, finished⟩ := c
    cases finished with
    | true =>
      rw [goRound_finished rfl]
      exact Comp.ensures_pure.mpr nofun
    | false =>
      rw [goRound, if_neg Bool.false_ne_true]
      cases current with
      | none =>
        by_cases hleft : left = some 0
        · simp only [hleft, if_true]
          exact ih w
        · simp only [if_neg hleft, Rounds.countDown?_of_ne_zero hleft]
          exact Comp.ensures_bind.mpr fun s w' _ => ih w'
      | some s =>
        refine Comp.ensures_bind.mpr fun ⟨more, s⟩ w' _ => ?_
        cases more with
        | true => exact Comp.ensures_pure.mpr fun _ => rfl
        | false => exact ih w'

/-- The loop is the replay, whatever the passes do, if it is given four rounds a call. -/
theorem rounds_seenAs_replay (hn : 4 ≤ n) :
    (m.rounds fault n start).SeenAs Rounds.toReplay id (m.replay start) := by
  obtain ⟨n, rfl⟩ : ∃ k, n = k + 4 := Nat.exists_eq_add_of_le' hn
  refine ⟨goRound_eq, fun c => ?_⟩
  rw [rounds, replay]
  have hround : (do let r ← m.goRound fault start (n + 4) c; pure (r.1, r.2.toReplay)) =
      m.replayHasNext start c.toReplay := goRound_eq c
  simp only [← hround, bind_assoc, pure_bind]
  funext w
  -- both look at the pass only where the loop is not finished, so that the replay sees it too
  refine (ensures_goRound w).bind_congr ?_
  intro ⟨more, current, left, yielded, finished⟩ w' hmore
  cases more with
  | false => cases finished <;> cases current <;> rfl
  | true =>
    obtain rfl : finished = false := hmore rfl
    cases current with
    | none => rfl
    | some s =>
      simp only [bind_assoc, pure_bind, Except.map_id, id]
      rfl

end Machine

/-! ## Every call returns -/

open Machine
open Signal (Adds begun)

variable {ω σ α : Type} {start : Comp ω σ} {m : Machine ω σ α} {Idle : ω → Prop}
variable {Open : ω → σ → Prop} {w : ω}

/-- The calls of a source and of its cursors return, whatever they answer. `Idle` is known of a
world where a cursor may be started, `Open` of a cursor that may be called. -/
structure Responds (start : Comp ω σ) (m : Machine ω σ α) (Idle : ω → Prop)
    (Open : ω → σ → Prop) : Prop where
  start {w : ω} : Idle w → start.Returns w fun s w' => Open w' s
  hasNext {w : ω} {s : σ} : Open w s → (m.hasNext s).Returns w fun r w' => Open w' r.2
  next {w : ω} {s : σ} : Open w s → (m.next s).Returns w fun r w' => Open w' r.2
  idle {w : ω} {s : σ} : Open w s → Idle w

/-- The same of cursors with names. -/
theorem Responds.named (h : Responds start m Idle Open) :
    Responds (enrolStart start) m.named (fun v => Idle v.world)
      fun v pass => Open v.world pass.2 where
  start hw := by
    refine (h.start hw).enrolStart.mono ?_
    intro pass v' ⟨hs, _⟩
    exact hs
  hasNext hs := by
    refine (h.hasNext hs).named_hasNext.mono ?_
    intro r v' ⟨hs, _⟩
    exact hs
  next hs := by
    refine (h.next hs).named_next.mono ?_
    intro r v' ⟨hs, _⟩
    exact hs
  idle := h.idle

/-- The replay can go on from here. -/
def Able (Idle : ω → Prop) (Open : ω → σ → Prop) (w : ω) : Replay σ → Prop
  | .fresh _ => Idle w
  | .running pass _ _ => Open w pass
  | .ended => True

theorem Responds.startPass (h : Responds start m Idle Open) (hw : Idle w) (left : Option Nat) :
    (m.startPass start left).Returns w fun r w' => Able Idle Open w' r.2 := by
  by_cases hleft : left = some 0
  · subst hleft
    exact Comp.returns_pure.mpr trivial
  · rw [Frame.startPass_of_ne_zero hleft]
    refine (h.start hw).bind ?_
    intro s w' hs
    refine (h.hasNext hs).bind ?_
    intro ⟨more, s⟩ w'' hs
    cases more with
    | true => exact Comp.returns_pure.mpr hs
    | false => exact Comp.returns_pure.mpr trivial

theorem Responds.replayHasNext (h : Responds start m Idle Open) {r : Replay σ}
    (hr : Able Idle Open w r) :
    (m.replayHasNext start r).Returns w fun r w' => Able Idle Open w' r.2 := by
  cases r with
  | fresh left => exact h.startPass hr left
  | ended => exact Comp.returns_pure.mpr trivial
  | running s yielded left =>
    refine (h.hasNext hr).bind ?_
    intro ⟨more, s⟩ w' hs
    cases more with
    | true => exact Comp.returns_pure.mpr hs
    | false =>
      cases yielded with
      | true => exact h.startPass (h.idle hs) left
      | false => exact Comp.returns_pure.mpr trivial

theorem Responds.call (h : Responds start m Idle Open) {r : Replay σ} (hr : Able Idle Open w r)
    (ask : Ask) : ((m.replay start).call ask r).Returns w fun r w' => Able Idle Open w' r.2 := by
  refine returns_call (fun _ => h.replayHasNext hr) fun _ => ?_
  refine (h.replayHasNext hr).bind ?_
  intro ⟨more, r⟩ w' hr
  match more, r, hr with
  | true, .running s _ left, hr =>
    refine (h.next hr).bind ?_
    intro ⟨answer, s⟩ w'' hs
    exact Comp.returns_pure.mpr hs
  | true, .fresh left, hr => exact Comp.returns_pure.mpr hr
  | true, .ended, hr => exact Comp.returns_pure.mpr hr
  | false, r, hr => exact Comp.returns_pure.mpr hr

/-- What every schedule of calls on a replay with named passes keeps up. -/
structure Spins (Idle : ω → Prop) (Open : ω → σ → Prop) (limit : Option Nat)
    (replies : List (Reply α)) (v : Noted ω Signal) (r : Replay (Nat × σ)) : Prop where
  able : Able (fun v => Idle v.world) (fun v pass => Open v.world pass.2) v r
  turns : Turns limit v.notes r
  ended : .more false ∈ replies → r = .ended

theorem spins_fresh (limit : Option Nat) (hw : Idle w) :
    Spins Idle Open limit ([] : List (Reply α)) ⟨w, []⟩ (.fresh limit) :=
  ⟨hw, turns_fresh limit, nofun⟩

theorem Spins.call {limit : Option Nat} {replies : List (Reply α)} {v : Noted ω Signal}
    {r : Replay (Nat × σ)} (h : Responds start m Idle Open) (hr : Spins Idle Open limit replies v r)
    (ask : Ask) :
    ((m.named.replay (enrolStart start)).call ask r).Returns v fun r' v' =>
      Spins Idle Open limit (replies ++ [r'.1]) v' r'.2 ∧ Adds 1 2 v.notes v'.notes := by
  by_cases hended : r = .ended
  · subst hended
    rw [call_ended]
    refine Comp.returns_pure.mpr ⟨⟨hr.able, hr.turns, fun _ => rfl⟩, ?_⟩
    exact (Adds.refl v.notes).mono (Nat.zero_le 1) (Nat.zero_le 2)
  · refine ((h.named.call hr.able ask).and_ensures (ensures_call_replay hr.turns ask)).mono ?_
    intro r' v' ⟨hable, hturns, hadds, hrefused⟩
    refine ⟨⟨hable, hturns, fun hmem => ?_⟩, hadds⟩
    rcases List.mem_append.mp hmem with hmem | hmem
    · exact absurd (hr.ended hmem) hended
    · exact hrefused (List.mem_singleton.mp hmem).symm

/-- A replay never spins, whatever its source answers, as long as the calls of the source return.
The loop settles every call within four rounds without counting the passes left below zero, so that
it is the replay; each call returns, having begun one pass at the most and asked passes twice at
the most; no more passes are begun than the limit allows; and after the answer that nothing is left
there is no further one, and no call of a pass. -/
theorem replay_never_spins (h : Responds start m Idle Open) (limit : Option Nat) (asks : List Ask)
    (hw : Idle w) :
    (∀ (fault : Comp ω (Bool × Rounds σ)) (n : Nat), 4 ≤ n →
      (do let r ← (m.rounds fault n start).run asks (.fresh limit); pure (r.1, r.2.toReplay)) =
        (m.replay start).run asks (.fresh limit)) ∧
    ((m.named.replay (enrolStart start)).run asks (.fresh limit)).Returns ⟨w, []⟩ fun r v =>
      (∀ most, limit = some most → begun v.notes ≤ most) ∧
      (∀ ask, ((m.named.replay (enrolStart start)).call ask r.2).Returns v fun _ v' =>
        Adds 1 2 v.notes v'.notes) ∧
      (.more false ∈ r.1 → ∀ later, (m.named.replay (enrolStart start)).run later r.2 v =
        .ok (later.map Ask.refusal, r.2) v) := by
  constructor
  · intro fault n hn
    have hseen : (m.rounds fault n start).SeenAs Rounds.toReplay id (m.replay start) :=
      rounds_seenAs_replay hn
    have hrun := hseen.run asks (.fresh limit)
    rwa [Reply.map_id, Rounds.toReplay_fresh, funext fun r => List.map_id r] at hrun
  · have hrun := returns_run (m := m.named.replay (enrolStart start))
      (fun _ => Spins (α := α) Idle Open limit)
      (fun ask _ _ _ _ hr => (hr.call h ask).mono fun _ _ hr' => hr'.1) asks
      (spins_fresh limit hw)
    refine hrun.mono ?_
    intro ⟨replies, r⟩ v hr
    refine ⟨fun most hmost => hr.turns.begun_le hmost, fun ask => ?_, fun hrefused later => ?_⟩
    · exact (hr.call h ask).mono fun _ _ hr' => hr'.2
    · obtain rfl : r = .ended := hr.ended hrefused
      rw [run_of_refuses rfl rfl]
      rfl

/-- A source that answers as it likes: its cursors say in turn that an element is left and that
none is, and every pull fails. -/
theorem replay_never_spins_erratic :
    let m : Machine Unit Bool Nat := ⟨fun b => pure (b, !b), fun b => pure (.error .exhausted, b)⟩
    let r := m.named.replay (enrolStart (pure true))
    (r.run [.next, .hasNext, .next, .hasNext] (.fresh (some 3))).Returns ⟨(), []⟩ fun _ v =>
      begun v.notes ≤ 3 := by
  intro m r
  have hresponds : Responds (pure true) m (fun _ => True) (fun _ _ => True) :=
    ⟨fun _ => Comp.returns_pure.mpr trivial, fun _ => Comp.returns_pure.mpr trivial,
      fun _ => Comp.returns_pure.mpr trivial, fun _ => trivial⟩
  have h := replay_never_spins hresponds (some 3) [.next, .hasNext, .next, .hasNext]
    (w := ()) trivial
  exact h.2.mono fun _ _ hv => hv.1 3 rfl

end LazySeq
