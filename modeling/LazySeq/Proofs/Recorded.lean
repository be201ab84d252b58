import LazySeq.Proofs.Schedule

/-!
# Recorded calls

`Machine.recorded` writes down every call of a machine with its reply, for statements about how
often and in which order a stage calls the cursor below it. What the machine does is not changed.
-/

namespace LazySeq

variable {ω σ α : Type}

/-- A world together with the replies that a machine gave, in order. -/
structure Recorded (ω α : Type) where
  world : ω
  calls : List (Reply α)

namespace Machine

/-- The same machine, with its calls written down. -/
def recorded (m : Machine ω σ α) : Machine (Recorded ω α) σ α where
  hasNext s := do
    let (more, s) ← (m.hasNext s).within Recorded.world fun w r => ⟨w, r.calls⟩
    modify fun r => ⟨r.world, r.calls ++ [.more more]⟩
    return (more, s)
  next s := do
    let (answer, s) ← (m.next s).within Recorded.world fun w r => ⟨w, r.calls⟩
    modify fun r => ⟨r.world, r.calls ++ [.item answer]⟩
    return (answer, s)

variable {m : Machine ω σ α} {s : σ} {v : Recorded ω α}

/-! ## Whatever the machine does -/

theorem ensures_recorded_hasNext :
    (m.recorded.hasNext s).Ensures v fun r v' => v'.calls = v.calls ++ [.more r.1] := by
  have hany : (m.hasNext s).Ensures v.world fun _ _ => True := fun _ _ _ => trivial
  refine hany.within.bind ?_
  rintro ⟨more, s⟩ _ ⟨w, rfl, -⟩
  rw [Comp.ensures_bind, Comp.ensures_modify, Comp.ensures_pure]

theorem ensures_recorded_next :
    (m.recorded.next s).Ensures v fun r v' => v'.calls = v.calls ++ [.item r.1] := by
  have hany : (m.next s).Ensures v.world fun _ _ => True := fun _ _ _ => trivial
  refine hany.within.bind ?_
  rintro ⟨answer, s⟩ _ ⟨w, rfl, -⟩
  rw [Comp.ensures_bind, Comp.ensures_modify, Comp.ensures_pure]

/-- A guarded pull takes at most one element, and the element it brings is the one it took. -/
theorem ensures_recorded_pull? :
    (m.recorded.pull? s).Ensures v fun r v' =>
      Reply.items v'.calls = Reply.items v.calls ++ r.1.toList ∧
        Reply.pulls v'.calls ≤ Reply.pulls v.calls + 1 := by
  refine ensures_recorded_hasNext.bind ?_
  intro ⟨more, s⟩ v' hv
  cases more with
  | false =>
    refine Comp.ensures_pure.mpr ?_
    simp [hv]
  | true =>
    refine ensures_recorded_next.bind ?_
    intro ⟨answer, s⟩ v'' hv'
    refine Comp.ensures_pure.mpr ?_
    rw [hv', hv]
    simp [-List.append_assoc]

/-- Pulling several elements loses none of them, and takes no more than it may. -/
theorem ensures_recorded_collect {n : Nat} :
    (m.recorded.collect n s).Ensures v fun r v' => r.1.length ≤ n ∧
      Reply.items v'.calls = Reply.items v.calls ++ r.1 ∧
        Reply.pulls v'.calls ≤ Reply.pulls v.calls + n := by
  suffices hgather : ∀ taken, (m.recorded.gather (pure ()) n taken s).Ensures v fun r v' =>
      ∃ new, r.1 = taken.reverse ++ new ∧ new.length ≤ n ∧
        Reply.items v'.calls = Reply.items v.calls ++ new ∧
          Reply.pulls v'.calls ≤ Reply.pulls v.calls + n by
    refine (hgather []).mono ?_
    rintro ⟨xs, s⟩ v' ⟨new, rfl, hnew⟩
    simpa using hnew
  induction n generalizing s v with
  | zero =>
    intro taken
    rw [Machine.gather, Comp.ensures_bind, Comp.ensures_pure, Comp.ensures_pure]
    exact ⟨[], by simp⟩
  | succ n ih =>
    intro taken
    refine ensures_recorded_pull?.bind ?_
    intro ⟨answer, s⟩ v' ⟨hitems, hpulls⟩
    cases answer with
    | none =>
      refine Comp.ensures_pure.mpr ⟨[], by simp, by simp, by simpa using hitems, ?_⟩
      show Reply.pulls v'.calls ≤ _
      omega
    | some a =>
      refine (ih (a :: taken)).mono ?_
      rintro ⟨xs, s⟩ v'' ⟨new, rfl, hlen, hitems', hpulls'⟩
      refine ⟨a :: new, by simp, by simpa using hlen, ?_, by omega⟩
      rw [hitems', hitems]
      simp

end Machine

end LazySeq
