import LazySeq.Proofs.Simulation.Basic
import LazySeq.Proofs.Stage.Transform
import LazySeq.Stage.Join

/-!
# Transforming and joining follows

The stages that hand on what the machines below hand out, element by element (`Machine.map`,
`Machine.each`) or one cursor after another (`Machine.chain`, `Machine.flatten`), over machines that
follow each other.
-/

namespace LazySeq

/-! ## States that are alike -/

section States

variable {σ σ' ρ ρ' : Type} {s t : σ → σ' → Prop} {r u : ρ → ρ' → Prop}

/-- Both on the first cursor, or both on the second. -/
inductive Relay.Alike (s : σ → σ' → Prop) (r : ρ → ρ' → Prop) :
    Relay σ ρ → Relay σ' ρ' → Prop where
  | first {now : σ} {now' : σ'} {later : ρ} {later' : ρ'} (hnow : s now now')
    (hlater : r later later') : Alike s r (.first now later) (.first now' later')
  | second {now : ρ} {now' : ρ'} (hnow : r now now') : Alike s r (.second now) (.second now')

structure Nested.Alike (s : σ → σ' → Prop) (r : ρ → ρ' → Prop) (c : Nested σ ρ)
    (c' : Nested σ' ρ') : Prop where
  outer : s c.outer c'.outer
  current : Option.Rel r c.current c'.current

theorem Relay.Alike.imp {c : Relay σ ρ} {c' : Relay σ' ρ'} (hs : ∀ {x x'}, s x x' → t x x')
    (hr : ∀ {x x'}, r x x' → u x x') (h : c.Alike s r c') : c.Alike t u c' := by
  cases h with
  | first hnow hlater => exact .first (hs hnow) (hr hlater)
  | second hnow => exact .second (hr hnow)

theorem Nested.Alike.imp {c : Nested σ ρ} {c' : Nested σ' ρ'} (hs : ∀ {x x'}, s x x' → t x x')
    (hr : ∀ {x x'}, r x x' → u x x') (h : c.Alike s r c') : c.Alike t u c' :=
  ⟨hs h.outer, Comparison.Rel.option_imp hr h.current⟩

end States

namespace Comparison

variable {ω ω' σ σ' ρ ρ' α α' β β' : Type} {C : Comparison ω ω'} {S : C.Rel σ σ'}
variable {R : C.Rel ρ ρ'} {V : C.Rel α α'} {W : C.Rel β β'}

namespace Rel

def relay (S : C.Rel σ σ') (R : C.Rel ρ ρ') : C.Rel (Relay σ ρ) (Relay σ' ρ') :=
  ⟨fun b => Relay.Alike (S b) (R b), fun hle h => h.imp (S.mono hle) (R.mono hle)⟩

def nested (S : C.Rel σ σ') (R : C.Rel ρ ρ') : C.Rel (Nested σ ρ) (Nested σ' ρ') :=
  ⟨fun b => Nested.Alike (S b) (R b), fun hle h => h.imp (S.mono hle) (R.mono hle)⟩

end Rel

/-! ## Element by element -/

theorem Mimics.map {m : Machine ω σ α} {m' : Machine ω' σ' α'} (h : C.Mimics S V m m')
    {f : α → Comp ω β} {f' : α' → Comp ω' β'} (hf : C.Carries V W f f') :
    C.Mimics S W (m.map f) (m'.map f') where
  hasNext := h.hasNext
  next b s s' hs := by
    refine (h.next hs).bind ?_
    rintro b' ⟨answer, s⟩ ⟨answer', s'⟩ hle ⟨ha, hs⟩
    obtain ha | e := ha
    · refine (hf ha).bind ?_
      intro b'' c c' hle' hc
      exact follows_pure ⟨.ok hc, S.mono hle' hs⟩
    · exact follows_pure ⟨.error e, hs⟩

/-- A map over the first alone. -/
theorem Mimics.map_left {m : Machine ω σ α} {m' : Machine ω' σ' α'} (h : C.Mimics S V m m')
    {W : C.Rel β α'} {f : α → Comp ω β} (hf : C.Carries V W f pure) :
    C.Mimics S W (m.map f) m' := by
  rw [← Machine.map_pure m']
  exact h.map hf

theorem Mimics.map_right {m : Machine ω σ α} {m' : Machine ω' σ' α'} (h : C.Mimics S V m m')
    {W : C.Rel α β'} {f' : α' → Comp ω' β'} (hf : C.Carries V W pure f') :
    C.Mimics S W m (m'.map f') := by
  rw [← Machine.map_pure m]
  exact h.map hf

theorem Mimics.each {m : Machine ω σ α} {m' : Machine ω' σ' α'} (h : C.Mimics S V m m')
    {act : α → Comp ω Unit} {act' : α' → Comp ω' Unit} (hact : C.Carries V Rel.eq act act') :
    C.Mimics S V (m.each act) (m'.each act') := by
  refine h.map ?_
  intro b a a' ha
  refine (hact ha).bind ?_
  intro b' _ _ hle _
  exact follows_pure (V.mono hle ha)

/-! ## Two in a row -/

variable {m : Machine ω σ α} {m' : Machine ω' σ' α'} {k : Machine ω ρ α} {k' : Machine ω' ρ' α'}

theorem Mimics.chainHasNext (h : C.Mimics S V m m') (hk : C.Mimics R V k k') :
    C.Carries (S.relay R) (Rel.eq.prod (S.relay R)) (m.chainHasNext k) (m'.chainHasNext k') := by
  intro b c c' hc
  cases hc with
  | second hnow =>
    refine (hk.hasNext hnow).bind ?_
    rintro b' ⟨more, t⟩ ⟨_, t'⟩ hle ⟨rfl, ht⟩
    exact follows_pure ⟨rfl, .second ht⟩
  | first hnow hlater =>
    refine (h.hasNext hnow).bind ?_
    rintro b' ⟨more, s⟩ ⟨_, s'⟩ hle ⟨rfl, hs⟩
    have hlater := R.mono hle hlater
    refine follows_ite (follows_pure ⟨rfl, .first hs hlater⟩) ?_
    refine (hk.hasNext hlater).bind ?_
    rintro b'' ⟨more, t⟩ ⟨_, t'⟩ hle' ⟨rfl, ht⟩
    exact follows_pure ⟨rfl, .second ht⟩

theorem Mimics.chain (h : C.Mimics S V m m') (hk : C.Mimics R V k k') :
    C.Mimics (S.relay R) V (m.chain k) (m'.chain k') where
  hasNext := h.chainHasNext hk
  next b c c' hc := by
    refine (h.chainHasNext hk hc).bind ?_
    rintro b' ⟨more, c⟩ ⟨_, c'⟩ hle ⟨rfl, hc⟩
    cases hc with
    | first hnow hlater =>
      refine (h.next hnow).bind ?_
      rintro b'' ⟨answer, s⟩ ⟨answer', s'⟩ hle' ⟨ha, hs⟩
      exact follows_pure ⟨ha, .first hs (R.mono hle' hlater)⟩
    | second hnow =>
      refine (hk.next hnow).bind ?_
      rintro b'' ⟨answer, t⟩ ⟨answer', t'⟩ hle' ⟨ha, ht⟩
      exact follows_pure ⟨ha, .second ht⟩

/-! ## Any number in a row -/

variable {outer : Machine ω σ ρ} {outer' : Machine ω' σ' ρ'}

theorem Mimics.currentHasNext (hk : C.Mimics R V k k') :
    C.Carries R.option (Rel.eq.prod R.option) k.currentHasNext k'.currentHasNext := by
  intro b o o' ho
  obtain ht | _ := ho
  · refine (hk.hasNext ht).bind ?_
    rintro b' ⟨more, t⟩ ⟨_, t'⟩ hle ⟨rfl, ht⟩
    exact follows_pure ⟨rfl, .some ht⟩
  · exact follows_pure ⟨rfl, .none⟩

theorem Mimics.settle (h : C.Mimics S R outer outer') (hk : C.Mimics R V k k') (n : Nat) :
    C.Carries (S.nested R) (Rel.eq.prod (S.nested R)) (outer.settle k n)
      (outer'.settle k' n) := by
  induction n with
  | zero => exact fun _ _ _ _ => follows_throw
  | succ n ih =>
    intro b c c' hc
    refine (hk.currentHasNext hc.current).bind ?_
    rintro b' ⟨more, current⟩ ⟨_, current'⟩ hle ⟨rfl, hcurrent⟩
    have houter := S.mono hle hc.outer
    refine follows_ite (follows_pure ⟨rfl, houter, hcurrent⟩) ?_
    refine (h.hasNext houter).bind ?_
    rintro b'' ⟨more, s⟩ ⟨_, s'⟩ hle' ⟨rfl, hs⟩
    refine follows_ite ?_ (follows_pure ⟨rfl, hs, .none⟩)
    refine (h.next hs).bind ?_
    rintro b''' ⟨answer, s⟩ ⟨answer', s'⟩ hle'' ⟨ha, hs⟩
    exact ih ⟨hs, Rel.toOption_answer ha⟩

theorem Mimics.flatten (h : C.Mimics S R outer outer') (hk : C.Mimics R V k k') (fuel : Nat) :
    C.Mimics (S.nested R) V (outer.flatten fuel k) (outer'.flatten fuel k') where
  hasNext := h.settle hk fuel
  next b c c' hc := by
    refine (h.settle hk fuel hc).bind ?_
    rintro b' ⟨more, s, current⟩ ⟨_, s', current'⟩ hle ⟨rfl, hs, hcurrent⟩
    obtain ht | _ := hcurrent
    · cases more with
      | false => exact follows_pure ⟨.error _, hs, .some ht⟩
      | true =>
        refine (hk.next ht).bind ?_
        rintro b'' ⟨answer, t⟩ ⟨answer', t'⟩ hle' ⟨ha, ht⟩
        exact follows_pure ⟨ha, S.mono hle' hs, .some ht⟩
    · cases more <;> exact follows_pure ⟨.error _, hs, .none⟩

end Comparison

end LazySeq
