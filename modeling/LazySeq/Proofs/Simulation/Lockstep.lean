import LazySeq.Proofs.Simulation.Basic
import LazySeq.Stage.Lockstep

/-!
# Lockstep follows

Rows over as many cursors each, which are alike in their order. The latch makes no difference to it.
-/

namespace LazySeq

/-! ## States that are alike -/

section States

variable {σ σ' ρ ρ' : Type} {s t : σ → σ' → Prop} {r u : ρ → ρ' → Prop}

/-- Tuples of one size that are alike thing by thing. -/
inductive Tuple.Alike (s : σ → σ' → Prop) : Tuple σ → Tuple σ' → Prop where
  | pair {x y : σ} {x' y' : σ'} (hx : s x x') (hy : s y y') : Alike s (.pair x y) (.pair x' y')
  | cons {x : σ} {x' : σ'} {rest : Tuple σ} {rest' : Tuple σ'} (hx : s x x')
    (hrest : Alike s rest rest') : Alike s (.cons x rest) (.cons x' rest')

structure Latched.Alike (r : ρ → ρ' → Prop) (l : Latched ρ) (l' : Latched ρ') : Prop where
  cursors : r l.cursors l'.cursors
  dry : l.dry = l'.dry

theorem Tuple.Alike.imp {c : Tuple σ} {c' : Tuple σ'} (hs : ∀ {x x'}, s x x' → t x x')
    (h : c.Alike s c') : c.Alike t c' := by
  induction h with
  | pair hx hy => exact .pair (hs hx) (hs hy)
  | cons hx _ ih => exact .cons (hs hx) ih

theorem Latched.Alike.imp {l : Latched ρ} {l' : Latched ρ'} (hr : ∀ {x x'}, r x x' → u x x')
    (h : l.Alike r l') : l.Alike u l' :=
  ⟨hr h.cursors, h.dry⟩

theorem Tuple.Alike.toList {c : Tuple σ} {c' : Tuple σ'} (h : c.Alike s c') :
    List.Forall₂ s c.toList c'.toList := by
  induction h with
  | pair hx hy => exact .cons hx (.cons hy .nil)
  | cons hx _ ih => exact .cons hx ih

end States

namespace Comparison

variable {ω ω' σ σ' ρ ρ' α α' : Type} {C : Comparison ω ω'} {S : C.Rel σ σ'}
variable {R : C.Rel ρ ρ'} {V : C.Rel α α'}

namespace Rel

def tuple (S : C.Rel σ σ') : C.Rel (Tuple σ) (Tuple σ') :=
  ⟨fun b => Tuple.Alike (S b), fun hle h => h.imp (S.mono hle)⟩

def latched (R : C.Rel ρ ρ') : C.Rel (Latched ρ) (Latched ρ') :=
  ⟨fun b => Latched.Alike (R b), fun hle h => h.imp (R.mono hle)⟩

end Rel

/-! ## Rows over a list of cursors -/

variable {m : Machine ω σ α} {m' : Machine ω' σ' α'}

theorem Mimics.allHaveNext (h : C.Mimics S V m m') :
    C.Carries S.list (Rel.eq.prod S.list) m.allHaveNext m'.allHaveNext := by
  intro b cs cs' hcs
  induction cs generalizing b cs' with
  | nil =>
    cases hcs
    exact follows_pure ⟨rfl, .nil⟩
  | cons c cs ih =>
    obtain _ | ⟨hc, hrest⟩ := hcs
    refine (h.hasNext hc).bind ?_
    rintro b' ⟨more, c⟩ ⟨_, c'⟩ hle ⟨rfl, hc⟩
    have hrest := S.list.mono hle hrest
    refine follows_ite ?_ (follows_pure ⟨rfl, .cons hc hrest⟩)
    refine (ih hrest).bind ?_
    rintro b'' ⟨more, cs⟩ ⟨_, cs'⟩ hle' ⟨rfl, hrest⟩
    exact follows_pure ⟨rfl, .cons (S.mono hle' hc) hrest⟩

theorem Mimics.nextOfAll (h : C.Mimics S V m m') :
    C.Carries S.list (V.list.answer.prod S.list) m.nextOfAll m'.nextOfAll := by
  intro b cs cs' hcs
  induction cs generalizing b cs' with
  | nil =>
    cases hcs
    exact follows_pure ⟨.ok .nil, .nil⟩
  | cons c cs ih =>
    obtain _ | ⟨hc, hrest⟩ := hcs
    refine (h.next hc).bind ?_
    rintro b' ⟨answer, c⟩ ⟨answer', c'⟩ hle ⟨ha, hc⟩
    have hrest := S.list.mono hle hrest
    obtain ha | e := ha
    · refine (ih hrest).bind ?_
      rintro b'' ⟨row, cs⟩ ⟨row', cs'⟩ hle' ⟨hrow, hrest⟩
      have hrow := Rel.map_answer (Q := V.list) (fun hrow => .cons (V.mono hle' ha) hrow) hrow
      exact follows_pure ⟨hrow, .cons (S.mono hle' hc) hrest⟩
    · exact follows_pure ⟨.error e, .cons hc hrest⟩

theorem Mimics.listRow (h : C.Mimics S V m m') : C.Mimics S.list V.list m.listRow m'.listRow where
  hasNext b cs cs' hcs := by
    cases hcs with
    | nil => exact follows_pure ⟨rfl, .nil⟩
    | cons hc hrest => exact h.allHaveNext (.cons hc hrest)
  next := h.nextOfAll

/-! ## Rows over a tuple of cursors -/

theorem Mimics.tupleHasNext (h : C.Mimics S V m m') :
    C.Carries S.tuple (Rel.eq.prod S.tuple) m.tupleHasNext m'.tupleHasNext := by
  intro b cs cs' hcs
  induction cs generalizing b cs' with
  | pair c d =>
    cases hcs with
    | pair hc hd =>
      refine (h.hasNext hc).bind ?_
      rintro b' ⟨more, c⟩ ⟨_, c'⟩ hle ⟨rfl, hc⟩
      have hd := S.mono hle hd
      refine follows_ite ?_ (follows_pure ⟨rfl, .pair hc hd⟩)
      refine (h.hasNext hd).bind ?_
      rintro b'' ⟨more, d⟩ ⟨_, d'⟩ hle' ⟨rfl, hd⟩
      exact follows_pure ⟨rfl, .pair (S.mono hle' hc) hd⟩
  | cons c rest ih =>
    cases hcs with
    | cons hc hrest =>
      refine (h.hasNext hc).bind ?_
      rintro b' ⟨more, c⟩ ⟨_, c'⟩ hle ⟨rfl, hc⟩
      have hrest := S.tuple.mono hle hrest
      refine follows_ite ?_ (follows_pure ⟨rfl, .cons hc hrest⟩)
      refine (ih hrest).bind ?_
      rintro b'' ⟨more, rest⟩ ⟨_, rest'⟩ hle' ⟨rfl, hrest⟩
      exact follows_pure ⟨rfl, .cons (S.mono hle' hc) hrest⟩

theorem Mimics.tupleNext (h : C.Mimics S V m m') :
    C.Carries S.tuple (V.tuple.answer.prod S.tuple) m.tupleNext m'.tupleNext := by
  intro b cs cs' hcs
  induction cs generalizing b cs' with
  | pair c d =>
    cases hcs with
    | pair hc hd =>
      refine (h.next hc).bind ?_
      rintro b' ⟨answer, c⟩ ⟨answer', c'⟩ hle ⟨ha, hc⟩
      have hd := S.mono hle hd
      obtain ha | e := ha
      · refine (h.next hd).bind ?_
        rintro b'' ⟨last, d⟩ ⟨last', d'⟩ hle' ⟨hlast, hd⟩
        have hrow := Rel.map_answer (Q := V.tuple) (fun hlast => .pair (V.mono hle' ha) hlast) hlast
        exact follows_pure ⟨hrow, .pair (S.mono hle' hc) hd⟩
      · exact follows_pure ⟨.error e, .pair hc hd⟩
  | cons c rest ih =>
    cases hcs with
    | cons hc hrest =>
      refine (h.next hc).bind ?_
      rintro b' ⟨answer, c⟩ ⟨answer', c'⟩ hle ⟨ha, hc⟩
      have hrest := S.tuple.mono hle hrest
      obtain ha | e := ha
      · refine (ih hrest).bind ?_
        rintro b'' ⟨row, rest⟩ ⟨row', rest'⟩ hle' ⟨hrow, hrest⟩
        have hrow := Rel.map_answer (Q := V.tuple) (fun hrow => .cons (V.mono hle' ha) hrow) hrow
        exact follows_pure ⟨hrow, .cons (S.mono hle' hc) hrest⟩
      · exact follows_pure ⟨.error e, .cons hc hrest⟩

theorem Mimics.tupleRow (h : C.Mimics S V m m') :
    C.Mimics S.tuple V.tuple m.tupleRow m'.tupleRow :=
  ⟨h.tupleHasNext, h.tupleNext⟩

/-! ## The latch -/

variable {row : Machine ω ρ α} {row' : Machine ω' ρ' α'}

theorem Mimics.latchHasNext (h : C.Mimics R V row row') :
    C.Carries R.latched (Rel.eq.prod R.latched) row.latchHasNext row'.latchHasNext := by
  rintro b ⟨cs, dry⟩ ⟨cs', _⟩ ⟨hcs, rfl⟩
  refine follows_ite (follows_pure ⟨rfl, hcs, rfl⟩) ?_
  refine (h.hasNext hcs).bind ?_
  rintro b' ⟨more, cs⟩ ⟨_, cs'⟩ hle ⟨rfl, hcs⟩
  exact follows_pure ⟨rfl, hcs, rfl⟩

theorem Mimics.latch (h : C.Mimics R V row row') : C.Mimics R.latched V row.latch row'.latch where
  hasNext := h.latchHasNext
  next b l l' hl := by
    refine (h.latchHasNext hl).bind ?_
    rintro b' ⟨more, l⟩ ⟨_, l'⟩ hle ⟨rfl, hl⟩
    refine follows_ite ?_ (follows_pure ⟨.error _, hl⟩)
    refine (h.next hl.cursors).bind ?_
    rintro b'' ⟨answer, cs⟩ ⟨answer', cs'⟩ hle' ⟨ha, hcs⟩
    exact follows_pure ⟨ha, hcs, hl.dry⟩

end Comparison

end LazySeq
