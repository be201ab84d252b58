import LazySeq.Proofs.Demand.Backed
import LazySeq.Proofs.Demand.Source
import LazySeq.Proofs.Sequence.Pipeline
import Mathlib.Data.List.Infix

/-!
# Drawing on a source

A sequence over a watched source draws on it (`Sequence.Draws`): its cursors supply what the stages
make of a beginning of the source, and all the time what was handed out is backed by what was taken.
By the first the sequence takes no more than the beginning, since nothing is known beyond it, and by
the second no less than what it hands out needs. Every stage keeps this (`Sequence.Draws.stage`).
-/

namespace LazySeq

open LazySeq.Frame World

variable {υ κ τ : Type}

/-! ## Beginnings -/

/-- A longer list makes no other beginning. -/
def Grows (f : List Value → List Value) : Prop :=
  ∀ ⦃xs ys : List Value⦄, xs <+: ys → f xs <+: f ys

theorem grows_takeWhile (p : Value → Bool) : Grows (List.takeWhile p) := by
  rintro xs _ ⟨ys, rfl⟩
  rw [List.takeWhile_append]
  split
  · next hall =>
    rw [(List.takeWhile_prefix p).eq_of_length hall]
    exact List.prefix_append _ _
  · exact List.prefix_refl _

theorem grows_dropWhile (p : Value → Bool) : Grows (List.dropWhile p) := by
  rintro xs _ ⟨ys, rfl⟩
  rw [List.dropWhile_append]
  split
  · next hnil =>
    rw [List.isEmpty_iff.mp hnil]
    exact List.nil_prefix
  · exact List.prefix_append _ _

theorem grows_window (win : Window) : Grows win.of := by
  rintro xs _ ⟨ys, rfl⟩
  rw [Window.of, Window.of, Window.ofFrom_append]
  exact List.prefix_append _ _

theorem grows_enumerated : Grows Sequence.enumerated := by
  rintro xs _ ⟨ys, rfl⟩
  rw [Sequence.enumerated, Sequence.enumerated, List.zipIdx_append, List.map_append]
  exact List.prefix_append _ _

/-! ## Drawing on the source -/

/-- The places of a world with a watched source. -/
abbrev watchedFrame (υ κ τ : Type) : Frame (World (Recorded υ Value × κ) τ) :=
  frame τ Prod.fst

/-- Under the cursor `c` with `ys` left, where `f all` was there at first, `taken` of the beginning
`all` of the source was taken, and what was handed out is backed by it. -/
def BackedBy (f : List Value → List Value) (all ys : List Value)
    (w : World (Recorded υ Value × κ) τ) : Prop :=
  ∃ taken, taken <+: all ∧ Taken taken w.outer.1.calls ∧
    (f all).length ≤ ys.length + (f taken).length

/-- The sequence makes `f` of its source. Its cursors, with fuel `N`, supply what they have left by
the account `U` of it, where the source is known by its beginning `all`. -/
structure Sequence.Draws (f : List Value → List Value) (all : List Value)
    (s : Sequence (Recorded υ Value × κ) τ) (N : Nat)
    (U : (watchedFrame υ κ τ).Account Value (Cursor (Recorded υ Value × κ) τ)) : Prop where
  grows : Grows f
  supplies (n : Nat) : N ≤ n →
    (watchedFrame υ κ τ).Supplies False Machine.Exactly (Cursor.machine n) U
  suffix {ys c F w} : U ys c F w → ys <:+ f all
  backed {ys c F w} : U ys c F w → BackedBy f all ys w
  starts {w} : w.outer.1.calls = [] →
    s.start.Returns w fun c w' => Reaches (U (f all) c) onCaller w w'

namespace Sequence

variable {σ : Type} {f g : List Value → List Value} {all : List Value} {N N' : Nat}
variable {s s' : Sequence (Recorded υ Value × κ) τ}
variable {U : (watchedFrame υ κ τ).Account Value (Cursor (Recorded υ Value × κ) τ)}

/-- What is backed below is backed above: the elements that the stage took from below are among
those that the cursor below could make of what was taken from the source. -/
theorem Draws.backedBy (h : s.Draws f all N U) (hg : Grows g)
    {V : (watchedFrame υ κ τ).Account Value σ} (hV : Backed g (f all) U V) {ys : List Value} {r : σ}
    {F : (watchedFrame υ κ τ).Region} {w : World (Recorded υ Value × κ) τ} (hr : V ys r F w) :
    BackedBy (fun xs => g (f xs)) all ys w := by
  obtain ⟨xs, c, F', hc, hlength⟩ := hV ys r F w hr
  obtain ⟨taken, hprefix, htaken, hle⟩ := h.backed hc
  obtain ⟨pulled, hpulled⟩ := h.suffix hc
  refine ⟨taken, hprefix, htaken, ?_⟩
  have hcount : pulled.length + xs.length = (f all).length := by
    rw [← hpulled, List.length_append]
  -- both are beginnings of `f all`, and what was pulled is the shorter one
  have hmade : pulled <+: f taken :=
    List.prefix_of_prefix_length_le ⟨xs, hpulled⟩ (h.grows hprefix) (by omega)
  have hbacked := hlength pulled hpulled
  have hmore := (hg hmade).length_le
  show (g (f all)).length ≤ ys.length + (g (f taken)).length
  omega

/-- A stage over a sequence that draws on the source. -/
theorem Draws.stage (h : s.Draws f all N U) (hg : Grows g)
    (wrap : σ → Cursor (Recorded υ Value × κ) τ)
    {stage : Nat → Machine (World (Recorded υ Value × κ) τ) σ Value}
    (hrun : Cursor.Runs wrap stage) {V : (watchedFrame υ κ τ).Account Value σ}
    (hV : ∀ n, N' ≤ n → (watchedFrame υ κ τ).Supplies False Machine.Exactly (stage n) V)
    (hback : Backed g (f all) U V)
    (hstart : ∀ {w}, w.outer.1.calls = [] → s'.start.Returns w fun c w' =>
      Reaches (Cursor.Wrapped wrap V (g (f all)) c) onCaller w w') :
    s'.Draws (fun xs => g (f xs)) all (N' + 1)
      (fun ys c F w => ys <:+ g (f all) ∧ Cursor.Wrapped wrap V ys c F w) where
  grows _ _ hxs := hg (h.grows hxs)
  supplies n hn := by
    obtain ⟨k, rfl⟩ := Nat.exists_eq_add_one.mpr (Nat.lt_of_lt_of_le (Nat.succ_pos N') hn)
    exact (Cursor.supplies_wrapped hrun (hV k (Nat.le_of_succ_le_succ hn))).suffix _
  suffix hc := hc.1
  backed hc := by
    obtain ⟨_, r, _, hr⟩ := hc
    exact h.backedBy hg hback hr
  starts hw := by
    refine (hstart hw).mono ?_
    intro c w' hc
    exact hc.mono fun F' hF' => ⟨List.suffix_refl _, hF'⟩

/-- A stage with one cursor below, which is all that has to be started. -/
theorem Draws.linear (h : s.Draws f all N U) (hg : Grows g)
    {wrap : σ → Cursor (Recorded υ Value × κ) τ} (fresh : Cursor (Recorded υ Value × κ) τ → σ)
    (hstart : s'.start = do return wrap (fresh (← s.start)))
    {stage : Nat → Machine (World (Recorded υ Value × κ) τ) σ Value}
    (hrun : Cursor.Runs wrap stage) {V : (watchedFrame υ κ τ).Account Value σ}
    (hV : ∀ n, N' ≤ n → (watchedFrame υ κ τ).Supplies False Machine.Exactly (stage n) V)
    (hback : Backed g (f all) U V)
    (hfresh : ∀ {c F w}, U (f all) c F w → V (g (f all)) (fresh c) F w) :
    ∃ N V, s'.Draws (fun xs => g (f xs)) all N V := by
  refine ⟨_, _, h.stage hg wrap hrun hV hback ?_⟩
  intro w hw
  rw [hstart]
  refine (h.starts hw).bind ?_
  intro c w' hc
  exact Comp.returns_pure.mpr (hc.mono fun F' hF' => ⟨fresh c, rfl, hfresh hF'⟩)

end Sequence

end LazySeq
