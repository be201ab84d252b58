import LazySeq.Proofs.Frame
import LazySeq.Stage.Transform

/-!
# Transforming each element is lawful

`Machine.map` has one element left for each that is left below. The mapper may act on the world, as
long as the cursor below does not notice.
-/

namespace LazySeq

namespace Machine

variable {ω σ α β γ δ : Type} {m : Machine ω σ β} {ends : Prop} {Rep : ω → β → α → Prop}
variable {Left : List α → ω → σ → Prop}

theorem map_pure (m : Machine ω σ β) : m.map pure = m := by
  have hnext : (m.map pure).next = m.next := by
    funext s
    refine Eq.trans (bind_congr ?_) (bind_pure (m.next s))
    rintro ⟨answer, s⟩
    cases answer <;> rfl
  show Machine.mk m.hasNext (m.map pure).next = m
  rw [hnext]

/-- Two maps are one, by both mappers in succession. -/
theorem map_map (m : Machine ω σ β) (f : β → Comp ω γ) (g : γ → Comp ω δ) :
    (m.map f).map g = m.map fun b => f b >>= g := by
  have hnext : ((m.map f).map g).next = (m.map fun b => f b >>= g).next := by
    funext s
    simp only [Machine.map, bind_assoc]
    refine bind_congr ?_
    rintro ⟨answer, s⟩
    cases answer with
    | ok b => simp only [bind_assoc, pure_bind]
    | error e => rfl
  show Machine.mk m.hasNext ((m.map f).map g).next = _
  rw [hnext]
  rfl

/-- The mapper is run on the element that a reply brings, if there is one. -/
def mapReply (f : β → Comp ω γ) : Reply β → Comp ω (Reply γ)
  | .more left => return .more left
  | .item (.ok b) => return .item (.ok (← f b))
  | .item (.error e) => return .item (.error e)

theorem call_map (f : β → Comp ω γ) (ask : Ask) (s : σ) : (m.map f).call ask s = do
    let (reply, s) ← m.call ask s
    return (← mapReply f reply, s) := by
  cases ask with
  | hasNext => simp only [Machine.call, Machine.map, mapReply, bind_assoc, pure_bind]
  | next =>
    simp only [Machine.call, Machine.map, bind_assoc, pure_bind]
    refine bind_congr ?_
    rintro ⟨answer, s⟩
    cases answer with
    | ok b => simp only [mapReply, bind_assoc, pure_bind]
    | error e => simp only [mapReply, pure_bind]

/-- A mapper that touches nothing only changes how the elements are seen. -/
theorem seenAs_map (m : Machine ω σ β) (f : β → γ) :
    m.SeenAs id f (m.map fun b => pure (f b)) where
  hasNext s := bind_pure (m.hasNext s)
  next s := by
    refine bind_congr ?_
    rintro ⟨answer, s⟩
    cases answer <;> rfl

/-- The images of the elements left below. -/
def MapReads (g : α → δ) (_ : ω) (xs : List α) (ys : List δ) (_ : σ) : Prop :=
  ys = xs.map g

theorem Supplies.map (h : m.Supplies ends Rep Left) {Rep' : ω → γ → δ → Prop} {f : β → Comp ω γ}
    {g : α → δ} (hf : ∀ b a w, Rep w b a →
      (f b).Returns w fun c w' => Rep' w' c (g a) ∧ Leaves Left w w') :
    (m.map f).Supplies ends Rep' (Over id (MapReads g) Left) where
  hasNext {ys w s} hends hs := by
    obtain ⟨xs, hs, rfl⟩ := hs
    have hends' : xs = [] → ends := fun hnil => hends (by rw [hnil, List.map_nil])
    refine (h.hasNext hends' hs).mono ?_
    intro r w' ⟨hr, hs'⟩
    refine ⟨?_, xs, hs', rfl⟩
    rw [hr, List.isEmpty_map]
  next_cons {y ys w s} hs := by
    obtain ⟨xs, hs, hys⟩ := hs
    cases xs with
    | nil => cases hys
    | cons x xs =>
      obtain ⟨rfl, rfl⟩ := List.cons.inj hys
      refine (h.next_cons hs).bind ?_
      rintro ⟨answer, s⟩ w ⟨⟨b, rfl, hb⟩, hs⟩
      refine (hf b x w hb).bind ?_
      intro c w' ⟨hc, hleaves⟩
      exact Comp.returns_pure.mpr ⟨⟨c, rfl, hc⟩, xs, hleaves _ _ hs, rfl⟩
  next_nil {w s} he hs := by
    obtain ⟨xs, hs, hys⟩ := hs
    have hnil : xs = [] := List.map_eq_nil_iff.mp hys.symm
    subst hnil
    refine (h.next_nil he hs).bind ?_
    rintro ⟨answer, s⟩ w ⟨rfl, hs⟩
    exact Comp.returns_pure.mpr ⟨rfl, [], hs, rfl⟩

end Machine

namespace Frame

variable {ω σ α β γ : Type} {fr : Frame ω} {m : Machine ω σ α} {ends : Prop} {U : fr.Account α σ}

/-- What is left of the images. -/
abbrev MapLeft (g : α → β) (U : fr.Account α σ) : fr.Account β σ :=
  Over id (Machine.MapReads g) U

theorem Supplies.map {Rep : ω → γ → α → Prop} {k : Machine ω σ γ} (h : fr.Supplies ends Rep k U)
    {f : γ → Comp ω β} {g : α → β} (hf : ∀ c a w, Rep w c a →
      (f c).Returns w fun b w' => b = g a ∧ fr.Quiet w w') :
    fr.Supplies ends Machine.Exactly (k.map f) (MapLeft g U) :=
  h.over (fun _ hP => hP) fun hm hquiet => hm.map fun c a w hc =>
    (hf c a w hc).mono fun _ w' hb => ⟨hb.1, hquiet w w' hb.2⟩

theorem Supplies.map_exactly (h : fr.Supplies ends Machine.Exactly m U) {f : α → Comp ω β}
    {g : α → β} (hf : Comp.Computes fr.Quiet f g) :
    fr.Supplies ends Machine.Exactly (m.map f) (MapLeft g U) := by
  refine h.map fun c a w hc => ?_
  subst hc
  exact hf c w

theorem Supplies.each (h : fr.Supplies ends Machine.Exactly m U) {act : α → Comp ω Unit}
    (hact : Comp.Computes fr.Quiet act fun _ => ()) :
    fr.Supplies ends Machine.Exactly (m.each act) (MapLeft id U) := by
  refine h.map_exactly fun a w => ?_
  refine (hact a w).bind ?_
  intro _ w' ⟨_, hquiet⟩
  exact Comp.returns_pure.mpr ⟨rfl, hquiet⟩

end Frame

end LazySeq
