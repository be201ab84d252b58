import LazySeq.Proofs.Noted
import LazySeq.Proofs.Stage.Transform

/-!
# Towers of maps are transparent

Stages that transform each element or only look at it are put one over the other (`Machine.tower`),
with elements of another type at every level. Whatever the machine at the bottom does, it receives
exactly the calls that the top receives. What it says of whether an element is left, and its errors,
come out at the top as they are. With every element that it hands out the callables run, each of them
once and the lowest first, before the call returns (`Passes`).

So a tower is one map by what its layers do in succession, and this is an equation of machines
(`Machine.tower_eq_map`). What is noted in a tower is therefore found level by level in the one
callable (`yields_climb`).
-/

namespace LazySeq

variable {ω σ ε α β γ : Type}

/-! ## Layers -/

/-- A stage that runs a callable on every element as it is handed out. -/
inductive Layer (ω : Type) : Type → Type → Type 1 where
  | map {α β : Type} (f : α → Comp ω β) : Layer ω α β
  | each {α : Type} (act : α → Comp ω Unit) : Layer ω α α

namespace Layer

/-- The machine with the layer over it. -/
def upon : Layer ω α β → Machine ω σ α → Machine ω σ β
  | map f, m => m.map f
  | each act, m => m.each act

/-- What becomes of an element. -/
def apply : Layer ω α β → α → Comp ω β
  | map f, a => f a
  | each act, a => do
    act a
    return a

/-- The same layer, with a note of every run of its callable: the element and what it became. -/
def noted (note : α → β → ε) : Layer ω α β → Layer (Noted ω ε) α β
  | map f => map fun a => (f a).noting (note a)
  | each act => each fun a => (act a).noting fun _ => note a a

/-- `b` comes of `a`: it is what the mapper made of it, and what is only looked at stays the same. -/
def Gives : Layer ω α β → α → β → Prop
  | map f, a, b => ∃ w w', f a w = .ok b w'
  | each _, a, b => a = b

theorem upon_eq_map (l : Layer ω α β) (m : Machine ω σ α) : l.upon m = m.map l.apply := by
  cases l <;> rfl

theorem yields_noted {sure : Prop} (l : Layer ω α β) (note : α → β → ε)
    (hsure : sure → ∀ a w, (l.apply a).Returns w fun _ _ => True) (a : α) (v : Noted ω ε) :
    ((l.noted note).apply a).Yields sure v fun b v' =>
      v'.notes = v.notes ++ [note a b] ∧ l.Gives a b := by
  cases l with
  | map f =>
    have hf : (f a).Yields sure v.world fun b w' => f a v.world = .ok b w' :=
      Comp.yields_eq_of_returns fun h => hsure h a v.world
    exact (hf.noting (note a)).mono fun b v' hb => ⟨hb.2, v.world, v'.world, hb.1⟩
  | each act =>
    have hact : (act a).Yields sure v.world fun _ _ => True :=
      Comp.yields_of_returns fun h =>
        (Comp.returns_bind.mp (hsure h a v.world)).mono fun _ _ _ => trivial
    refine (hact.noting fun _ => note a a).bind ?_
    intro _ v' hv'
    exact Comp.yields_pure.mpr ⟨hv'.2, rfl⟩

end Layer

/-! ## Towers -/

section Tower

variable {A : Nat → Type}

/-- The first `h` layers over a machine, layer 0 lowest. -/
def Machine.tower (layers : ∀ k, Layer ω (A k) (A (k + 1))) (m : Machine ω σ (A 0)) :
    ∀ h, Machine ω σ (A h)
  | 0 => m
  | h + 1 => (layers h).upon (m.tower layers h)

/-- What the first `h` layers make of an element, in succession. -/
def Layer.succession (layers : ∀ k, Layer ω (A k) (A (k + 1))) : ∀ h, A 0 → Comp ω (A h)
  | 0, a => return a
  | h + 1, a => do (layers h).apply (← succession layers h a)

/-- A tower is one map. -/
theorem Machine.tower_eq_map (layers : ∀ k, Layer ω (A k) (A (k + 1))) (m : Machine ω σ (A 0))
    (h : Nat) : m.tower layers h = m.map (Layer.succession layers h) := by
  induction h with
  | zero => exact (Machine.map_pure m).symm
  | succ h ih => rw [Machine.tower, ih, Layer.upon_eq_map, Machine.map_map]; rfl

/-! ## What is done in a tower -/

/-- What is done below a tower and in it. -/
inductive Ascent (A : Nat → Type) where
  /-- the machine at the bottom was called -/
  | called (reply : Reply (A 0))
  /-- the callable of layer `k` was run, and made `b` of `a` -/
  | ran (k : Nat) (a : A k) (b : A (k + 1))

/-- The layers, with a note of every run. -/
def Layer.watched (layers : ∀ k, Layer ω (A k) (A (k + 1))) (k : Nat) :
    Layer (Noted ω (Ascent A)) (A k) (A (k + 1)) :=
  (layers k).noted (.ran k)

/-- An element `a` became `b` by the first `h` layers: the callable of each of them was run once, in
this order, on what came of the one before it. -/
inductive Climbs (layers : ∀ k, Layer ω (A k) (A (k + 1))) (a : A 0) :
    ∀ h, List (Ascent A) → A h → Prop where
  | ground : Climbs layers a 0 [] a
  | step {h : Nat} {notes : List (Ascent A)} {b : A h} {c : A (h + 1)}
    (below : Climbs layers a h notes b) (gives : (layers h).Gives b c) :
    Climbs layers a (h + 1) (notes ++ [.ran h b c]) c

/-- All that is done for a call at the top, and the reply: the same call at the bottom, and if that
brings an element, one run of every callable. -/
inductive Passes (layers : ∀ k, Layer ω (A k) (A (k + 1))) (h : Nat) :
    Ask → List (Ascent A) → Reply (A h) → Prop where
  | more (left : Bool) : Passes layers h .hasNext [.called (.more left)] (.more left)
  | error (e : Error) : Passes layers h .next [.called (.item (.error e))] (.item (.error e))
  | item {a : A 0} {notes : List (Ascent A)} {b : A h} (climbs : Climbs layers a h notes b) :
    Passes layers h .next (.called (.item (.ok a)) :: notes) (.item (.ok b))

/-- All that is done for a schedule of calls, call by call, and the replies. -/
inductive PassesAll (layers : ∀ k, Layer ω (A k) (A (k + 1))) (h : Nat) :
    List Ask → List (Ascent A) → List (Reply (A h)) → Prop where
  | nil : PassesAll layers h [] [] []
  | cons {ask : Ask} {asks : List Ask} {notes later : List (Ascent A)} {reply : Reply (A h)}
    {replies : List (Reply (A h))} (first : Passes layers h ask notes reply)
    (rest : PassesAll layers h asks later replies) :
    PassesAll layers h (ask :: asks) (notes ++ later) (reply :: replies)

/-- The machine answers every call and the callables every run. -/
structure AllAnswer (layers : ∀ k, Layer ω (A k) (A (k + 1))) (m : Machine ω σ (A 0)) : Prop where
  hasNext (s : σ) (w : ω) : (m.hasNext s).Returns w fun _ _ => True
  next (s : σ) (w : ω) : (m.next s).Returns w fun _ _ => True
  apply (k : Nat) (a : A k) (w : ω) : ((layers k).apply a).Returns w fun _ _ => True

variable {layers : ∀ k, Layer ω (A k) (A (k + 1))} {m : Machine ω σ (A 0)}

theorem yields_climb {sure : Prop}
    (hsure : sure → ∀ k a w, ((layers k).apply a).Returns w fun _ _ => True) (h : Nat) (a : A 0)
    (v : Noted ω (Ascent A)) :
    (Layer.succession (Layer.watched layers) h a).Yields sure v fun b v' =>
      ∃ notes, v'.notes = v.notes ++ notes ∧ Climbs layers a h notes b := by
  induction h with
  | zero => exact Comp.yields_pure.mpr ⟨[], (List.append_nil _).symm, .ground⟩
  | succ h ih =>
    refine ih.bind ?_
    rintro b v₁ ⟨notes, hnotes, hclimbs⟩
    refine ((layers h).yields_noted (.ran h) (fun hs => hsure hs h) b v₁).mono ?_
    rintro c v₂ ⟨hnotes', hgives⟩
    exact ⟨notes ++ [.ran h b c], by rw [hnotes', hnotes, List.append_assoc], .step hclimbs hgives⟩

theorem yields_call_tower (h : Nat) (ask : Ask) (s : σ) (v : Noted ω (Ascent A)) :
    (((m.noted .called).tower (Layer.watched layers) h).call ask s).Yields (AllAnswer layers m) v
      fun r v' => ∃ notes, v'.notes = v.notes ++ notes ∧ Passes layers h ask notes r.1 := by
  rw [Machine.tower_eq_map]
  cases ask with
  | hasNext =>
    have hany : (m.hasNext s).Yields (AllAnswer layers m) v.world fun _ _ => True :=
      Comp.yields_of_returns fun hsure => hsure.hasNext s v.world
    refine (hany.noting _).bind ?_
    rintro ⟨left, s⟩ v₁ ⟨-, hnotes⟩
    exact Comp.yields_pure.mpr ⟨_, hnotes, .more left⟩
  | next =>
    have hany : (m.next s).Yields (AllAnswer layers m) v.world fun _ _ => True :=
      Comp.yields_of_returns fun hsure => hsure.next s v.world
    refine Comp.yields_bind.mpr ((hany.noting _).bind ?_)
    rintro ⟨answer, s⟩ v₁ ⟨-, hnotes⟩
    cases answer with
    | error e =>
      exact Comp.yields_pure.mpr (Comp.yields_pure.mpr ⟨_, hnotes, .error e⟩)
    | ok a =>
      refine (yields_climb (fun hsure => hsure.apply) h a v₁).bind ?_
      rintro b v₂ ⟨notes, hnotes', hclimbs⟩
      refine Comp.yields_pure.mpr (Comp.yields_pure.mpr ⟨_, ?_, .item hclimbs⟩)
      rw [hnotes', hnotes, List.append_assoc]
      rfl

/-- A tower is the one map by its layers in succession. Over any machine that is watched, and with
callables that are, every schedule of calls at the top is passed on call by call, and what is done
besides is one run of every callable for every element, lowest first. The calls are answered if the
machine answers and the callables do. -/
theorem Machine.tower_passes (layers : ∀ k, Layer ω (A k) (A (k + 1))) (m : Machine ω σ (A 0))
    (h : Nat) :
    m.tower layers h = m.map (Layer.succession layers h) ∧
      ∀ (asks : List Ask) (s : σ) (v : Noted ω (Ascent A)),
        (((m.noted .called).tower (Layer.watched layers) h).run asks s).Yields (AllAnswer layers m) v
          fun r v' => ∃ notes, v'.notes = v.notes ++ notes ∧ PassesAll layers h asks notes r.1 := by
  refine ⟨m.tower_eq_map layers h, fun asks => ?_⟩
  induction asks with
  | nil => exact fun s v => Comp.yields_pure.mpr ⟨[], (List.append_nil _).symm, .nil⟩
  | cons ask asks ih =>
    intro s v
    refine (yields_call_tower h ask s v).bind ?_
    rintro ⟨reply, s⟩ v₁ ⟨notes, hnotes, hpasses⟩
    refine (ih s v₁).bind ?_
    rintro ⟨replies, s⟩ v₂ ⟨later, hlater, hrest⟩
    refine Comp.yields_pure.mpr ⟨notes ++ later, ?_, .cons hpasses hrest⟩
    rw [hlater, hnotes, List.append_assoc]

end Tower

end LazySeq
