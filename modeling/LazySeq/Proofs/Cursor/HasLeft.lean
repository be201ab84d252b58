import LazySeq.Cursor.Run
import LazySeq.Proofs.Cursor.World
import LazySeq.Proofs.Stage.Join
import LazySeq.Proofs.Stage.Lockstep
import LazySeq.Proofs.Stage.Product
import LazySeq.Proofs.Stage.Replay
import LazySeq.Proofs.Stage.Select
import LazySeq.Proofs.Stage.Transform

/-!
# What a cursor has left

`Cursor.HasLeft` is the largest account of what cursors have left that is lawful for all machines
with enough fuel: a cursor has `xs` left if some lawful account says so. It is lawful itself
(`Cursor.supplies_hasLeft`), so it can stand below a stage in place of the account that was given.

For every kind of cursor there is one lemma, which says what a new cursor of that kind has left, by
what the cursors below it have left.
-/

namespace LazySeq

open LazySeq.Frame World

variable {ω τ υ α σ : Type} {watch : ω → υ} {ends : Prop} {F : (frame τ watch).Region}
variable {w : World ω τ}

namespace Cursor

/-! ## One stage of the machine -/

/-- The cursors `wrap s` run the machine `stage n` when `n` is the fuel below them. -/
def Runs (wrap : σ → Cursor ω τ) (stage : Nat → Machine (World ω τ) σ Value) : Prop :=
  ∀ n s, (wrap s).view n (machine n) = ⟨σ, stage n, s, wrap⟩

theorem machine_hasNext (wrap : σ → Cursor ω τ) {stage : Machine (World ω τ) σ Value} {n : Nat}
    {s : σ} (hview : (wrap s).view n (machine n) = ⟨σ, stage, s, wrap⟩) :
    (machine (n + 1)).hasNext (wrap s) = do
      let (more, s) ← stage.hasNext s
      return (more, wrap s) := by
  show (fun v : View ω τ => do
    let (more, state) ← v.stage.hasNext v.state
    return (more, v.wrap state)) (view n (machine n) (wrap s)) = _
  rw [hview]

theorem machine_next (wrap : σ → Cursor ω τ) {stage : Machine (World ω τ) σ Value} {n : Nat}
    {s : σ} (hview : (wrap s).view n (machine n) = ⟨σ, stage, s, wrap⟩) :
    (machine (n + 1)).next (wrap s) = do
      let (answer, s) ← stage.next s
      return (answer, wrap s) := by
  show (fun v : View ω τ => do
    let (answer, state) ← v.stage.next v.state
    return (answer, v.wrap state)) (view n (machine n) (wrap s)) = _
  rw [hview]

theorem machine_call (wrap : σ → Cursor ω τ) {stage : Machine (World ω τ) σ Value} {n : Nat}
    {s : σ} (hview : (wrap s).view n (machine n) = ⟨σ, stage, s, wrap⟩) (ask : Ask) :
    (machine (n + 1)).call ask (wrap s) = do
      let (reply, s) ← stage.call ask s
      return (reply, wrap s) := by
  cases ask with
  | hasNext => simp only [Machine.call, machine_hasNext wrap hview, bind_assoc, pure_bind]
  | next => simp only [Machine.call, machine_next wrap hview, bind_assoc, pure_bind]

theorem seenAs_machine {wrap : σ → Cursor ω τ} {stage : Nat → Machine (World ω τ) σ Value}
    (hrun : Runs wrap stage) (n : Nat) : (stage n).SeenAs wrap id (machine (n + 1)) where
  hasNext s := (machine_hasNext wrap (hrun n s)).symm
  next s := by
    rw [machine_next wrap (hrun n s)]
    refine bind_congr ?_
    rintro ⟨answer, s⟩
    cases answer <;> rfl

/-- An account of the states of a stage, as one of cursors. -/
def Wrapped {fr : Frame (World ω τ)} (wrap : σ → Cursor ω τ) (U : fr.Account α σ) :
    fr.Account α (Cursor ω τ) :=
  fun xs c F w => ∃ s, c = wrap s ∧ U xs s F w

theorem supplies_wrapped {fr : Frame (World ω τ)} {wrap : σ → Cursor ω τ}
    {stage : Nat → Machine (World ω τ) σ Value} (hrun : Runs wrap stage)
    {Rep : World ω τ → Value → α → Prop} {U : fr.Account α σ} {n : Nat}
    (h : fr.Supplies ends Rep (stage n) U) :
    fr.Supplies ends Rep (machine (n + 1)) (Wrapped wrap U) where
  keeps xs c := by
    refine .of_follows ?_
    intro F w ⟨s, hc, hs⟩
    exact ⟨_, h.keeps xs s, hs, fun _ hs' => ⟨s, hc, hs'⟩⟩
  hasNext {F xs w c} hends hc := by
    obtain ⟨s, rfl, hs⟩ := hc
    rw [machine_hasNext wrap (hrun n s)]
    refine (h.hasNext hends hs).bind ?_
    intro ⟨more, s⟩ w' ⟨hmore, hs⟩
    exact Comp.returns_pure.mpr ⟨hmore, hs.mono fun _ hs => ⟨s, rfl, hs⟩⟩
  next_cons {F a xs w c} hc := by
    obtain ⟨s, rfl, hs⟩ := hc
    rw [machine_next wrap (hrun n s)]
    refine (h.next_cons hs).bind ?_
    intro ⟨answer, s⟩ w' ⟨hanswer, hs⟩
    exact Comp.returns_pure.mpr ⟨hanswer, hs.mono fun _ hs => ⟨s, rfl, hs⟩⟩
  next_nil {F w c} he hc := by
    obtain ⟨s, rfl, hs⟩ := hc
    rw [machine_next wrap (hrun n s)]
    refine (h.next_nil he hs).bind ?_
    intro ⟨answer, s⟩ w' ⟨hanswer, hs⟩
    exact Comp.returns_pure.mpr ⟨hanswer, hs.mono fun _ hs => ⟨s, rfl, hs⟩⟩

/-! ## The largest account -/

/-- `c` has `xs` left for every machine with fuel `N` or more. -/
def HasLeft (watch : ω → υ) (ends : Prop) (N : Nat) :
    (frame τ watch).Account Value (Cursor ω τ) := fun xs c F w =>
  ∃ U : (frame τ watch).Account Value (Cursor ω τ),
    (∀ n, N ≤ n → (frame τ watch).Supplies ends Machine.Exactly (machine n) U) ∧ U xs c F w

theorem supplies_hasLeft {N n : Nat} (hn : N ≤ n) :
    (frame τ watch).Supplies ends Machine.Exactly (machine n) (HasLeft watch ends N) := by
  refine .of_follows ?_
  intro F xs w c ⟨U, hU, hc⟩
  exact ⟨U, hU n hn, hc, fun _ hc' => ⟨U, hU, hc'⟩⟩

theorem keeps_hasLeft {N : Nat} (xs : List Value) (c : Cursor ω τ) :
    (frame τ watch).Keeps (HasLeft watch ends N xs c) :=
  (supplies_hasLeft (Nat.le_refl N)).keeps xs c

theorem HasLeft.mono {N N' : Nat} (hN : N ≤ N') {xs : List Value} {c : Cursor ω τ}
    (h : HasLeft watch ends N xs c F w) : HasLeft watch ends N' xs c F w := by
  obtain ⟨U, hU, hc⟩ := h
  exact ⟨U, fun n hn => hU n (Nat.le_trans hN hn), hc⟩

/-- A cursor of one stage has left what a lawful account of that stage says. -/
theorem hasLeft_of_stage {N : Nat} (wrap : σ → Cursor ω τ)
    {stage : Nat → Machine (World ω τ) σ Value} (hrun : Runs wrap stage)
    {U : (frame τ watch).Account Value σ} {xs : List Value} {s : σ}
    (h : ∀ n, N ≤ n → (frame τ watch).Supplies ends Machine.Exactly (stage n) U) (hs : U xs s F w) :
    HasLeft watch ends (N + 1) xs (wrap s) F w := by
  -- one level of fuel goes into the stage itself
  refine ⟨Wrapped wrap U, fun n hn => ?_, s, rfl, hs⟩
  obtain ⟨k, rfl⟩ := Nat.exists_eq_add_one.mpr (Nat.lt_of_lt_of_le (Nat.succ_pos N) hn)
  exact supplies_wrapped hrun (h k (Nat.le_of_succ_le_succ hn))

end Cursor

/-! ## A cursor of the caller -/

/-- The caller's world alone. -/
def onCaller {watch : ω → υ} : (frame τ watch).Region := fun p => p = .caller

theorem step_onCaller {watch : ω → υ} (w : World ω τ) (o : ω) :
    (frame τ watch).Step onCaller w onCaller (putOuter o w) where
  grows := ⟨fun _ _ hc => hc, fun _ b hb => ⟨b, hb, Nat.le_refl _⟩⟩
  same p _ hp := by
    cases p with
    | caller => exact absurd rfl hp
    | reader id => rfl
  owned _ hp := .inl hp

/-- What a cursor of the caller has left. It may depend on all of the caller's world. -/
def GivenLeft (Left : List Value → ω → τ → Prop) : (frame τ (id : ω → ω)).Account Value τ :=
  fun xs s F w => F = onCaller ∧ Left xs w.outer s

theorem supplies_given {m : Machine ω τ Value} {Left : List Value → ω → τ → Prop}
    (hm : m.Lawful Left) :
    (frame τ id).Supplies True Machine.Exactly (World.ofOuter m) (GivenLeft Left) where
  keeps xs s := by
    refine ⟨?_, ?_⟩
    · intro F w ⟨hF, _⟩ p hp
      rw [hF] at hp
      rw [show p = .caller from hp]
      trivial
    · intro F w w' ⟨hF, hleft⟩ _ hsame
      have houter : w'.outer = w.outer := hsame .caller (by rw [hF]; rfl)
      rw [GivenLeft, houter]
      exact ⟨hF, hleft⟩
  hasNext {F xs w s} _ hs := by
    obtain ⟨rfl, hleft⟩ := hs
    refine (hm.hasNext hleft).within.mono ?_
    rintro r _ ⟨o, rfl, hr, hleft⟩
    exact ⟨hr, onCaller, step_onCaller _ _, rfl, hleft⟩
  next_cons {F a xs w s} hs := by
    obtain ⟨rfl, hleft⟩ := hs
    refine (hm.next_cons hleft).within.mono ?_
    rintro r _ ⟨o, rfl, hr, hleft⟩
    exact ⟨⟨a, hr, rfl⟩, onCaller, step_onCaller _ _, rfl, hleft⟩
  next_nil {F w s} _ hs := by
    obtain ⟨rfl, hleft⟩ := hs
    refine (hm.next_nil hleft).within.mono ?_
    rintro r _ ⟨o, rfl, hr, hleft⟩
    exact ⟨hr, onCaller, step_onCaller _ _, rfl, hleft⟩

/-- A lawful cursor of the caller has left what the caller's account says. -/
theorem Cursor.hasLeft_given {m : Machine ω τ Value} {Left : List Value → ω → τ → Prop}
    (hm : m.Lawful Left) {xs : List Value} {s : τ} (hs : Left xs w.outer s) :
    HasLeft id True 1 xs (.given m s) onCaller w :=
  hasLeft_of_stage (.given m) (fun _ _ => rfl) (fun _ _ => supplies_given hm) ⟨rfl, hs⟩

/-! ## Callables -/

/-- The function answers as `g`, whatever the cells hold, and does nothing that is watched. -/
def Fn.Maps (τ : Type) (watch : ω → υ) (f : Fn ω) (g : Value → Value) : Prop :=
  ∀ fuel (cells : Machine (World ω τ) CursorId Value),
    Comp.Computes (frame τ watch).Quiet (f.apply fuel cells) g

/-- The test answers as `q`, whatever the cells hold, and does nothing that is watched. -/
def Test.Decides (τ : Type) (watch : ω → υ) (p : Test ω) (q : Value → Bool) : Prop :=
  ∀ cells : Machine (World ω τ) CursorId Value,
    Comp.Computes (frame τ watch).Quiet (p.run cells) q

theorem Fn.maps_call {f : Value → Comp ω Value} {g : Value → Value}
    (h : Comp.Computes (fun o o' => watch o' = watch o) f g) : Fn.Maps τ watch (.call f) g :=
  fun _ _ => computes_onOuter h

theorem Fn.maps_pure (watch : ω → υ) (g : Value → Value) : Fn.Maps τ watch (.pure g) g :=
  Fn.maps_call fun _ _ => Comp.returns_pure.mpr ⟨rfl, rfl⟩

theorem Test.decides_call {p : Value → Comp ω Bool} {q : Value → Bool}
    (h : Comp.Computes (fun o o' => watch o' = watch o) p q) : Test.Decides τ watch (.call p) q :=
  fun _ => computes_onOuter h

theorem Test.decides_not {p : Test ω} {q : Value → Bool} (h : Test.Decides τ watch p q) :
    Test.Decides τ watch (.not p) fun v => !q v := by
  intro cells v w
  refine (h cells v w).bind ?_
  intro b w' ⟨hb, hquiet⟩
  exact Comp.returns_pure.mpr ⟨by rw [hb], hquiet⟩

namespace Cursor

variable {N : Nat} {xs : List Value} {c : Cursor ω τ}

/-! ## Stages over one cursor -/

theorem HasLeft.map {f : Fn ω} {g : Value → Value} (hf : Fn.Maps τ watch f g)
    (h : HasLeft watch ends N xs c F w) :
    HasLeft watch ends (N + 1) (xs.map g) (.map f c) F w := by
  obtain ⟨U, hU, hc⟩ := h
  refine hasLeft_of_stage (.map f) (fun _ _ => rfl) (U := MapLeft g U) (fun n hn => ?_)
    ⟨xs, hc, rfl⟩
  exact (hU n hn).map_exactly (hf n _)

theorem HasLeft.each {act : Value → Comp ω Unit}
    (hact : Comp.Computes (fun o o' => watch o' = watch o) act fun _ => ())
    (h : HasLeft watch ends N xs c F w) : HasLeft watch ends (N + 1) xs (.each act c) F w := by
  obtain ⟨U, hU, hc⟩ := h
  have hid : xs = xs.map id := (List.map_id xs).symm
  refine hasLeft_of_stage (.each act) (fun _ _ => rfl) (U := MapLeft id U) (fun n hn => ?_)
    ⟨xs, hc, hid⟩
  exact (hU n hn).each (computes_onOuter hact)

theorem HasLeft.filter {p : Test ω} {q : Value → Bool} (hp : Test.Decides τ watch p q)
    (h : HasLeft watch ends N xs c F w) :
    HasLeft watch ends (max N (xs.length + 1) + 1) (xs.filter q) (.filter p (.fresh c)) F w := by
  obtain ⟨U, hU, hc⟩ := h
  refine hasLeft_of_stage (.filter p) (fun _ _ => rfl) (U := FilterLeft q xs U) (fun n hn => ?_)
    (filterLeft_fresh hc)
  exact (hU n (by omega)).filter (hp _) (by omega)

theorem HasLeft.takeWhile {p : Test ω} {q : Value → Bool} (hp : Test.Decides τ watch p q)
    (h : HasLeft watch ends N xs c F w) :
    HasLeft watch ends (N + 1) (xs.takeWhile q) (.takeWhile p (.fresh c)) F w := by
  obtain ⟨U, hU, hc⟩ := h
  refine hasLeft_of_stage (.takeWhile p) (fun _ _ => rfl) (U := TakeWhileLeft q xs U)
    (fun n hn => ?_) (takeWhileLeft_fresh hc)
  exact (hU n hn).takeWhile (hp _)

theorem HasLeft.dropWhile {p : Test ω} {q : Value → Bool} (hp : Test.Decides τ watch p q)
    (h : HasLeft watch ends N xs c F w) :
    HasLeft watch ends (max N (xs.length + 1) + 1) (xs.dropWhile q)
      (.dropWhile p (.fresh ⟨c, true⟩)) F w := by
  obtain ⟨U, hU, hc⟩ := h
  refine hasLeft_of_stage (.dropWhile p) (fun _ _ => rfl) (U := DropWhileLeft q xs U)
    (fun n hn => ?_) (dropWhileLeft_fresh hc)
  exact (hU n (by omega)).dropWhile (hp _) (by omega)

/-- A window that ends within what is known is known to its end. -/
theorem HasLeft.slice {win : Window} {ends' : Prop}
    (hends : ends' → ends ∨ ∃ stop, win.stop = some stop ∧ stop ≤ xs.length)
    (h : HasLeft watch ends N xs c F w) :
    HasLeft watch ends' (max N (xs.length + 1) + 1) (win.of xs)
      (.slice win (.fresh ⟨c, 0⟩)) F w := by
  obtain ⟨U, hU, hc⟩ := h
  refine hasLeft_of_stage (.slice win) (fun _ _ => rfl)
    (U := SliceLeft Machine.Exactly win xs U) (fun n hn => ?_) (sliceLeft_fresh hc)
  exact ((hU n (by omega)).slice (fun _ hb => hb) (by omega)).weaken hends

/-! ## Stages over several cursors -/

theorem HasLeft.chain {ys : List Value} {d : Cursor ω τ}
    (h : Sep (HasLeft watch True N xs c) (HasLeft watch ends N ys d) F w) :
    HasLeft watch ends (N + 1) (xs ++ ys) (.chain (.first c d)) F w := by
  refine hasLeft_of_stage .chain (fun _ _ => rfl)
    (U := ChainLeft (HasLeft watch True N) (HasLeft watch ends N)) (fun n hn => ?_)
    ⟨xs, ys, rfl, h⟩
  exact (supplies_hasLeft hn).chain (supplies_hasLeft hn)

/-- A cursor started in any world has `xs` left and owns nothing that was there before. -/
def Starts (watch : ω → υ) (ends : Prop) (N : Nat) (s : Sequence ω τ) (xs : List Value) : Prop :=
  ∀ w, s.start.Returns w fun c w' => Reaches (HasLeft watch ends N xs c) Region.none w w'

theorem hasLeft_replay {s : Sequence ω τ} {passes : Option Nat} {ys : List Value}
    (hs : Starts watch True N s xs) (hys : PassesLeft ends xs passes ys) :
    HasLeft watch ends (N + 1) ys (.replay s (.fresh passes)) Region.none w := by
  refine hasLeft_of_stage (.replay s) (fun _ _ => rfl)
    (U := ReplayLeft ends xs (HasLeft watch True N)) (fun n hn => ?_) ⟨rfl, hys⟩
  exact Supplies.replay hs (supplies_hasLeft hn)

/-- A pair as an element. -/
def pairValue (row : Value × Value) : Value := .list [row.1, row.2]

theorem HasLeft.pairs {s : Sequence ω τ} {ys : List Value} (hs : Starts watch True N s ys)
    (h : HasLeft watch True N xs c F w) :
    HasLeft watch True (max N (xs.length + 1) + 1) ((allPairs xs ys).map pairValue)
      (.pairs s ⟨c, none⟩) F w := by
  refine hasLeft_of_stage (.pairs s) (fun _ _ => rfl)
    (U := MapLeft pairValue (PairsLeft xs.length ys (HasLeft watch True N) (HasLeft watch True N)))
    (fun n hn => ?_) ⟨allPairs xs ys, pairsLeft_fresh h, rfl⟩
  have hm : (frame τ watch).Supplies True Machine.Exactly (machine n) (HasLeft watch True N) :=
    supplies_hasLeft (by omega)
  refine (Supplies.pairs hs hm hm (by omega)).map_exactly ?_
  exact fun row w => Comp.returns_pure.mpr ⟨rfl, Quiet.refl w⟩

theorem hasLeft_zip {t : Tuple (Cursor ω τ)} {cols : List (Prop × List Value)}
    (hcols : cols ≠ [])
    (hlong : ∀ c ∈ cols, c.1 ∨ (rows (cols.map Prod.snd)).length < c.2.length)
    (h : ColumnsLeft (fun closed => HasLeft watch closed N) cols t.toList F w) :
    HasLeft watch True (N + 1) ((rows (cols.map Prod.snd)).map .list) (.zip ⟨t, false⟩) F w := by
  refine hasLeft_of_stage .zip (fun _ _ => rfl)
    (U := MapLeft .list
      (ZipLeft True id (fun _ => True) (fun closed => HasLeft watch closed N) Tuple.toList))
    (fun n hn => ?_)
    ⟨rows (cols.map Prod.snd), ⟨cols, hcols, trivial, rfl, fun _ => hlong, ?_, h⟩, rfl⟩
  · have hm : ∀ closed, (frame τ watch).Supplies (id closed) Machine.Exactly (machine n)
        (HasLeft watch closed N) := fun closed => supplies_hasLeft hn
    refine Supplies.map ((takesRows_tupleRow hm).latch hm fun _ h => h) ?_
    intro row elements w hrow
    exact Comp.returns_pure.mpr ⟨by rw [hrow], Quiet.refl w⟩
  · intro hdry
    exact absurd hdry Bool.false_ne_true

theorem hasLeft_zipAll {cs : List (Cursor ω τ)} {cols : List (Prop × List Value)}
    (hcols : cols ≠ [])
    (hlong : ∀ c ∈ cols, c.1 ∨ (rows (cols.map Prod.snd)).length < c.2.length)
    (h : ColumnsLeft (fun closed => HasLeft watch closed N) cols cs F w) :
    HasLeft watch True (N + 1) ((rows (cols.map Prod.snd)).map .list)
      (.zipAll ⟨cs, false⟩) F w := by
  refine hasLeft_of_stage .zipAll (fun _ _ => rfl)
    (U := MapLeft .list
      (ZipLeft True id (fun _ => True) (fun closed => HasLeft watch closed N) id))
    (fun n hn => ?_)
    ⟨rows (cols.map Prod.snd), ⟨cols, hcols, trivial, rfl, fun _ => hlong, ?_, h⟩, rfl⟩
  · have hm : ∀ closed, (frame τ watch).Supplies (id closed) Machine.Exactly (machine n)
        (HasLeft watch closed N) := fun closed => supplies_hasLeft hn
    refine Supplies.map_exactly ((takesRows_listRow hm).latch hm fun _ h => h) ?_
    exact fun row w => Comp.returns_pure.mpr ⟨rfl, Quiet.refl w⟩
  · intro hdry
    exact absurd hdry Bool.false_ne_true

end Cursor

end LazySeq
