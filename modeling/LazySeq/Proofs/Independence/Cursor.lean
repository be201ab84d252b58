import LazySeq.Cursor.Basic
import LazySeq.Proofs.Independence.Restartable
import LazySeq.Proofs.Simulation.Batch
import LazySeq.Proofs.Simulation.Join
import LazySeq.Proofs.Simulation.Lockstep
import LazySeq.Proofs.Simulation.Restart
import LazySeq.Proofs.Simulation.Select

/-!
# Cursors up to what they point to

A cursor reaches into the world by number: to the cells of the cursors it holds as elements, and to
the reader of its batches. These are its spots. A `Pairing` says, one to one, which spot of one
world stands for which of another; two cursors are alike under it (`Cursor.Alike`) when they are the
same but for the spots they name, and name spots that are paired. Every sequence that such a cursor
may still start is restartable, and every callable that it may still run is pure.

`Cursor.Level` looks at the outermost stage alone. `Cursor.Alike` is the greatest relation that
stays within itself level by level: `Cursor.Alike.unfold` takes a level off and `Cursor.Level.fold`
puts one on.
-/

namespace LazySeq

variable {ω τ : Type}

/-! ## Spots -/

/-- A place in a world that cursors name by number. -/
inductive Spot where
  | cell (id : CursorId)
  | reader (id : Nat)
deriving DecidableEq

/-- Which spot stands for which, one to one. -/
structure Pairing where
  Paired : Spot → Spot → Prop
  biUnique : Relator.BiUnique Paired

namespace Pairing

instance : CoeFun Pairing fun _ => Spot → Spot → Prop := ⟨Paired⟩

def Le (b b' : Pairing) : Prop :=
  ∀ p p', b p p' → b' p p'

/-- Nothing is paired. -/
def empty : Pairing where
  Paired _ _ := False
  biUnique := ⟨fun _ _ _ h => h.elim, fun _ _ _ h => h.elim⟩

/-- One more pair, of spots that were not paired before. -/
def add (b : Pairing) (p p' : Spot) (hp : ∀ q', ¬ b p q') (hp' : ∀ q, ¬ b q p') : Pairing where
  Paired q q' := b q q' ∨ q = p ∧ q' = p'
  biUnique := by
    constructor
    · rintro q₁ q' q₂ (h₁ | ⟨rfl, rfl⟩) (h₂ | ⟨rfl, hq'⟩)
      · exact b.biUnique.1 h₁ h₂
      · exact absurd (hq' ▸ h₁) (hp' _)
      · exact absurd h₂ (hp' _)
      · rfl
    · rintro q q₁' q₂' (h₁ | ⟨rfl, rfl⟩) (h₂ | ⟨hq, rfl⟩)
      · exact b.biUnique.2 h₁ h₂
      · exact absurd (hq ▸ h₁) (hp _)
      · exact absurd h₂ (hp _)
      · rfl

/-- Which cell stands for which. -/
def cells (b : Pairing) (i j : CursorId) : Prop :=
  b (.cell i) (.cell j)

theorem biUnique_cells (b : Pairing) : Relator.BiUnique b.cells where
  left _ _ _ h h' := Spot.cell.inj (b.biUnique.1 h h')
  right _ _ _ h h' := Spot.cell.inj (b.biUnique.2 h h')

end Pairing

variable {b b' : Pairing}

/-! ## Iterators -/

inductive Iterator.Alike (b : Pairing) : Iterator ω τ → Iterator ω τ → Prop where
  | list {xs ys : List Value} (h : List.Forall₂ (Value.Alike b.cells) xs ys) :
    Alike b (.list xs) (.list ys)
  | count (next : Int) (stop : Option Int) : Alike b (.count next stop) (.count next stop)
  | given {pull : τ → Comp ω (Option Value × τ)} {g : τ → Option Value × τ}
    (hpull : Comp.Answers pull g) (hplain : ∀ s, ∀ v ∈ (g s).1, v.Plain) (state : τ) :
    Alike b (.given pull state) (.given pull state)

theorem Iterator.Alike.imp {iterator iterator' : Iterator ω τ} (hle : b.Le b')
    (h : iterator.Alike b iterator') : iterator.Alike b' iterator' := by
  cases h with
  | list h => exact .list (h.imp fun _ _ hv => hv.imp fun _ _ => hle _ _)
  | count next stop => exact .count next stop
  | given hpull hplain state => exact .given hpull hplain state

theorem Iterator.Restartable.alike {iterator : Iterator ω τ} (h : iterator.Restartable) :
    iterator.Alike b iterator := by
  cases h with
  | list hxs => exact .list (List.forall₂_same.mpr fun x hx => (hxs x hx).alike)
  | count next stop => exact .count next stop
  | given hpull hplain state => exact .given hpull hplain state

/-! ## One level -/

/-- The same restartable sequence. -/
def SameStart (s s' : Sequence ω τ) : Prop :=
  s = s' ∧ s.Restartable

def SameStarts (l l' : List (Sequence ω τ)) : Prop :=
  l = l' ∧ ∀ s ∈ l, s.Restartable

/-- The outermost stages are the same but for spots that are paired, over cursors related by `R`. -/
inductive Cursor.Level (b : Pairing) (R : Cursor ω τ → Cursor ω τ → Prop) :
    Cursor ω τ → Cursor ω τ → Prop where
  | reading {p p' : Peeked (Iterator ω τ) Value}
    (h : p.Alike (Iterator.Alike b) (Value.Alike b.cells) p') : Level b R (.reading p) (.reading p')
  | given {machine : Machine ω τ Value} (hmachine : machine.Steady) (state : τ) :
    Level b R (.given machine state) (.given machine state)
  | shared {i j : CursorId} (h : b.cells i j) : Level b R (.shared i) (.shared j)
  | cursors {p p' : Peeked (List (Sequence ω τ)) (Sequence ω τ)}
    (h : p.Alike SameStarts SameStart p') : Level b R (.cursors p) (.cursors p')
  | map {f : Fn ω} (hf : f.IsPure) {c c' : Cursor ω τ} (h : R c c') :
    Level b R (.map f c) (.map f c')
  | each {act : Value → Comp ω Unit} (hact : Comp.Answers act fun _ => ()) {c c' : Cursor ω τ}
    (h : R c c') : Level b R (.each act c) (.each act c')
  | filter {t : Test ω} (ht : t.IsPure) {p p' : Peeked (Cursor ω τ) Value}
    (h : p.Alike R (Value.Alike b.cells) p') : Level b R (.filter t p) (.filter t p')
  | takeWhile {t : Test ω} (ht : t.IsPure) {p p' : Peeked (Cursor ω τ) Value}
    (h : p.Alike R (Value.Alike b.cells) p') : Level b R (.takeWhile t p) (.takeWhile t p')
  | dropWhile {t : Test ω} (ht : t.IsPure) {p p' : Peeked (Dropping (Cursor ω τ)) Value}
    (h : p.Alike (Dropping.Alike R) (Value.Alike b.cells) p') :
    Level b R (.dropWhile t p) (.dropWhile t p')
  | slice (win : Window) {p p' : Peeked (Counted (Cursor ω τ)) Value}
    (h : p.Alike (Counted.Alike R) (Value.Alike b.cells) p') :
    Level b R (.slice win p) (.slice win p')
  | chain {r r' : Relay (Cursor ω τ) (Cursor ω τ)} (h : r.Alike R R r') :
    Level b R (.chain r) (.chain r')
  | concat {n n' : Nested (Cursor ω τ) (Cursor ω τ)} (h : n.Alike R R n') :
    Level b R (.concat n) (.concat n')
  | replay {of : Sequence ω τ} (hof : of.Restartable) {r r' : Replay (Cursor ω τ)}
    (h : r.Alike R r') : Level b R (.replay of r) (.replay of r')
  | pairs {inner : Sequence ω τ} (hinner : inner.Restartable)
    {r r' : Rowed (Cursor ω τ) (Cursor ω τ) Value} (h : r.Alike R (Value.Alike b.cells) R r') :
    Level b R (.pairs inner r) (.pairs inner r')
  | zip {l l' : Latched (Tuple (Cursor ω τ))} (h : l.Alike (Tuple.Alike R) l') :
    Level b R (.zip l) (.zip l')
  | zipAll {l l' : Latched (List (Cursor ω τ))} (h : l.Alike (List.Forall₂ R) l') :
    Level b R (.zipAll l) (.zipAll l')
  | batches (size : Nat) {r r' : Nat} (h : b (.reader r) (.reader r')) :
    Level b R (.batches size r) (.batches size r')
  | batch (k : Nat) {r r' : Nat} (h : b (.reader r) (.reader r')) :
    Level b R (.batch k r) (.batch k r')

variable {R R' : Cursor ω τ → Cursor ω τ → Prop} {c c' : Cursor ω τ}

theorem Cursor.Level.imp (hle : b.Le b') (hR : ∀ {c c'}, R c c' → R' c c')
    (h : c.Level b R c') : c.Level b' R' c' := by
  have hV : ∀ {v v' : Value}, v.Alike b.cells v' → v.Alike b'.cells v' :=
    fun hv => hv.imp fun _ _ => hle _ _
  cases h with
  | reading h => exact .reading (h.imp (fun hi => hi.imp hle) hV)
  | given hmachine state => exact .given hmachine state
  | shared h => exact .shared (hle _ _ h)
  | cursors h => exact .cursors h
  | map hf h => exact .map hf (hR h)
  | each hact h => exact .each hact (hR h)
  | filter ht h => exact .filter ht (h.imp hR hV)
  | takeWhile ht h => exact .takeWhile ht (h.imp hR hV)
  | dropWhile ht h => exact .dropWhile ht (h.imp (fun hd => hd.imp hR) hV)
  | slice win h => exact .slice win (h.imp (fun hc => hc.imp hR) hV)
  | chain h => exact .chain (h.imp hR hR)
  | concat h => exact .concat (h.imp hR hR)
  | replay hof h => exact .replay hof (h.imp hR)
  | pairs hinner h => exact .pairs hinner (h.imp hR hV hR)
  | zip h => exact .zip (h.imp fun ht => ht.imp hR)
  | zipAll h => exact .zipAll (h.imp fun hl => hl.imp fun _ _ => hR)
  | batches size h => exact .batches size (hle _ _ h)
  | batch k h => exact .batch k (hle _ _ h)

/-! ## All levels -/

/-- The same cursors but for spots that are paired. -/
def Cursor.Alike (b : Pairing) (c c' : Cursor ω τ) : Prop :=
  ∃ R : Cursor ω τ → Cursor ω τ → Prop, R c c' ∧ ∀ {c c'}, R c c' → c.Level b R c'

theorem Cursor.Alike.unfold (h : c.Alike b c') : c.Level b (Cursor.Alike b) c' := by
  obtain ⟨R, hc, hR⟩ := h
  exact (hR hc).imp (fun _ _ hp => hp) fun hc => ⟨R, hc, hR⟩

theorem Cursor.Level.fold (h : c.Level b (Cursor.Alike b) c') : c.Alike b c' :=
  ⟨Cursor.Level b (Cursor.Alike b), h, fun hc => hc.imp (fun _ _ hp => hp) Cursor.Alike.unfold⟩

theorem Cursor.Alike.imp (hle : b.Le b') (h : c.Alike b c') : c.Alike b' c' := by
  obtain ⟨R, hc, hR⟩ := h
  exact ⟨R, hc, fun hc => (hR hc).imp hle id⟩

theorem Cursor.alike_ofList {xs ys : List Value} (h : List.Forall₂ (Value.Alike b.cells) xs ys) :
    (Cursor.ofList xs : Cursor ω τ).Alike b (.ofList ys) :=
  Cursor.Level.fold (.reading ⟨.list h, .empty⟩)

theorem Cursor.alike_ofValue {v v' : Value} (h : v.Alike b.cells v') :
    (Cursor.ofValue v : Cursor ω τ).Alike b (.ofValue v') := by
  have hitems : (Cursor.ofList v.items : Cursor ω τ).Alike b (.ofList v'.items) :=
    alike_ofList h.items
  cases Value.alike_iff_cases.mp h with
  | cursor h => exact Cursor.Level.fold (.shared h)
  | list hxs => exact hitems
  | @flat v hcursor hlist =>
    have hof : (Cursor.ofValue v : Cursor ω τ) = .ofList v.items := by
      cases v <;> simp_all [Cursor.ofValue]
    rwa [hof]

end LazySeq
