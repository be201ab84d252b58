import LazySeq.Proofs.Independence.Calls
import Mathlib.Logic.Function.Basic

/-!
# Sessions

Several sides use one sequence at the same time. Each of them starts cursors and calls them, and
calls the cursors it was handed as elements; it holds all of these by handles, numbered in the order
in which it came to hold them. Of a reply it sees the cursors by their handles, because the number
of a cell means nothing to it.

`Session.run` lets the sides take their turns in the order given, and tells what each of them sees.
`carries_turn` compares a turn in two worlds: from handles on paired cursors it leads to handles on
paired cursors, and what is seen is the same.
-/

namespace LazySeq

open Comparison Comparison.Rel

variable {ω τ ι : Type}

/-! ## Replies by handles -/

namespace Reply

/-- The cursors that are handed over by a reply. -/
def cursors : Reply Value → List CursorId
  | .item (.ok v) => v.cursors
  | _ => []

/-- The reply with a label for every cursor. -/
def relabel (label : CursorId → CursorId) : Reply Value → Reply Value
  | .more left => .more left
  | .item answer => .item (answer.map (Value.relabel label))

end Reply

/-! ## Turns -/

/-- What a side can do in its turn. -/
inductive Turn where
  /-- start one more cursor on the sequence -/
  | start
  /-- call the cursor behind a handle -/
  | call (handle : Nat) (ask : Ask)

/-- What a side sees of its turn. -/
inductive Sight where
  | started
  /-- nothing is held by that handle -/
  | noHandle
  | reply (r : Reply Value)
deriving DecidableEq

/-- The turn of a side that holds the cursors `held`, and what it holds afterwards. -/
def Turn.run (fuel : Nat) (s : Sequence ω τ) :
    Turn → List CursorId → Comp (World ω τ) (Sight × List CursorId)
  | .start, held => do
    let id ← World.adopt (← s.start)
    return (.started, held ++ [id])
  | .call handle ask, held =>
    match held[handle]? with
    | none => return (.noHandle, held)
    | some id => do
      let (r, _) ← (Cursor.cells fuel).call ask id
      let held := held ++ r.cursors
      return (.reply (r.relabel held.idxOf), held)

/-- The turns of all sides, in order. `held` tells what each side holds. -/
def Session.run [DecidableEq ι] (fuel : Nat) (s : Sequence ω τ) :
    List (ι × Turn) → (ι → List CursorId) → Comp (World ω τ) (List (ι × Sight))
  | [], _ => return []
  | (i, turn) :: turns, held => do
    let (seen, mine) ← turn.run fuel s (held i)
    let others ← run fuel s turns (Function.update held i mine)
    return (i, seen) :: others

/-- The turns, taken in the world `w` by sides that hold nothing yet, are all answered, and `seen`
is what the sides see. -/
def Session.Sees [DecidableEq ι] (fuel : Nat) (s : Sequence ω τ) (turns : List (ι × Turn))
    (w : World ω τ) (seen : List (ι × Sight)) : Prop :=
  ∃ w', Session.run fuel s turns (fun _ => []) w = .ok seen w'

instance [DecidableEq ι] (fuel : Nat) (s : Sequence ω τ) (turns : List (ι × Turn))
    (w : World ω τ) (seen : List (ι × Sight)) : Decidable (Session.Sees fuel s turns w seen) :=
  match h : Session.run fuel s turns (fun _ => []) w with
  | .ok all w' => decidable_of_iff (all = seen) (by simp [Session.Sees, h])
  | .error _ _ => isFalse (by simp [Session.Sees, h])

/-! ## Turns in two worlds -/

variable {keep keep' : Spot → Option (Content ω τ)} {b : Pairing}

theorem idxOf_eq_of_forall₂ {r : CursorId → CursorId → Prop} (hr : Relator.BiUnique r)
    {held held' : List CursorId} (h : List.Forall₂ r held held') {i j : CursorId} (hij : r i j) :
    held.idxOf i = held'.idxOf j := by
  induction h with
  | nil => rfl
  | @cons x y _ _ hxy _ ih =>
    have hiff : x = i ↔ y = j := ⟨fun hx => hr.2 (hx ▸ hxy) hij, fun hy => hr.1 (hy ▸ hxy) hij⟩
    by_cases hx : x = i
    · simp [hx, hiff.mp hx]
    · have hy : y ≠ j := fun hy => hx (hiff.mpr hy)
      simp [hx, hy, ih]

theorem getElem?_rel_of_forall₂ {α β : Type} {r : α → β → Prop} {xs : List α} {ys : List β}
    (h : List.Forall₂ r xs ys) (k : Nat) : Option.Rel r xs[k]? ys[k]? := by
  induction h generalizing k with
  | nil => exact .none
  | cons hx _ ih =>
    cases k with
    | zero => exact .some hx
    | succ k => exact ih k

theorem Reply.cursors_of_replies {r r' : Reply Value} (h : Replies (Value.Alike b.cells) r r') :
    List.Forall₂ b.cells r.cursors r'.cursors := by
  obtain left | h := h
  · exact .nil
  · obtain hv | e := h
    · exact hv.cursors
    · exact .nil

theorem Reply.relabel_of_replies {r r' : Reply Value} (h : Replies (Value.Alike b.cells) r r')
    {label label' : CursorId → CursorId} (hlabel : ∀ i j, b.cells i j → label i = label' j) :
    r.relabel label = r'.relabel label' := by
  obtain left | h := h
  · rfl
  · obtain hv | e := h
    · exact congrArg (fun v => Reply.item (.ok v)) (hv.relabel hlabel)
    · rfl

/-- Sides that hold paired cursors see the same in their turn, and hold paired cursors again. -/
theorem carries_turn {s : Sequence ω τ} (hs : s.Restartable) (fuel : Nat) (turn : Turn) :
    (apart keep keep').Carries cells.list (Rel.eq.prod cells.list) (turn.run fuel s)
      (turn.run fuel s) := by
  intro b held held' hheld
  cases turn with
  | start =>
    refine (follows_start hs b).bind fun hle hc => ?_
    refine (follows_adopt hc).bind fun hle' hid => ?_
    have hheld := cells.list.mono hle' (cells.list.mono hle hheld)
    exact follows_pure ⟨rfl, List.rel_append hheld (.cons hid .nil)⟩
  | call handle ask =>
    have hhandle := getElem?_rel_of_forall₂ hheld handle
    rw [Turn.run, Turn.run]
    generalize held[handle]? = o at hhandle ⊢
    generalize held'[handle]? = o' at hhandle ⊢
    obtain hid | _ := hhandle
    · refine ((mimics_machine fuel).cellMachine.call ask hid).bind ?_
      rintro b' ⟨r, i⟩ ⟨r', i'⟩ hle ⟨hr, hi⟩
      have hnow := List.rel_append (cells.list.mono hle hheld) (Reply.cursors_of_replies hr)
      have hshown := Reply.relabel_of_replies hr fun _ _ =>
        idxOf_eq_of_forall₂ (Pairing.biUnique_cells b') hnow
      exact follows_pure ⟨congrArg Sight.reply hshown, hnow⟩
    · exact follows_pure ⟨rfl, hheld⟩

end LazySeq
