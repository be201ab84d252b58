import LazySeq.Sequence.Combinators
import LazySeq.Value.Vocabulary
import Mathlib.Data.List.Forall2
import Mathlib.Logic.Relator

/-!
# Values up to the identity of cursors

In two runs the same cursor may get two different numbers. `Value.Alike r` says that two values are
the same, but that the cursors in the one stand by `r` for the cursors in the other. A function that
is `Value.Uniform` takes such values to such values, however the cursors are numbered: all it can
find out about two cursors is whether they are one.

`Value.relabel` puts labels in the place of the numbers. Values that are alike look the same once
their cursors have the same labels.
-/

namespace LazySeq

namespace Value

/-! ## Values that are alike -/

mutual

/-- The same value, where the cursors of the one stand by `r` for those of the other. -/
def Alike (r : CursorId → CursorId → Prop) : Value → Value → Prop
  | cursor i, cursor j => r i j
  | list xs, list ys => AlikeAll r xs ys
  | v, v' => v = v'

/-- Values that are alike at equal positions. -/
def AlikeAll (r : CursorId → CursorId → Prop) : List Value → List Value → Prop
  | [], [] => True
  | x :: xs, y :: ys => Alike r x y ∧ AlikeAll r xs ys
  | _, _ => False

end

variable {r s : CursorId → CursorId → Prop} {v v' : Value} {xs ys : List Value}

theorem alikeAll_iff : AlikeAll r xs ys ↔ List.Forall₂ (Alike r) xs ys := by
  induction xs generalizing ys with
  | nil => cases ys <;> simp [AlikeAll]
  | cons x xs ih => cases ys <;> simp [AlikeAll, ih]

@[simp]
theorem alike_list : Alike r (list xs) (list ys) ↔ List.Forall₂ (Alike r) xs ys := by
  rw [Alike, alikeAll_iff]

@[simp]
theorem alike_cursor {i j : CursorId} : Alike r (cursor i) (cursor j) ↔ r i j := by
  rw [Alike]

/-- How values that are alike can look. -/
inductive AlikeCases (r : CursorId → CursorId → Prop) : Value → Value → Prop where
  | cursor {i j : CursorId} (h : r i j) : AlikeCases r (cursor i) (cursor j)
  | list {xs ys : List Value} (h : List.Forall₂ (Alike r) xs ys) : AlikeCases r (list xs) (list ys)
  | flat {v : Value} (hcursor : ∀ i, v ≠ .cursor i) (hlist : ∀ xs, v ≠ .list xs) : AlikeCases r v v

theorem alike_iff_cases : Alike r v v' ↔ AlikeCases r v v' := by
  constructor
  · intro h
    cases v with
    | cursor i =>
      cases v' with
      | cursor j => exact .cursor (alike_cursor.mp h)
      | _ => simp [Alike] at h
    | list xs =>
      cases v' with
      | list ys => exact .list (alike_list.mp h)
      | _ => simp [Alike] at h
    | _ =>
      obtain rfl := by simpa only [Alike] using h
      exact .flat (by simp) (by simp)
  · intro h
    cases h with
    | cursor h => exact alike_cursor.mpr h
    | list h => exact alike_list.mpr h
    | flat hcursor hlist => cases v <;> simp_all [Alike]

/-- A property of values is shown from the inside out. -/
theorem induction {motive : Value → Prop} (cursor : ∀ i, motive (.cursor i))
    (list : ∀ xs, (∀ x ∈ xs, motive x) → motive (.list xs))
    (flat : ∀ v, (∀ i, v ≠ .cursor i) → (∀ xs, v ≠ .list xs) → motive v) : ∀ v, motive v
  | .cursor i => cursor i
  | .list xs => list xs fun x _ => induction cursor list flat x
  | .null | .bool _ | .int _ | .str _ => flat _ (by simp) (by simp)

theorem Alike.induction {motive : Value → Value → Prop}
    (cursor : ∀ i j, r i j → motive (.cursor i) (.cursor j))
    (list : ∀ xs ys, List.Forall₂ motive xs ys → motive (.list xs) (.list ys))
    (flat : ∀ v, (∀ i, v ≠ .cursor i) → (∀ xs, v ≠ .list xs) → motive v v) (h : Alike r v v') :
    motive v v' := by
  induction v using Value.induction generalizing v' with
  | cursor i =>
    obtain h | _ | ⟨hcursor, -⟩ := alike_iff_cases.mp h
    · exact cursor _ _ h
    · exact absurd rfl (hcursor i)
  | list xs ih =>
    obtain _ | hxs | ⟨-, hlist⟩ := alike_iff_cases.mp h
    · exact list _ _ (((List.forall₂_and_left _ _).mpr ⟨ih, hxs⟩).imp fun _ _ hx => hx.1 hx.2)
    · exact absurd rfl (hlist xs)
  | flat v hcursor hlist =>
    cases alike_iff_cases.mp h with
    | cursor h => exact cursor _ _ h
    | list h => exact absurd rfl (hlist _)
    | flat hcursor hlist => exact flat _ hcursor hlist

theorem Alike.imp (hrs : ∀ i j, r i j → s i j) (h : Alike r v v') : Alike s v v' := by
  refine h.induction (motive := Alike s) ?_ ?_ ?_
  · exact fun i j hij => alike_cursor.mpr (hrs i j hij)
  · exact fun xs ys hxs => alike_list.mpr hxs
  · exact fun v hcursor hlist => alike_iff_cases.mpr (.flat hcursor hlist)

/-- The items of values that are alike, in the same order. -/
theorem Alike.items (h : Alike r v v') : List.Forall₂ (Alike r) v.items v'.items := by
  cases alike_iff_cases.mp h with
  | cursor h => exact .cons (alike_cursor.mpr h) .nil
  | list hxs => exact hxs
  | @flat v hcursor hlist =>
    refine List.forall₂_same.mpr fun x hx => ?_
    cases v with
    | cursor i => exact absurd rfl (hcursor i)
    | list xs => exact absurd rfl (hlist xs)
    | str text =>
      obtain ⟨c, -, rfl⟩ := List.mem_map.mp hx
      exact alike_iff_cases.mpr (.flat (by simp) (by simp))
    | _ =>
      obtain rfl := List.mem_singleton.mp hx
      exact alike_iff_cases.mpr (.flat hcursor hlist)

/-! ## The cursors in a value -/

mutual

/-- The cursors in a value, from left to right. -/
def cursors : Value → List CursorId
  | cursor i => [i]
  | list xs => cursorsOfAll xs
  | _ => []

def cursorsOfAll : List Value → List CursorId
  | [] => []
  | x :: xs => x.cursors ++ cursorsOfAll xs

end

mutual

/-- The value with a label for every cursor. -/
def relabel (label : CursorId → CursorId) : Value → Value
  | cursor i => cursor (label i)
  | list xs => list (relabelAll label xs)
  | v => v

def relabelAll (label : CursorId → CursorId) : List Value → List Value
  | [] => []
  | x :: xs => x.relabel label :: relabelAll label xs

end

@[simp]
theorem cursors_list (xs : List Value) : (list xs).cursors = xs.flatMap cursors := by
  rw [cursors]
  induction xs with
  | nil => rfl
  | cons x xs ih => rw [cursorsOfAll, ih, List.flatMap_cons]

@[simp]
theorem relabel_list (label : CursorId → CursorId) (xs : List Value) :
    (list xs).relabel label = list (xs.map (relabel label)) := by
  rw [relabel]
  congr 1
  induction xs with
  | nil => rfl
  | cons x xs ih => rw [relabelAll, ih, List.map_cons]

theorem Alike.cursors (h : Alike r v v') : List.Forall₂ r v.cursors v'.cursors := by
  refine h.induction (motive := fun v v' => List.Forall₂ r v.cursors v'.cursors) ?_ ?_ ?_
  · exact fun i j hij => .cons hij .nil
  · intro xs ys hxs
    rw [cursors_list, cursors_list]
    exact List.rel_flatMap hxs fun _ _ hx => hx
  · intro v hcursor hlist
    cases v <;> simp_all [Value.cursors]

/-- Where the labels agree, values that are alike look the same. -/
theorem Alike.relabel {label label' : CursorId → CursorId} (h : Alike r v v')
    (hlabel : ∀ i j, r i j → label i = label' j) : v.relabel label = v'.relabel label' := by
  refine h.induction (motive := fun v v' => v.relabel label = v'.relabel label') ?_ ?_ ?_
  · intro i j hij
    rw [Value.relabel, Value.relabel, hlabel i j hij]
  · intro xs ys hxs
    rw [relabel_list, relabel_list]
    induction hxs with
    | nil => rfl
    | cons hx _ ih => simpa [hx] using ih
  · intro v hcursor hlist
    cases v <;> simp_all [Value.relabel]

/-- No cursor is in the value. -/
def Plain (v : Value) : Prop :=
  v.cursors = []

instance : DecidablePred Plain := fun v => inferInstanceAs (Decidable (v.cursors = []))

theorem Plain.alike (h : v.Plain) : Alike r v v := by
  induction v using Value.induction with
  | cursor i => cases h
  | list xs ih =>
    rw [Plain, cursors_list, List.flatMap_eq_nil_iff] at h
    exact alike_list.mpr (List.forall₂_same.mpr fun x hx => ih x hx (h x hx))
  | flat v hcursor hlist => exact alike_iff_cases.mpr (.flat hcursor hlist)

/-! ## Functions that cannot tell cursors apart by number -/

/-- The function does the same to values that are alike, for every one-to-one renumbering. -/
def Uniform (g : Value → Value) : Prop :=
  ∀ r, Relator.BiUnique r → ∀ v v', Alike r v v' → Alike r (g v) (g v')

theorem uniform_onInt {f : Int → Value} (hf : ∀ n, (f n).Plain) : Uniform (onInt f) := by
  intro r _ v v' hv
  cases alike_iff_cases.mp hv with
  | cursor h => exact alike_cursor.mpr h
  | list h => exact alike_list.mpr h
  | flat hcursor hlist =>
    cases v with
    | int n => exact (hf n).alike
    | _ => exact hv

end Value

end LazySeq
