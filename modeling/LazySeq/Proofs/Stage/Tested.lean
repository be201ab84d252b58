import LazySeq.Proofs.Stage.LookAhead
import Mathlib.Data.List.TakeWhile

/-!
# Which elements are tested

The three cursors that go by a test, told from the calls they make below and the tests they run,
over a machine and with a test that may do anything. A filter tests every element that comes, once,
and brings those that passed (`Sifted`). To take while a test is passed is to test every element
that comes as well, up to the first that fails, with which everything ends (`Led`). To drop while a
test is passed is to test up to the first that fails and none of the later ones (`Trailed`).

What a cursor that looks ahead has brought is what it has handed out and what its slot holds
(`Machine.Brings`).
-/

namespace LazySeq

variable {ω σ α : Type}

/-- The element ahead, if there is one. -/
def Slot.toList : Slot α → List α
  | held a => [a]
  | _ => []

namespace Machine

/-! ## What was brought -/

section Brings

variable {fetch : σ → Comp ω (Option α × σ)} {Open Shut : List α → ω → σ → Prop}
variable {out : List α} {w : ω} {s : σ} {p : Peeked σ α}

/-- `fetch` keeps an account of all that it has brought: it is `Open` as long as there was always an
element, and `Shut` where there was none. -/
structure Brings (fetch : σ → Comp ω (Option α × σ)) (Open Shut : List α → ω → σ → Prop) :
    Prop where
  fetch {out : List α} {w : ω} {s : σ} : Open out w s → (fetch s).Ensures w fun r w' =>
    match r.1 with
    | some a => Open (out ++ [a]) w' r.2
    | none => Shut out w' r.2

/-- The account of a cursor that has handed out `given`: the element in the slot was brought too. -/
def Brought (Open Shut : List α → ω → σ → Prop) (given : List α) (w : ω) (p : Peeked σ α) : Prop :=
  match p.slot with
  | .closed => Shut given w p.source
  | slot => Open (given ++ slot.toList) w p.source

/-- What follows from an account, open or shut, is true of what was handed out and is held. -/
theorem Brought.elim {P : List α → ω → Prop} (hopen : ∀ {out w s}, Open out w s → P out w)
    (hshut : ∀ {out w s}, Shut out w s → P out w) {given : List α}
    (h : Brought Open Shut given w p) : P (given ++ p.slot.toList) w := by
  obtain ⟨s, slot⟩ := p
  cases slot with
  | empty => exact hopen h
  | held a => exact hopen h
  | closed => exact (List.append_nil given).symm ▸ hshut h

theorem Brings.fill (h : Brings fetch Open Shut) {given : List α}
    (hp : Brought Open Shut given w p) :
    (fill fetch p).Ensures w fun r w' => Brought Open Shut given w' r.2 ∧ r.2.slot ≠ .empty := by
  obtain ⟨s, slot⟩ := p
  cases slot with
  | held a => exact Comp.ensures_pure.mpr ⟨hp, nofun⟩
  | closed => exact Comp.ensures_pure.mpr ⟨hp, nofun⟩
  | empty =>
    have hs : Open given w s := List.append_nil given ▸ hp
    refine (h.fetch hs).bind ?_
    rintro ⟨answer, s⟩ w' hs
    cases answer with
    | some a => exact Comp.ensures_pure.mpr ⟨hs, nofun⟩
    | none => exact Comp.ensures_pure.mpr ⟨hs, nofun⟩

theorem Brings.call (h : Brings fetch Open Shut) {replies : List (Reply α)}
    (hp : Brought Open Shut (Reply.items replies) w p) (ask : Ask) :
    ((peek fetch).call ask p).Ensures w fun r w' =>
      Brought Open Shut (Reply.items (replies ++ [r.1])) w' r.2 := by
  refine ensures_call (fun _ => (h.fill hp).mono ?_) fun _ => (h.fill hp).bind ?_
  · rintro ⟨more, p⟩ w' ⟨hp, -⟩
    rwa [Reply.items_append, Reply.items_more, List.append_nil]
  · rintro ⟨more, s, slot⟩ w' ⟨hp, hslot⟩
    cases slot with
    | empty => exact absurd rfl hslot
    | held a =>
      -- the element leaves the slot and is the last that was handed out
      refine Comp.ensures_pure.mpr ?_
      have hs : Open (Reply.items replies ++ [a]) w' s := hp
      simpa [Brought, Slot.toList, Except.toOption] using hs
    | closed =>
      refine Comp.ensures_pure.mpr ?_
      simpa [Brought, Except.toOption] using hp

/-- A cursor that looks ahead, wherever a schedule leads it. -/
theorem Brings.run (h : Brings fetch Open Shut) (hs : Open [] w s) (asks : List Ask) :
    ((peek fetch).run asks (.fresh s)).Ensures w fun r w' =>
      Brought Open Shut (Reply.items r.1) w' r.2 :=
  ensures_run (fun replies w p => Brought Open Shut (Reply.items replies) w p)
    (fun ask _ _ _ hp => h.call hp ask) asks hs

end Brings

/-! ## Elements and tests -/

namespace Deed

/-- The elements that the cursor below has handed out, in order. -/
def items (deeds : List (Deed α)) : List α :=
  deeds.filterMap fun
    | .called (.item (.ok a)) => some a
    | _ => none

/-- The tests that were run, in order, each with its answer. -/
def tests (deeds : List (Deed α)) : List (α × Bool) :=
  deeds.filterMap fun
    | .tested a passed => some (a, passed)
    | _ => none

@[simp]
theorem items_append (deeds deeds' : List (Deed α)) :
    items (deeds ++ deeds') = items deeds ++ items deeds' :=
  List.filterMap_append

@[simp]
theorem tests_append (deeds deeds' : List (Deed α)) :
    tests (deeds ++ deeds') = tests deeds ++ tests deeds' :=
  List.filterMap_append

@[simp]
theorem items_called (replies : List (Reply α)) :
    items (replies.map called) = Reply.items replies := by
  rw [items, Reply.items, List.filterMap_map]
  refine congrArg (List.filterMap · replies) (funext fun reply => ?_)
  rcases reply with more | (e | a) <;> rfl

@[simp]
theorem tests_called (replies : List (Reply α)) : tests (replies.map called) = [] := by
  rw [tests, List.filterMap_map]
  exact List.filterMap_eq_nil_iff.mpr fun _ _ => rfl

@[simp]
theorem items_tested (a : α) (passed : Bool) : items [tested a passed] = [] := rfl

@[simp]
theorem tests_tested (a : α) (passed : Bool) : tests [tested a passed] = [(a, passed)] := rfl

end Deed

open Deed (items tests)

section Steps

variable {m : Machine ω σ α} {v : Noted ω (Deed α)}

/-- A guarded pull makes one call or two, and of these comes the element that it brings. -/
theorem ensures_pull?_noted (s : σ) :
    ((m.noted Deed.called).pull? s).Ensures v fun r v' => ∃ replies : List (Reply α),
      v'.notes = v.notes ++ replies.map .called ∧ Reply.items replies = r.1.toList := by
  refine (Comp.ensures_noting _ _ _).bind ?_
  rintro ⟨more, s⟩ v₁ hnotes
  cases more with
  | false => exact Comp.ensures_pure.mpr ⟨[.more false], hnotes, rfl⟩
  | true =>
    refine (Comp.ensures_noting _ _ _).bind ?_
    rintro ⟨answer, s⟩ v₂ hnotes'
    refine Comp.ensures_pure.mpr ⟨[.more true, .item answer], ?_, ?_⟩
    · rw [hnotes', hnotes, List.append_assoc]
      rfl
    · exact (Reply.items_append [.more true] [.item answer]).trans (Reply.items_item answer)

/-- `probe` runs one test, on its own element, and answers what `keep` makes of the answer. -/
def Probes (keep : Bool → Bool) (probe : α → Comp (Noted ω (Deed α)) Bool) : Prop :=
  ∀ a v, (probe a).Ensures v fun kept v' => ∃ passed, kept = keep passed ∧
    v'.notes = v.notes ++ [.tested a passed]

theorem probes_notedTest (test : α → Comp ω Bool) : Probes id (notedTest test) :=
  fun a v => (Comp.ensures_noting (test a) _ v).mono fun passed _ hnotes => ⟨passed, rfl, hnotes⟩

end Steps

/-! ## The three accounts -/

variable {keep : Bool → Bool} {deeds : List (Deed α)} {out : List α}

/-- Every element that came was tested, in order, and those that are kept were brought. -/
structure Sifted (keep : Bool → Bool) (deeds : List (Deed α)) (out : List α) : Prop where
  tested : (tests deeds).map Prod.fst = items deeds
  brought : out = ((tests deeds).filter fun t => keep t.2).map Prod.fst

/-- Every element that came was tested, in order, and those before the first that is not kept were
brought. They are all that came, or all but the last, and after an element that is not kept nothing
was done. -/
structure Led (keep : Bool → Bool) (deeds : List (Deed α)) (out : List α) : Prop where
  tested : (tests deeds).map Prod.fst = items deeds
  brought : out = ((tests deeds).takeWhile fun t => keep t.2).map Prod.fst
  omits : items deeds = out ∨ ∃ a, items deeds = out ++ [a]
  final {before after : List (Deed α)} {a : α} {passed : Bool} :
    deeds = before ++ .tested a passed :: after → keep passed = false → after = []

/-- The number of elements before the first that is not kept. -/
def leading (keep : Bool → Bool) (deeds : List (Deed α)) : Nat :=
  ((tests deeds).takeWhile fun t => keep t.2).length

/-- The elements up to the first that is not kept were tested, in order, and no other. From that one
on they were brought. -/
structure Trailed (keep : Bool → Bool) (deeds : List (Deed α)) (out : List α) : Prop where
  tested : (tests deeds).map Prod.fst = (items deeds).take (leading keep deeds + 1)
  brought : out = (items deeds).drop (leading keep deeds)

/-! ### Filters -/

theorem Sifted.more (h : Sifted keep deeds out) {replies : List (Reply α)}
    (hnone : Reply.items replies = []) : Sifted keep (deeds ++ replies.map .called) out where
  tested := by simpa [hnone] using h.tested
  brought := by simpa using h.brought

theorem Sifted.test (h : Sifted keep deeds out) {replies : List (Reply α)} {a : α}
    (hone : Reply.items replies = [a]) (passed : Bool) :
    Sifted keep (deeds ++ replies.map .called ++ [.tested a passed])
      (out ++ if keep passed then [a] else []) where
  tested := by simp [h.tested, hone]
  brought := by
    rw [h.brought]
    cases hkeep : keep passed <;> simp [hkeep]

theorem brings_seek (m : Machine ω σ α) {probe : α → Comp (Noted ω (Deed α)) Bool}
    (hprobe : Probes keep probe) (fuel : Nat) :
    Brings ((m.noted Deed.called).seek probe fuel) (fun out v _ => Sifted keep v.notes out)
      fun out v _ => Sifted keep v.notes out where
  fetch {out v s} hs := by
    induction fuel generalizing v s with
    | zero => exact nofun
    | succ n ih =>
      refine (ensures_pull?_noted s).bind ?_
      rintro ⟨answer, s⟩ v₁ ⟨replies, hnotes, hreplies⟩
      cases answer with
      | none =>
        refine Comp.ensures_pure.mpr ?_
        rw [hnotes]
        exact hs.more hreplies
      | some a =>
        refine (hprobe a v₁).bind ?_
        rintro kept v₂ ⟨passed, rfl, hnotes'⟩
        rw [hnotes] at hnotes'
        have hs' := hs.test hreplies passed
        rw [← hnotes'] at hs'
        cases hkeep : keep passed with
        | true =>
          rw [hkeep] at hs'
          exact Comp.ensures_pure.mpr hs'
        | false =>
          -- it was tested and not brought, and the search goes on
          rw [hkeep] at hs'
          exact ih (by simpa using hs')

/-! ### Leading elements -/

/-- Every element that came was tested, in order, and all are kept. -/
structure AllKept (keep : Bool → Bool) (deeds : List (Deed α)) : Prop where
  tested : (tests deeds).map Prod.fst = items deeds
  kept : ∀ t ∈ tests deeds, keep t.2 = true

theorem allKept_nil : AllKept keep ([] : List (Deed α)) where
  tested := rfl
  kept := nofun

theorem AllKept.more (h : AllKept keep deeds) {replies : List (Reply α)}
    (hnone : Reply.items replies = []) : AllKept keep (deeds ++ replies.map .called) where
  tested := by simpa [hnone] using h.tested
  kept := by simpa using h.kept

theorem AllKept.test (h : AllKept keep deeds) {replies : List (Reply α)} {a : α} {passed : Bool}
    (hone : Reply.items replies = [a]) (hkeep : keep passed = true) :
    AllKept keep (deeds ++ replies.map .called ++ [.tested a passed]) where
  tested := by simp [h.tested, hone]
  kept t ht := by
    have ht' : t ∈ tests deeds ∨ t = (a, passed) := by simpa using ht
    rcases ht' with ht | rfl
    · exact h.kept t ht
    · exact hkeep

theorem AllKept.led (h : AllKept keep deeds) : Led keep deeds (items deeds) where
  tested := h.tested
  brought := by rw [List.takeWhile_eq_self_iff.mpr h.kept, h.tested]
  omits := .inl rfl
  final {before after a passed} hdeeds hkeep := by
    subst hdeeds
    refine absurd (h.kept (a, passed) ?_) (by simp [hkeep])
    simp [tests]

/-- The first element that is not kept is the last that comes. -/
theorem AllKept.led_of_not (h : AllKept keep deeds) {replies : List (Reply α)} {a : α}
    {passed : Bool} (hone : Reply.items replies = [a]) (hkeep : keep passed = false) :
    Led keep (deeds ++ replies.map .called ++ [.tested a passed]) (items deeds) where
  tested := by simp [h.tested, hone]
  brought := by
    simp [List.takeWhile_append_of_pos h.kept, hkeep, h.tested]
  omits := .inr ⟨a, by simp [hone]⟩
  final {before after b passed'} hdeeds hkeep' := by
    rcases eq_nil_or_of_concat_eq hdeeds with hafter | ⟨init, hinit⟩
    · exact hafter
    · -- a test before the last one belongs to an element that is kept
      have hmem : (b, passed') ∈ tests (deeds ++ replies.map .called) := by
        rw [hinit]
        simp [tests]
      rw [Deed.tests_append, Deed.tests_called, List.append_nil] at hmem
      exact absurd (h.kept _ hmem) (by simp [hkeep'])

theorem brings_pullIf (m : Machine ω σ α) {probe : α → Comp (Noted ω (Deed α)) Bool}
    (hprobe : Probes keep probe) :
    Brings ((m.noted Deed.called).pullIf probe)
      (fun out v _ => AllKept keep v.notes ∧ out = items v.notes)
      fun out v _ => Led keep v.notes out where
  fetch {out v s} := by
    rintro ⟨hs, rfl⟩
    refine (ensures_pull?_noted s).bind ?_
    rintro ⟨answer, s⟩ v₁ ⟨replies, hnotes, hreplies⟩
    cases answer with
    | none =>
      refine Comp.ensures_pure.mpr ?_
      have hled := (hs.more hreplies).led
      rw [← hnotes] at hled
      simpa [hnotes, hreplies] using hled
    | some a =>
      refine (hprobe a v₁).bind ?_
      rintro kept v₂ ⟨passed, rfl, hnotes'⟩
      rw [hnotes] at hnotes'
      cases hkeep : keep passed with
      | true =>
        refine Comp.ensures_pure.mpr ?_
        rw [hnotes']
        exact ⟨hs.test hreplies hkeep, by simp [hreplies]⟩
      | false =>
        refine Comp.ensures_pure.mpr ?_
        rw [hnotes']
        exact hs.led_of_not hreplies hkeep

/-! ### All but leading elements -/

/-- The elements before one that is not kept were tested and are kept, that one was tested last,
and it was brought with all that came after it. -/
def Parted (keep : Bool → Bool) (deeds : List (Deed α)) (out : List α) : Prop :=
  ∃ run a passed rest, tests deeds = run ++ [(a, passed)] ∧ (∀ t ∈ run, keep t.2 = true) ∧
    keep passed = false ∧ items deeds = run.map Prod.fst ++ a :: rest ∧ out = a :: rest

theorem AllKept.parted (h : AllKept keep deeds) {replies : List (Reply α)} {a : α} {passed : Bool}
    (hone : Reply.items replies = [a]) (hkeep : keep passed = false) :
    Parted keep (deeds ++ replies.map .called ++ [.tested a passed]) [a] :=
  ⟨tests deeds, a, passed, [], by simp, h.kept, hkeep, by simp [h.tested, hone], rfl⟩

/-- No element is tested any more. -/
theorem Parted.more (h : Parted keep deeds out) (replies : List (Reply α)) :
    Parted keep (deeds ++ replies.map .called) (out ++ Reply.items replies) := by
  obtain ⟨run, a, passed, rest, htests, hkept, hkeep, hitems, rfl⟩ := h
  exact ⟨run, a, passed, rest ++ Reply.items replies, by simp [htests], hkept, hkeep,
    by simp [hitems], rfl⟩

theorem AllKept.trailed (h : AllKept keep deeds) : Trailed keep deeds [] := by
  have hleading : leading keep deeds = (items deeds).length := by
    rw [leading, List.takeWhile_eq_self_iff.mpr h.kept, ← h.tested, List.length_map]
  constructor
  · rw [hleading, List.take_of_length_le (Nat.le_succ _), h.tested]
  · rw [hleading, List.drop_length]

theorem Parted.trailed (h : Parted keep deeds out) : Trailed keep deeds out := by
  obtain ⟨run, a, passed, rest, htests, hkept, hkeep, hitems, rfl⟩ := h
  have hleading : leading keep deeds = (run.map Prod.fst).length := by
    rw [leading, htests, List.takeWhile_append_of_pos hkept]
    simp [hkeep]
  constructor
  · rw [hleading, htests, hitems, List.take_length_add_append]
    simp
  · rw [hleading, hitems, List.drop_left]

/-- The account of a cursor that drops leading elements: while it does, nothing was brought. -/
def DropAccount (keep : Bool → Bool) (out : List α) (v : Noted ω (Deed α)) (d : Dropping σ) :
    Prop :=
  if d.dropping then AllKept keep v.notes ∧ out = [] else Parted keep v.notes out

theorem DropAccount.trailed {v : Noted ω (Deed α)} {d : Dropping σ} (h : DropAccount keep out v d) :
    Trailed keep v.notes out := by
  rw [DropAccount] at h
  split at h
  · obtain ⟨h, rfl⟩ := h
    exact h.trailed
  · exact h.trailed

theorem brings_skipRun (m : Machine ω σ α) {probe : α → Comp (Noted ω (Deed α)) Bool}
    (hprobe : Probes keep probe) (fuel : Nat) :
    Brings ((m.noted Deed.called).skipRun probe fuel) (DropAccount keep) (DropAccount keep) where
  fetch {out v d} hd := by
    induction fuel generalizing v d with
    | zero => exact nofun
    | succ n ih =>
      obtain ⟨s, dropping⟩ := d
      refine (ensures_pull?_noted s).bind ?_
      rintro ⟨answer, s⟩ v₁ ⟨replies, hnotes, hreplies⟩
      cases dropping with
      | false =>
        -- whatever comes is brought as it is
        have hd' : Parted keep v₁.notes (out ++ answer.toList) := by
          rw [hnotes, ← hreplies]
          exact Parted.more hd replies
        cases answer with
        | none => exact Comp.ensures_pure.mpr (List.append_nil out ▸ hd')
        | some a => exact Comp.ensures_pure.mpr hd'
      | true =>
        obtain ⟨hkept, rfl⟩ := hd
        cases answer with
        | none =>
          refine Comp.ensures_pure.mpr ⟨?_, rfl⟩
          rw [hnotes]
          exact hkept.more hreplies
        | some a =>
          refine (hprobe a v₁).bind ?_
          rintro kept v₂ ⟨passed, rfl, hnotes'⟩
          rw [hnotes] at hnotes'
          cases hkeep : keep passed with
          | true =>
            -- one more that is dropped, and the run goes on
            refine ih ⟨?_, rfl⟩
            rw [hnotes']
            exact hkept.test hreplies hkeep
          | false =>
            refine Comp.ensures_pure.mpr ?_
            show Parted keep v₂.notes [a]
            rw [hnotes']
            exact hkept.parted hreplies hkeep

/-! ### Tests that are functions -/

section Function

variable {f : α → Bool}

theorem tests_eq_map (hf : ∀ t ∈ tests deeds, t.2 = f t.1) :
    tests deeds = ((tests deeds).map Prod.fst).map fun a => (a, f a) := by
  rw [List.map_map]
  exact (List.map_id _).symm.trans (List.map_congr_left fun t ht => Prod.ext rfl (hf t ht))

theorem Sifted.eq_filter (h : Sifted keep deeds out) (hf : ∀ t ∈ tests deeds, t.2 = f t.1) :
    out = (items deeds).filter fun a => keep (f a) := by
  rw [h.brought, tests_eq_map hf, h.tested, List.filter_map, List.map_map]
  exact List.map_id _

theorem Led.eq_takeWhile (h : Led keep deeds out) (hf : ∀ t ∈ tests deeds, t.2 = f t.1) :
    out = (items deeds).takeWhile fun a => keep (f a) := by
  rw [h.brought, tests_eq_map hf, h.tested, List.takeWhile_map, List.map_map]
  exact List.map_id _

theorem Trailed.eq_dropWhile (h : Trailed keep deeds out) (hf : ∀ t ∈ tests deeds, t.2 = f t.1) :
    out = (items deeds).dropWhile fun a => keep (f a) := by
  let kept : α → Bool := fun a => keep (f a)
  have htests : tests deeds = ((items deeds).take (leading keep deeds + 1)).map fun a => (a, f a) :=
    (tests_eq_map hf).trans (by rw [h.tested])
  have htaken : leading keep deeds =
      (((items deeds).take (leading keep deeds + 1)).takeWhile kept).length := by
    calc
      leading keep deeds = ((tests deeds).takeWhile fun t => keep t.2).length := rfl
      _ = _ := by
        rw [htests, List.takeWhile_map, List.length_map]
        rfl
  have hlength : leading keep deeds = ((items deeds).takeWhile kept).length := by
    rw [← List.take_takeWhile, List.length_take] at htaken
    omega
  calc
    out = (items deeds).drop ((items deeds).takeWhile kept).length := by rw [h.brought, hlength]
    _ = ((items deeds).takeWhile kept ++ (items deeds).dropWhile kept).drop
        ((items deeds).takeWhile kept).length := by rw [List.takeWhile_append_dropWhile]
    _ = (items deeds).dropWhile kept := List.drop_left

end Function

/-! ## All schedules -/

/-- Wherever a schedule of calls leads, `P` holds of what was done below and of the elements that
were handed out, followed by the one in the slot. -/
def Accounts (k : Machine (Noted ω (Deed α)) (Peeked σ α) α) (source : σ)
    (P : List (Deed α) → List α → Prop) : Prop :=
  ∀ asks w, (k.run asks (.fresh source)).Ensures ⟨w, []⟩ fun r v =>
    P v.notes (Reply.items r.1 ++ r.2.slot.toList)

theorem Brings.accounts {fetch : σ → Comp (Noted ω (Deed α)) (Option α × σ)}
    {Open Shut : List α → Noted ω (Deed α) → σ → Prop} (h : Brings fetch Open Shut) {source : σ}
    {P : List (Deed α) → List α → Prop} (hsource : ∀ w, Open [] ⟨w, []⟩ source)
    (hopen : ∀ {out v s}, Open out v s → P v.notes out)
    (hshut : ∀ {out v s}, Shut out v s → P v.notes out) : (peek fetch).Accounts source P :=
  fun asks w => (h.run (hsource w) asks).mono fun _ _ hp =>
    hp.elim (P := fun out v => P v.notes out) hopen hshut

section Accounts

variable (m : Machine ω σ α) {probe : α → Comp (Noted ω (Deed α)) Bool}

theorem accounts_filter (hprobe : Probes keep probe) (fuel : Nat) (s : σ) :
    ((m.noted Deed.called).filter fuel probe).Accounts s (Sifted keep) :=
  (brings_seek m hprobe fuel).accounts (fun _ => ⟨rfl, rfl⟩) id id

theorem accounts_takeWhile (hprobe : Probes keep probe) (s : σ) :
    ((m.noted Deed.called).takeWhile probe).Accounts s (Led keep) := by
  refine (brings_pullIf m hprobe).accounts (fun _ => ⟨allKept_nil, rfl⟩) ?_ id
  rintro out v s ⟨hkept, rfl⟩
  exact hkept.led

theorem accounts_dropWhile (hprobe : Probes keep probe) (fuel : Nat) (s : σ) :
    ((m.noted Deed.called).dropWhile fuel probe).Accounts ⟨s, true⟩ (Trailed keep) :=
  (brings_skipRun m hprobe fuel).accounts (fun _ => ⟨allKept_nil, rfl⟩) DropAccount.trailed
    DropAccount.trailed

end Accounts

/-- Runs a test and answers the opposite. -/
def negated (test : α → Comp ω Bool) (a : α) : Comp ω Bool := do
  return !(← test a)

theorem probes_negated (test : α → Comp ω Bool) : Probes not (negated (notedTest test)) := by
  intro a v
  refine (probes_notedTest test a v).bind ?_
  intro answer v' ⟨passed, hanswer, hnotes⟩
  exact Comp.ensures_pure.mpr ⟨passed, congrArg not hanswer, hnotes⟩

/-- Over any machine and with any test, whatever they do: which elements a filter tests and brings,
which are tested and brought while the test is passed, and which while they are dropped. The same
holds where an element is kept if it fails the test, which is what `Test.not` makes of a test, and
with it `Sequence.reject`, `Sequence.takeUntil` and `Sequence.dropUntil`. -/
theorem tested_once (m : Machine ω σ α) (test : α → Comp ω Bool) (fuel : Nat) (s : σ) :
    let below := m.noted Deed.called
    let probe := notedTest test
    (below.filter fuel probe).Accounts s (Sifted id) ∧
      (below.takeWhile probe).Accounts s (Led id) ∧
      (below.dropWhile fuel probe).Accounts ⟨s, true⟩ (Trailed id) ∧
      (below.filter fuel (negated probe)).Accounts s (Sifted not) ∧
      (below.takeWhile (negated probe)).Accounts s (Led not) ∧
      (below.dropWhile fuel (negated probe)).Accounts ⟨s, true⟩ (Trailed not) ∧
      ∀ {υ τ : Type} (cells : Machine (World υ τ) CursorId Value) (p : Test υ),
        (Test.not p).run cells = negated (p.run cells) := by
  intro below probe
  have hprobe : Probes id probe := probes_notedTest test
  have hnot : Probes not (negated probe) := probes_negated test
  exact ⟨accounts_filter m hprobe fuel s, accounts_takeWhile m hprobe s,
    accounts_dropWhile m hprobe fuel s, accounts_filter m hnot fuel s, accounts_takeWhile m hnot s,
    accounts_dropWhile m hnot fuel s, fun _ _ => rfl⟩

/-- The first element that is not dropped is the last that is tested. -/
example :
    let test : Nat → Comp Unit Bool := fun a => pure (a % 2 == 0)
    let below := (peek (pullHead : List Nat → Comp Unit _)).noted Deed.called
    tests (((below.dropWhile 5 (notedTest test)).run [.next, .next, .next]
      (.fresh ⟨.fresh [2, 4, 5, 6], true⟩)).left ⟨(), []⟩).notes =
        [(2, true), (4, true), (5, false)] := rfl

end Machine

end LazySeq
