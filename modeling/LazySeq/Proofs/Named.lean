import LazySeq.Proofs.Noted
import LazySeq.Tuple
import Mathlib.Data.List.Infix
import Mathlib.Data.List.Range

/-!
# Cursors with names

Where a stage has several cursors below it, or starts new ones as it goes, a list of calls says
nothing unless it says on which cursor each was made. So every cursor is given a name of its own when
it comes into being (`enrol`), and `Machine.named` writes down every call under the name, once
before it is made and again with its reply. The signals of all cursors go into one list.

The law of such a list is that pulls are guarded (`Guarded`): an element is asked for only where
the last that was heard of the cursor is that one is left. `Orderly` adds what is needed to keep this
up from one signal to the next.
-/

namespace LazySeq

/-! ## Signals -/

/-- What is written down about the cursors that have a name. -/
inductive Signal where
  /-- the name is given to a cursor -/
  | begins (cursor : Nat)
  /-- the cursor is called -/
  | asks (cursor : Nat) (ask : Ask)
  /-- the cursor has replied; which element it handed out is left away -/
  | replies (cursor : Nat) (reply : Reply Unit)
deriving DecidableEq

/-- The cursor that a signal is about. -/
def Signal.cursor : Signal → Nat
  | begins i => i
  | asks i _ => i
  | replies i _ => i

namespace Noted

variable {ω ε α : Type}

/-- Acts on the world below and notes nothing. -/
def below (act : Comp ω α) : Comp (Noted ω ε) α :=
  act.within world fun w v => ⟨w, v.notes⟩

/-- Makes a note. -/
def note (e : ε) : Comp (Noted ω ε) Unit :=
  modify fun v => ⟨v.world, v.notes ++ [e]⟩

variable {I : List ε → Prop} {v : Noted ω ε}

theorem upholds_below {act : Comp ω α} (hv : I v.notes) :
    (below act).Upholds (fun v => I v.notes) v fun _ v' => v'.notes = v.notes := by
  refine (Comp.upholds_within fun _ => hv).mono ?_
  rintro _ _ ⟨w, rfl⟩
  rfl

theorem upholds_note {e : ε} (hv : I (v.notes ++ [e])) :
    (note e).Upholds (fun v => I v.notes) v fun _ v' => v'.notes = v.notes ++ [e] :=
  Comp.upholds_modify.mpr ⟨hv, rfl⟩

end Noted

/-! ## Giving names -/

section Enrol

variable {ω σ : Type}

/-- Gives a name to a cursor. No cursor has it yet, as the notes have become longer with every name
that was given. -/
def enrol (s : σ) : Comp (Noted ω Signal) (Nat × σ) := do
  let v ← get
  Noted.note (.begins v.notes.length)
  return (v.notes.length, s)

/-- Gives names to the cursors of a list. -/
def enrolList : List σ → Comp (Noted ω Signal) (List (Nat × σ))
  | [] => return []
  | s :: others => return (← enrol s) :: (← enrolList others)

/-- Gives names to the cursors of a tuple. -/
def enrolTuple : Tuple σ → Comp (Noted ω Signal) (Tuple (Nat × σ))
  | .pair s t => return .pair (← enrol s) (← enrol t)
  | .cons s others => return .cons (← enrol s) (← enrolTuple others)

end Enrol

/-- The same machine over cursors with names, every call and every reply being written down. -/
def Machine.named {ω σ α : Type} (m : Machine ω σ α) :
    Machine (Noted ω Signal) (Nat × σ) α where
  hasNext c := do
    Noted.note (.asks c.1 .hasNext)
    let (more, s) ← Noted.below (m.hasNext c.2)
    Noted.note (.replies c.1 (.more more))
    return (more, c.1, s)
  next c := do
    Noted.note (.asks c.1 .next)
    let (answer, s) ← Noted.below (m.next c.2)
    Noted.note (.replies c.1 (Reply.item answer).plain)
    return (answer, c.1, s)

/-- Cursors with names, each being called as the machine of its name says. -/
def Machine.keyed {ω κ τ α : Type} (k : κ → Machine ω τ α) : Machine ω (κ × τ) α where
  hasNext c := do
    let (more, t) ← (k c.1).hasNext c.2
    return (more, c.1, t)
  next c := do
    let (answer, t) ← (k c.1).next c.2
    return (answer, c.1, t)

/-! ## Guarded pulls -/

/-- Of all signals about cursor `i`, the last is that it has an element left. -/
def Announced (signals : List Signal) (i : Nat) : Prop :=
  (signals.filter (·.cursor = i)).getLast? = some (.replies i (.more true))

/-- Whenever a cursor is asked for an element, it has just announced one and was not called
since. -/
def Guarded (signals : List Signal) : Prop :=
  ∀ before i, before ++ [.asks i .next] <+: signals → Announced before i

/-- A cursor that has announced an element, and was not called since, hands it out. -/
def Honoured (signals : List Signal) : Prop :=
  ∀ before i answer, before ++ [.asks i .next, .replies i (.item answer)] <+: signals →
    Announced before i → answer = .ok ()

/-- No cursor has failed to hand out an element it was asked for. -/
def Unfailing (signals : List Signal) : Prop :=
  ∀ i e, .replies i (.item (.error e)) ∉ signals

/-- Pulls are guarded, and the reply to a pull comes directly after it. -/
structure Orderly (signals : List Signal) : Prop where
  guarded : Guarded signals
  answered : ∀ before i answer, before ++ [.replies i (.item answer)] <+: signals →
    ∃ earlier, before = earlier ++ [.asks i .next]

variable {signals : List Signal} {i j : Nat}

theorem announced_concat_self : Announced (signals ++ [.replies i (.more true)]) i := by
  simp [Announced, Signal.cursor]

/-- A signal about another cursor takes nothing back. -/
theorem announced_concat_of_ne {e : Signal} (h : e.cursor ≠ i) :
    Announced (signals ++ [e]) i ↔ Announced signals i := by
  simp [Announced, h]

theorem orderly_nil : Orderly [] where
  guarded _ _ h := by simp at h
  answered _ _ _ h := by simp at h

/-- One signal more. -/
theorem Orderly.concat (h : Orderly signals) {e : Signal}
    (hguarded : ∀ i, e = .asks i .next → Announced signals i)
    (hanswered : ∀ i answer, e = .replies i (.item answer) →
      ∃ earlier, signals = earlier ++ [.asks i .next]) : Orderly (signals ++ [e]) where
  guarded before i hbefore := by
    rcases List.prefix_concat_iff.mp hbefore with heq | hbefore
    · obtain ⟨rfl, he⟩ := List.append_singleton_inj.mp heq
      exact hguarded i he.symm
    · exact h.guarded before i hbefore
  answered before i answer hbefore := by
    rcases List.prefix_concat_iff.mp hbefore with heq | hbefore
    · obtain ⟨rfl, he⟩ := List.append_singleton_inj.mp heq
      exact hanswered i answer he.symm
    · exact h.answered before i answer hbefore

/-- Over cursors that are as good as their word, guarded pulls do not fail. -/
theorem Orderly.unfailing (h : Orderly signals) (hhonoured : Honoured signals) :
    Unfailing signals := by
  intro i e hmem
  obtain ⟨before, after, rfl⟩ := List.append_of_mem hmem
  have hreply : before ++ [.replies i (.item (.error e))] <+:
      before ++ .replies i (.item (.error e)) :: after := ⟨after, by simp⟩
  obtain ⟨earlier, rfl⟩ := h.answered _ _ _ hreply
  have hasked : earlier ++ [.asks i .next] <+:
      earlier ++ [.asks i .next] ++ .replies i (.item (.error e)) :: after := ⟨_, rfl⟩
  have hboth : earlier ++ [.asks i .next, .replies i (.item (.error e))] <+:
      earlier ++ [.asks i .next] ++ .replies i (.item (.error e)) :: after := ⟨after, by simp⟩
  exact nomatch hhonoured _ _ _ hboth (h.guarded _ _ hasked)

/-! ## What naming and calling signal -/

section Calls

variable {ω σ α : Type} {m : Machine ω σ α} {v : Noted ω Signal}

/-- The signals that were given so far are in order. -/
abbrev InOrder (v : Noted ω Signal) : Prop := Orderly v.notes

section Whatever

variable {I : List Signal → Prop} {c : Nat × σ}

theorem upholds_enrol_of {s : σ} (hv : I v.notes)
    (hbegun : I (v.notes ++ [.begins v.notes.length])) :
    (enrol s).Upholds (fun v => I v.notes) v fun c v' =>
      c.1 = v.notes.length ∧ v'.notes = v.notes ++ [.begins v.notes.length] := by
  have hget : (get : Comp (Noted ω Signal) _).Upholds (fun v => I v.notes) v
      fun v₁ v₂ => v₁ = v ∧ v₂ = v := Comp.upholds_get.mpr ⟨hv, rfl, rfl⟩
  refine hget.bind ?_
  rintro _ _ - ⟨rfl, rfl⟩
  refine (Noted.upholds_note hbegun).bind ?_
  intro _ v' hv' hnotes
  exact Comp.upholds_pure.mpr ⟨hv', rfl, hnotes⟩

theorem upholds_named_hasNext_of (hasked : I (v.notes ++ [.asks c.1 .hasNext]))
    (hreplied : ∀ more, I (v.notes ++ [.asks c.1 .hasNext] ++ [.replies c.1 (.more more)])) :
    (m.named.hasNext c).Upholds (fun v => I v.notes) v fun r v' => r.2.1 = c.1 ∧
      v'.notes = v.notes ++ [.asks c.1 .hasNext] ++ [.replies c.1 (.more r.1)] := by
  refine (Noted.upholds_note hasked).bind ?_
  intro _ v₁ hv₁ hnotes₁
  refine (Noted.upholds_below hv₁).bind ?_
  rintro ⟨more, s⟩ v₂ hv₂ hnotes₂
  have hnotes : v₂.notes = v.notes ++ [.asks c.1 .hasNext] := hnotes₂.trans hnotes₁
  rw [← hnotes] at hreplied
  refine (Noted.upholds_note (hreplied more)).bind ?_
  intro _ v₃ hv₃ hnotes₃
  refine Comp.upholds_pure.mpr ⟨hv₃, rfl, ?_⟩
  rw [hnotes₃, hnotes]

theorem upholds_named_next_of (hasked : I (v.notes ++ [.asks c.1 .next]))
    (hreplied : ∀ answer : Except Error α,
      I (v.notes ++ [.asks c.1 .next] ++ [.replies c.1 (Reply.item answer).plain])) :
    (m.named.next c).Upholds (fun v => I v.notes) v fun r v' => r.2.1 = c.1 ∧
      v'.notes = v.notes ++ [.asks c.1 .next] ++ [.replies c.1 (Reply.item r.1).plain] := by
  refine (Noted.upholds_note hasked).bind ?_
  intro _ v₁ hv₁ hnotes₁
  refine (Noted.upholds_below hv₁).bind ?_
  rintro ⟨answer, s⟩ v₂ hv₂ hnotes₂
  have hnotes : v₂.notes = v.notes ++ [.asks c.1 .next] := hnotes₂.trans hnotes₁
  rw [← hnotes] at hreplied
  refine (Noted.upholds_note (hreplied answer)).bind ?_
  intro _ v₃ hv₃ hnotes₃
  refine Comp.upholds_pure.mpr ⟨hv₃, rfl, ?_⟩
  rw [hnotes₃, hnotes]

end Whatever

theorem upholds_enrol {s : σ} (hv : InOrder v) : (enrol s).Upholds InOrder v fun c v' =>
    c.1 = v.notes.length ∧ v'.notes = v.notes ++ [.begins v.notes.length] :=
  upholds_enrol_of hv (hv.concat (by simp) (by simp))

theorem upholds_named_hasNext {c : Nat × σ} (hv : InOrder v) :
    (m.named.hasNext c).Upholds InOrder v fun r v' => r.2.1 = c.1 ∧
      v'.notes = v.notes ++ [.asks c.1 .hasNext] ++ [.replies c.1 (.more r.1)] := by
  have hasked : Orderly (v.notes ++ [.asks c.1 .hasNext]) := hv.concat (by simp) (by simp)
  exact upholds_named_hasNext_of hasked fun more => hasked.concat (by simp) (by simp)

theorem upholds_named_next {c : Nat × σ} (hv : InOrder v) (hc : Announced v.notes c.1) :
    (m.named.next c).Upholds InOrder v fun r v' => r.2.1 = c.1 ∧
      v'.notes = v.notes ++ [.asks c.1 .next] ++ [.replies c.1 (Reply.item r.1).plain] := by
  have hasked : Orderly (v.notes ++ [.asks c.1 .next]) :=
    hv.concat (fun i hi => by cases hi; exact hc) nofun
  refine upholds_named_next_of hasked fun answer => hasked.concat nofun fun i a hi => ?_
  cases hi
  exact ⟨v.notes, rfl⟩

/-- The names given to the cursors of a list are consecutive. -/
theorem upholds_enrolList {ss : List σ} (hv : InOrder v) :
    (enrolList ss).Upholds InOrder v fun cs v' =>
      cs.map Prod.fst = List.range' v.notes.length ss.length ∧
        v'.notes.length = v.notes.length + ss.length := by
  induction ss generalizing v with
  | nil => exact Comp.upholds_pure.mpr ⟨hv, rfl, rfl⟩
  | cons s ss ih =>
    refine (upholds_enrol hv).bind ?_
    rintro c v₁ hv₁ ⟨hname, hnotes⟩
    refine (ih hv₁).bind ?_
    rintro cs v₂ hv₂ ⟨hnames, hlen⟩
    have hnext : v₁.notes.length = v.notes.length + 1 := by rw [hnotes, List.length_append]; rfl
    refine Comp.upholds_pure.mpr ⟨hv₂, ?_, ?_⟩
    · rw [List.map_cons, hname, hnames, hnext, List.length_cons, List.range'_succ]
    · rw [hlen, hnext, List.length_cons]
      omega

theorem upholds_enrolTuple {t : Tuple σ} (hv : InOrder v) :
    (enrolTuple t).Upholds InOrder v fun cs v' =>
      cs.toList.map Prod.fst = List.range' v.notes.length t.size ∧
        v'.notes.length = v.notes.length + t.size := by
  induction t generalizing v with
  | pair s t =>
    refine (upholds_enrol hv).bind ?_
    rintro c v₁ hv₁ ⟨hname₁, hnotes₁⟩
    refine (upholds_enrol hv₁).bind ?_
    rintro c' v₂ hv₂ ⟨hname₂, hnotes₂⟩
    refine Comp.upholds_pure.mpr ⟨hv₂, ?_, ?_⟩
    · simp [Tuple.toList, Tuple.size, hname₁, hname₂, hnotes₁, List.range']
    · simp [Tuple.size, hnotes₂, hnotes₁]
  | cons s others ih =>
    refine (upholds_enrol hv).bind ?_
    rintro c v₁ hv₁ ⟨hname, hnotes⟩
    refine (ih hv₁).bind ?_
    rintro cs v₂ hv₂ ⟨hnames, hlen⟩
    have hnext : v₁.notes.length = v.notes.length + 1 := by rw [hnotes, List.length_append]; rfl
    refine Comp.upholds_pure.mpr ⟨hv₂, ?_, ?_⟩
    · rw [Tuple.toList, List.map_cons, hname, hnames, hnext, Tuple.size, List.range'_succ]
    · rw [hlen, hnext, Tuple.size]
      omega

end Calls

end LazySeq
