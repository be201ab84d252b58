import LazySeq.Proofs.Frame
import Mathlib.Data.Seq.Basic

/-!
# The cursor over a finite or endless sequence

The reference for what may go on for ever is a cursor that keeps a sequence, finite or endless
(`SeqCursor`). Over a finite one it is the cursor over a list. `Frame.Produces` is the law for
cursors that account for what they have left by such a sequence, and own what they act on.
-/

namespace LazySeq

variable {ω σ α : Type}

/-! ## The reference -/

namespace SeqCursor

/-- What is handed out where `xs` is left. -/
def answer (xs : Stream'.Seq α) : Except Error α :=
  match xs.head with
  | some x => .ok x
  | none => .error .exhausted

/-- The reply of a cursor that has `xs` left, and what it has left afterwards. -/
def call : Ask → Stream'.Seq α → Reply α × Stream'.Seq α
  | .hasNext, xs => (.more xs.head.isSome, xs)
  | .next, xs => (.item (answer xs), xs.tail)

/-- The replies to a schedule. -/
def run : List Ask → Stream'.Seq α → List (Reply α)
  | [], _ => []
  | ask :: asks, xs => (call ask xs).1 :: run asks (call ask xs).2

/-- What is left after a schedule. -/
def after : List Ask → Stream'.Seq α → Stream'.Seq α
  | [], xs => xs
  | ask :: asks, xs => after asks (call ask xs).2

@[simp]
theorem answer_nil : answer (.nil : Stream'.Seq α) = .error .exhausted := rfl

@[simp]
theorem answer_cons (x : α) (xs : Stream'.Seq α) : answer (xs.cons x) = .ok x := rfl

/-- The cursor itself: a machine that keeps the sequence, and acts on nothing. -/
def machine : Machine ω (Stream'.Seq α) α where
  hasNext xs := pure (xs.head.isSome, xs)
  next xs := pure (answer xs, xs.tail)

/-- A call is refused when nothing is left. -/
theorem refuses_call_iff {ask : Ask} {xs : Stream'.Seq α} :
    (call ask xs).1.Refuses ↔ xs = .nil := by
  cases xs using Stream'.Seq.recOn <;> cases ask <;> simp [call, Reply.Refuses]

theorem run_concat (asks : List Ask) (ask : Ask) (xs : Stream'.Seq α) :
    run (asks ++ [ask]) xs = run asks xs ++ [(call ask (after asks xs)).1] := by
  induction asks generalizing xs with
  | nil => rfl
  | cons first asks ih => exact congrArg _ (ih _)

theorem after_concat (asks : List Ask) (ask : Ask) (xs : Stream'.Seq α) :
    after (asks ++ [ask]) xs = (call ask (after asks xs)).2 := by
  induction asks generalizing xs with
  | nil => rfl
  | cons first asks ih => exact ih _

/-- Where nothing is left, nothing comes to be left. -/
theorem after_nil (asks : List Ask) : after asks (.nil : Stream'.Seq α) = .nil := by
  induction asks with
  | nil => rfl
  | cons ask asks ih => cases ask <;> exact ih

/-- A call is refused only where nothing is left when all calls are made. -/
theorem after_eq_nil_of_refuses {asks : List Ask} {xs : Stream'.Seq α}
    (h : ∃ reply ∈ run asks xs, reply.Refuses) : after asks xs = .nil := by
  induction asks generalizing xs with
  | nil => simp [run] at h
  | cons ask asks ih =>
    obtain ⟨reply, hreply, hrefuses⟩ := h
    rcases List.mem_cons.mp hreply with rfl | hreply
    · rw [refuses_call_iff] at hrefuses
      rw [hrefuses]
      exact after_nil (ask :: asks)
    · exact ih ⟨reply, hreply, hrefuses⟩

/-- Over a finite sequence it is the cursor over the list. -/
theorem run_ofList (asks : List Ask) (xs : List α) :
    run asks (.ofList xs) = ListCursor.run asks xs := by
  induction asks generalizing xs with
  | nil => rfl
  | cons ask asks ih =>
    cases ask <;> cases xs <;> simp [run, call, ListCursor.run, ListCursor.call, ← ih]

end SeqCursor

/-! ## Cursors over a sequence -/

namespace Frame

/-- `Frame.Supplies` for sequences that may go on for ever: cursors account for what they have left,
and in doing so act on what they own. -/
structure Produces {fr : Frame ω} (m : Machine ω σ α) (U : Stream'.Seq α → σ → fr.Assertion) :
    Prop where
  keeps (xs : Stream'.Seq α) (s : σ) : fr.Keeps (U xs s)
  hasNext {F : fr.Region} {xs : Stream'.Seq α} {w : ω} {s : σ} : U xs s F w →
    (m.hasNext s).Returns w fun r w' => r.1 = xs.head.isSome ∧ Reaches (U xs r.2) F w w'
  next_cons {F : fr.Region} {a : α} {xs : Stream'.Seq α} {w : ω} {s : σ} : U (.cons a xs) s F w →
    (m.next s).Returns w fun r w' => r.1 = .ok a ∧ Reaches (U xs r.2) F w w'
  next_nil {F : fr.Region} {w : ω} {s : σ} : U .nil s F w →
    (m.next s).Returns w fun r w' => r.1 = .error .exhausted ∧ Reaches (U .nil r.2) F w w'

/-- The cursor that keeps its sequence owns nothing and leaves the world alone. -/
theorem produces_machine (fr : Frame ω) :
    fr.Produces (SeqCursor.machine : Machine ω (Stream'.Seq α) α)
      fun xs s F _ => F = Region.none ∧ s = xs where
  keeps xs s := keeps_none
  hasNext := by
    rintro F xs w s ⟨rfl, rfl⟩
    exact Comp.returns_pure.mpr ⟨rfl, .refl ⟨rfl, rfl⟩⟩
  next_cons := by
    rintro F a xs w s ⟨rfl, rfl⟩
    exact Comp.returns_pure.mpr ⟨rfl, .refl ⟨rfl, rfl⟩⟩
  next_nil := by
    rintro F w s ⟨rfl, rfl⟩
    exact Comp.returns_pure.mpr ⟨rfl, .refl ⟨rfl, rfl⟩⟩

end Frame

end LazySeq
