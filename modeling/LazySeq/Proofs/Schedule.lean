import LazySeq.Machine
import LazySeq.Proofs.Outcome
import Mathlib.Control.Monad.Basic

/-!
# Schedules of calls

A schedule is the list of calls that a caller makes on one cursor. `Machine.run` makes them and
gathers the replies. The reference is the cursor over a list (`ListCursor`), which keeps nothing
but what is left: it never fails to reply, says that more is left exactly when something is, hands
out the elements in order, and is exhausted for ever after the last.
-/

namespace LazySeq

/-! ## Calls and replies -/

/-- A call of a cursor. -/
inductive Ask where
  | hasNext
  | next
deriving DecidableEq

/-- The reply to a call. -/
inductive Reply (α : Type) where
  | more (left : Bool)
  | item (answer : Except Error α)
deriving DecidableEq

/-- The reply to a call of a cursor that has nothing left. -/
def Ask.refusal {α : Type} : Ask → Reply α
  | .hasNext => .more false
  | .next => .item (.error .exhausted)

namespace Machine

variable {ω σ α : Type}

/-- Makes one call. -/
def call (m : Machine ω σ α) : Ask → σ → Comp ω (Reply α × σ)
  | .hasNext, s => do
    let (left, s) ← m.hasNext s
    return (.more left, s)
  | .next, s => do
    let (answer, s) ← m.next s
    return (.item answer, s)

/-- Makes the calls of a schedule, in order. -/
def run (m : Machine ω σ α) : List Ask → σ → Comp ω (List (Reply α) × σ)
  | [], s => return ([], s)
  | ask :: asks, s => do
    let (reply, s) ← m.call ask s
    let (replies, s) ← m.run asks s
    return (reply :: replies, s)

variable {m : Machine ω σ α} {w : ω} {s : σ}

theorem call_hasNext :
    m.call .hasNext s = (do let r ← m.hasNext s; pure (.more r.1, r.2)) := rfl

theorem call_next :
    m.call .next s = (do let r ← m.next s; pure (.item r.1, r.2)) := rfl

/-! ### One call -/

section Call

variable {ask : Ask}

/-- What is known of both kinds of calls is known of a call. -/
theorem returns_call {P : Reply α × σ → ω → Prop}
    (hhasNext : ask = .hasNext → (m.hasNext s).Returns w fun r => P (.more r.1, r.2))
    (hnext : ask = .next → (m.next s).Returns w fun r => P (.item r.1, r.2)) :
    (m.call ask s).Returns w P := by
  cases ask with
  | hasNext => exact (hhasNext rfl).bind fun _ _ h => Comp.returns_pure.mpr h
  | next => exact (hnext rfl).bind fun _ _ h => Comp.returns_pure.mpr h

theorem ensures_call {P : Reply α × σ → ω → Prop}
    (hhasNext : ask = .hasNext → (m.hasNext s).Ensures w fun r => P (.more r.1, r.2))
    (hnext : ask = .next → (m.next s).Ensures w fun r => P (.item r.1, r.2)) :
    (m.call ask s).Ensures w P := by
  cases ask with
  | hasNext => exact (hhasNext rfl).bind fun _ _ h => Comp.ensures_pure.mpr h
  | next => exact (hnext rfl).bind fun _ _ h => Comp.ensures_pure.mpr h

theorem upholds_call {I : ω → Prop} {P : Reply α × σ → ω → Prop}
    (hhasNext : ask = .hasNext → (m.hasNext s).Upholds I w fun r => P (.more r.1, r.2))
    (hnext : ask = .next → (m.next s).Upholds I w fun r => P (.item r.1, r.2)) :
    (m.call ask s).Upholds I w P := by
  cases ask with
  | hasNext => exact (hhasNext rfl).bind fun _ _ hw h => Comp.upholds_pure.mpr ⟨hw, h⟩
  | next => exact (hnext rfl).bind fun _ _ hw h => Comp.upholds_pure.mpr ⟨hw, h⟩

end Call

/-! ### Schedules -/

private theorem returns_run_from {Inv : List Ask → List (Reply α) → ω → σ → Prop}
    (hcall : ∀ ask done replies w s, Inv done replies w s →
      (m.call ask s).Returns w fun r w' => Inv (done ++ [ask]) (replies ++ [r.1]) w' r.2)
    {asks done : List Ask} {replies : List (Reply α)} (hs : Inv done replies w s) :
    (m.run asks s).Returns w fun r w' => Inv (done ++ asks) (replies ++ r.1) w' r.2 := by
  induction asks generalizing done replies w s with
  | nil => simpa [Machine.run] using hs
  | cons ask asks ih =>
    refine (hcall _ _ _ _ _ hs).bind ?_
    intro ⟨reply, s⟩ w' hs
    refine (ih hs).bind ?_
    intro ⟨rest, s⟩ w'' hs
    rw [List.append_assoc, List.append_assoc] at hs
    exact Comp.returns_pure.mpr hs

/-- What every call keeps, of the calls made so far and their replies, a schedule keeps. -/
theorem returns_run (Inv : List Ask → List (Reply α) → ω → σ → Prop)
    (hcall : ∀ ask done replies w s, Inv done replies w s →
      (m.call ask s).Returns w fun r w' => Inv (done ++ [ask]) (replies ++ [r.1]) w' r.2)
    (asks : List Ask) (hs : Inv [] [] w s) :
    (m.run asks s).Returns w fun r w' => Inv asks r.1 w' r.2 :=
  returns_run_from hcall hs

private theorem upholds_run_from {I : ω → Prop} {Inv : List (Reply α) → ω → σ → Prop}
    (hcall : ∀ ask replies w s, I w → Inv replies w s →
      (m.call ask s).Upholds I w fun r w' => Inv (replies ++ [r.1]) w' r.2)
    {asks : List Ask} {replies : List (Reply α)} (hw : I w) (hs : Inv replies w s) :
    (m.run asks s).Upholds I w fun r w' => Inv (replies ++ r.1) w' r.2 := by
  induction asks generalizing replies w s with
  | nil => simpa [Machine.run] using ⟨hw, hs⟩
  | cons ask asks ih =>
    refine (hcall _ _ _ _ hw hs).bind ?_
    intro ⟨reply, s⟩ w' hw' hs
    refine (ih hw' hs).bind ?_
    intro ⟨rest, s⟩ w'' hw'' hs
    rw [List.append_assoc] at hs
    exact Comp.upholds_pure.mpr ⟨hw'', hs⟩

/-- The same of calls that may halt: the worlds are of `I` throughout. -/
theorem upholds_run (I : ω → Prop) (Inv : List (Reply α) → ω → σ → Prop)
    (hcall : ∀ ask replies w s, I w → Inv replies w s →
      (m.call ask s).Upholds I w fun r w' => Inv (replies ++ [r.1]) w' r.2)
    (asks : List Ask) (hw : I w) (hs : Inv [] w s) :
    (m.run asks s).Upholds I w fun r w' => Inv r.1 w' r.2 :=
  upholds_run_from hcall hw hs

/-- The same of calls of which nothing is known but what they answer. -/
theorem ensures_run (Inv : List (Reply α) → ω → σ → Prop)
    (hcall : ∀ ask replies w s, Inv replies w s →
      (m.call ask s).Ensures w fun r w' => Inv (replies ++ [r.1]) w' r.2)
    (asks : List Ask) (hs : Inv [] w s) :
    (m.run asks s).Ensures w fun r w' => Inv r.1 w' r.2 :=
  (upholds_run (fun _ => True) Inv
    (fun ask replies w s _ hs => ⟨trivial, hcall ask replies w s hs⟩) asks trivial hs).ensures

/-- Two machines that act alike wherever the calls can lead act alike on a schedule. -/
theorem run_congr {k : Machine ω σ α} (Inv : ω → σ → Prop)
    (hcall : ∀ ask w s, Inv w s → m.call ask s w = k.call ask s w)
    (hkeeps : ∀ ask w s, Inv w s → (k.call ask s).Ensures w fun r w' => Inv w' r.2)
    (asks : List Ask) (hs : Inv w s) : m.run asks s w = k.run asks s w := by
  induction asks generalizing w s with
  | nil => rfl
  | cons ask asks ih =>
    refine (Comp.bind_eq_of_eq (hcall ask w s hs)).trans ((hkeeps ask w s hs).bind_congr ?_)
    intro ⟨reply, s⟩ w' hs
    exact Comp.bind_eq_of_eq (ih hs)

/-- A cursor that refuses and stays where it is refuses for ever. -/
theorem run_of_refuses (hhasNext : m.hasNext s = pure (false, s))
    (hnext : m.next s = pure (.error .exhausted, s)) (later : List Ask) :
    m.run later s = pure (later.map Ask.refusal, s) := by
  induction later with
  | nil => rfl
  | cons ask later ih =>
    rw [Machine.run]
    cases ask with
    | hasNext => simp only [call_hasNext, hhasNext, pure_bind, ih, List.map_cons, Ask.refusal]
    | next => simp only [call_next, hnext, pure_bind, ih, List.map_cons, Ask.refusal]

end Machine

/-! ## The cursor over a list -/

namespace ListCursor

variable {α : Type}

/-- The reply of a cursor that has `xs` left, and what it has left afterwards. -/
def call : Ask → List α → Reply α × List α
  | .hasNext, xs => (.more (!xs.isEmpty), xs)
  | .next, [] => (.item (.error .exhausted), [])
  | .next, x :: xs => (.item (.ok x), xs)

/-- The replies to a schedule. -/
def run : List Ask → List α → List (Reply α)
  | [], _ => []
  | ask :: asks, xs => (call ask xs).1 :: run asks (call ask xs).2

/-- What is left after a schedule. -/
def after : List Ask → List α → List α
  | [], xs => xs
  | ask :: asks, xs => after asks (call ask xs).2

end ListCursor

namespace Reply

variable {α : Type}

/-- The reply says that nothing is left, or it is an error. -/
def Refuses : Reply α → Prop
  | .more left => left = false
  | .item answer => ∃ e, answer = .error e

/-- The elements that were handed out, in order. -/
def items (replies : List (Reply α)) : List α :=
  replies.filterMap fun
    | .item (.ok a) => some a
    | _ => none

/-- The reply without the element. -/
def plain : Reply α → Reply Unit
  | more left => more left
  | item answer => item (answer.map fun _ => ())

/-- The reply with another element in place of the one handed out. -/
def map {β : Type} (f : α → β) : Reply α → Reply β
  | more left => more left
  | item answer => item (answer.map f)

/-- How often an element was asked for, with or without success. -/
def pulls (replies : List (Reply α)) : Nat :=
  replies.countP fun
    | .item _ => true
    | .more _ => false

@[simp]
theorem map_id : map (id : α → α) = id := by
  funext reply
  cases reply with
  | more left => rfl
  | item answer => cases answer <;> rfl

theorem map_comp_map {β γ : Type} (g : β → γ) (f : α → β) :
    (map g : Reply β → Reply γ) ∘ map f = map (g ∘ f) := by
  funext reply
  cases reply with
  | more left => rfl
  | item answer => cases answer <;> rfl

@[simp]
theorem items_nil : items ([] : List (Reply α)) = [] := rfl

@[simp]
theorem items_append (xs ys : List (Reply α)) : items (xs ++ ys) = items xs ++ items ys :=
  List.filterMap_append

@[simp]
theorem pulls_append (xs ys : List (Reply α)) : pulls (xs ++ ys) = pulls xs + pulls ys :=
  List.countP_append

@[simp]
theorem items_more (left : Bool) : items [(more left : Reply α)] = [] := rfl

@[simp]
theorem items_item (answer : Except Error α) :
    items [item answer] = answer.toOption.toList := by
  cases answer <;> rfl

@[simp]
theorem pulls_more (left : Bool) : pulls [(more left : Reply α)] = 0 := rfl

@[simp]
theorem pulls_item (answer : Except Error α) : pulls [item answer] = 1 := rfl

end Reply

namespace ListCursor

variable {α : Type}

/-- A call is refused when nothing is left. -/
theorem refuses_call_iff {ask : Ask} {xs : List α} : (call ask xs).1.Refuses ↔ xs = [] := by
  cases ask <;> cases xs <;> simp [call, Reply.Refuses]

/-- What was left before a call is what it hands out and what is left after it. -/
theorem items_call_append (ask : Ask) (xs : List α) :
    Reply.items [(call ask xs).1] ++ (call ask xs).2 = xs := by
  cases ask with
  | hasNext => rfl
  | next => cases xs <;> rfl

/-- What is handed out depends on how often the cursor was asked for an element, and not on where
it was asked whether more is left. -/
theorem items_run (asks : List Ask) (xs : List α) :
    Reply.items (run asks xs) = xs.take (asks.count .next) := by
  induction asks generalizing xs with
  | nil => simp [run, Reply.items]
  | cons ask asks ih =>
    cases ask with
    | hasNext => simpa [run, call, Reply.items, List.count_cons] using ih xs
    | next =>
      cases xs with
      | nil => simpa [run, call, Reply.items, List.count_cons] using ih []
      | cons x xs => simpa [run, call, Reply.items, List.count_cons] using ih xs

theorem run_concat (asks : List Ask) (ask : Ask) (xs : List α) :
    run (asks ++ [ask]) xs = run asks xs ++ [(call ask (after asks xs)).1] := by
  induction asks generalizing xs with
  | nil => rfl
  | cons first asks ih => exact congrArg _ (ih _)

theorem after_concat (asks : List Ask) (ask : Ask) (xs : List α) :
    after (asks ++ [ask]) xs = (call ask (after asks xs)).2 := by
  induction asks generalizing xs with
  | nil => rfl
  | cons first asks ih => exact ih _

theorem after_eq_drop (asks : List Ask) (xs : List α) :
    after asks xs = xs.drop (asks.count .next) := by
  induction asks generalizing xs with
  | nil => simp [after]
  | cons ask asks ih =>
    cases ask with
    | hasNext => simpa [after, call, List.count_cons] using ih xs
    | next =>
      cases xs with
      | nil => simpa [after, call, List.count_cons] using ih []
      | cons x xs => simpa [after, call, List.count_cons] using ih xs

/-- A call was refused only if nothing was left. -/
theorem after_eq_nil_of_refuses {asks : List Ask} {xs : List α}
    (h : ∃ reply ∈ run asks xs, reply.Refuses) : after asks xs = [] := by
  induction asks generalizing xs with
  | nil => simp [run] at h
  | cons ask asks ih =>
    obtain ⟨reply, hmem, hrefuses⟩ := h
    rw [run] at hmem
    rcases List.mem_cons.mp hmem with rfl | hmem
    · -- nothing was left before this call, and so nothing is after the others
      rw [refuses_call_iff.mp hrefuses, after_eq_drop, List.drop_nil]
    · exact ih ⟨reply, hmem, hrefuses⟩

/-- A call was refused only if everything was handed out. -/
theorem items_run_of_refuses {asks : List Ask} {xs : List α}
    (h : ∃ reply ∈ run asks xs, reply.Refuses) : Reply.items (run asks xs) = xs := by
  have hafter := after_eq_nil_of_refuses h
  rw [after_eq_drop] at hafter
  have hsplit := List.take_append_drop (asks.count .next) xs
  rw [hafter, List.append_nil] at hsplit
  rw [items_run, hsplit]

end ListCursor

/-! ## Seen as other cursors -/

/-- Seen through `f`, and their elements through `g`, the cursors of `k` do and say what those of
`m` do and say. -/
structure Machine.SeenAs {ω σ τ α β : Type} (k : Machine ω τ β) (f : τ → σ) (g : β → α)
    (m : Machine ω σ α) : Prop where
  hasNext (t : τ) : (do let r ← k.hasNext t; pure (r.1, f r.2)) = m.hasNext (f t)
  next (t : τ) : (do let r ← k.next t; pure (r.1.map g, f r.2)) = m.next (f t)

/-- So do and say schedules. -/
theorem Machine.SeenAs.run {ω σ τ α β : Type} {k : Machine ω τ β} {f : τ → σ} {g : β → α}
    {m : Machine ω σ α} (h : k.SeenAs f g m) (asks : List Ask) (t : τ) :
    (do let r ← k.run asks t; pure (r.1.map (Reply.map g), f r.2)) = m.run asks (f t) := by
  induction asks generalizing t with
  | nil => rfl
  | cons ask asks ih =>
    cases ask with
    | hasNext =>
      simp only [Machine.run, Machine.call_hasNext, ← h.hasNext, ← ih, bind_assoc, pure_bind,
        List.map_cons, Reply.map]
    | next =>
      simp only [Machine.run, Machine.call_next, ← h.next, ← ih, bind_assoc, pure_bind,
        List.map_cons, Reply.map]

theorem Machine.SeenAs.trans {ω σ τ ρ α β γ : Type} {k : Machine ω τ β} {f : τ → σ} {g : β → α}
    {m : Machine ω σ α} {f' : σ → ρ} {g' : α → γ} {n : Machine ω ρ γ} (h : k.SeenAs f g m)
    (h' : m.SeenAs f' g' n) : k.SeenAs (fun t => f' (f t)) (fun b => g' (g b)) n where
  hasNext t := by
    rw [← h'.hasNext, ← h.hasNext, bind_assoc]
    simp only [pure_bind]
  next t := by
    rw [← h'.next, ← h.next, bind_assoc]
    refine bind_congr ?_
    rintro ⟨answer, t⟩
    cases answer <;> rfl

/-- The replies to a schedule, without the state that the cursor is left in. -/
def Machine.replies {ω σ α : Type} (m : Machine ω σ α) (asks : List Ask) (s : σ) :
    Comp ω (List (Reply α)) := do
  let (replies, _) ← m.run asks s
  return replies

theorem Machine.SeenAs.replies {ω σ τ α β : Type} {k : Machine ω τ β} {f : τ → σ} {g : β → α}
    {m : Machine ω σ α} (h : k.SeenAs f g m) (asks : List Ask) (t : τ) :
    (do return (← k.replies asks t).map (Reply.map g)) = m.replies asks (f t) := by
  simp only [Machine.replies, ← h.run asks t, bind_assoc, pure_bind]

end LazySeq
