import LazySeq.Proofs.Named
import LazySeq.Sequence.Basic
import LazySeq.Stage.Join
import LazySeq.Stage.Transform

/-!
# One cursor is through before the next is called

In which order `Machine.chain` and `Machine.flatten` call the cursors below them, whatever those do.
A chain calls its first cursor until that says that nothing is left, and from then on the second
(`Relayed`). For a flattened machine the law is about every call after the ones before it
(`Joining`): the outer cursor is asked only when the inner cursors it has handed out have all said
that nothing is left, and of these only the last is called, as long as it has not said so. What
either hands out is what it was handed, in the order of the calls.
-/

namespace LazySeq

variable {ω σ τ α : Type}

/-! ## Two in a row -/

/-- A call below a chain, with its reply. -/
inductive RelayCall (α : Type) where
  | first (reply : Reply α)
  | second (reply : Reply α)

/-- The calls below a chain that has handed out `given`. -/
structure Relayed (firsts seconds : List (Reply α)) (calls : List (RelayCall α))
    (given : List α) : Prop where
  /-- all calls of the first cursor come before all calls of the second -/
  calls_eq : calls = firsts.map .first ++ seconds.map .second
  /-- once the first has said that nothing is left it is never called again -/
  leaves {before after : List (Reply α)} : firsts = before ++ .more false :: after → after = []
  /-- the second is called when the first has said so, and not before -/
  moves : seconds ≠ [] ↔ .more false ∈ firsts
  given_eq : given = Reply.items firsts ++ Reply.items seconds

section Chain

variable {m : Machine ω σ α} {k : Machine ω τ α} {v : Noted ω (RelayCall α)} {r : Relay σ τ}
variable {calls : List (RelayCall α)} {given : List α}

/-- What a chain has done so far, from where it stands. -/
def RelayAt (calls : List (RelayCall α)) (given : List α) : Relay σ τ → Prop
  | .first _ _ => ∃ firsts : List (Reply α), calls = firsts.map .first ∧ .more false ∉ firsts ∧
    given = Reply.items firsts
  | .second _ => ∃ firsts seconds : List (Reply α), Reply.more false ∉ firsts ∧ seconds ≠ [] ∧
    calls = (firsts ++ [Reply.more false]).map .first ++ seconds.map .second ∧
    given = Reply.items firsts ++ Reply.items seconds

theorem RelayAt.relayed (h : RelayAt calls given r) :
    ∃ firsts seconds, Relayed firsts seconds calls given := by
  cases r with
  | first s t =>
    obtain ⟨firsts, hcalls, hmore, hgiven⟩ := h
    refine ⟨firsts, [], by simpa using hcalls, ?_, by simpa using hmore, by simpa using hgiven⟩
    rintro before after rfl
    simp at hmore
  | second t =>
    obtain ⟨firsts, seconds, hmore, hseconds, hcalls, hgiven⟩ := h
    refine ⟨firsts ++ [.more false], seconds, hcalls, ?_, by simpa using hseconds,
      by simpa using hgiven⟩
    intro before after heq
    rcases eq_nil_or_of_concat_eq heq with hafter | ⟨init, rfl⟩
    · exact hafter
    · simp at hmore

/-! ### One call more -/

section Step

variable {s : σ} {t : τ}

theorem RelayAt.first_call (h : RelayAt calls given (.first s t)) (reply : Reply α)
    (hreply : reply ≠ .more false) (s' : σ) :
    RelayAt (calls ++ [.first reply]) (given ++ Reply.items [reply]) (.first s' t) := by
  obtain ⟨firsts, hcalls, hmore, hgiven⟩ := h
  exact ⟨firsts ++ [reply], by simp [hcalls], by simp [hmore, hreply.symm], by simp [hgiven]⟩

theorem RelayAt.second_call (h : RelayAt calls given (.second t : Relay σ τ)) (reply : Reply α)
    (t' : τ) :
    RelayAt (calls ++ [.second reply]) (given ++ Reply.items [reply]) (.second t' : Relay σ τ) := by
  obtain ⟨firsts, seconds, hmore, -, hcalls, hgiven⟩ := h
  exact ⟨firsts, seconds ++ [reply], hmore, by simp, by simp [hcalls], by simp [hgiven]⟩

/-- The first cursor says that nothing is left, and the second is called at once. -/
theorem RelayAt.switch (h : RelayAt calls given (.first s t)) (reply : Reply α) (t' : τ) :
    RelayAt (calls ++ [.first (.more false)] ++ [.second reply]) (given ++ Reply.items [reply])
      (.second t' : Relay σ τ) := by
  obtain ⟨firsts, hcalls, hmore, hgiven⟩ := h
  exact ⟨firsts, [reply], hmore, by simp, by simp [hcalls], by rw [hgiven]⟩

end Step

/-- A question is one for the first cursor, and one for the second if that is the end of the
first. -/
theorem RelayAt.chainHasNext (h : RelayAt v.notes given r) :
    (Machine.chainHasNext (m.noted RelayCall.first) (k.noted RelayCall.second) r).Ensures v
      fun r' v' => RelayAt v'.notes given r'.2 := by
  cases r with
  | first s t =>
    refine (Comp.ensures_noting _ _ _).bind ?_
    rintro ⟨more, s'⟩ v₁ hnotes
    cases more with
    | true =>
      have h' := h.first_call (.more true) nofun s'
      rw [← hnotes] at h'
      exact Comp.ensures_pure.mpr (by simpa using h')
    | false =>
      refine (Comp.ensures_noting _ _ _).bind ?_
      rintro ⟨more, t'⟩ v₂ hnotes'
      have h' := h.switch (.more more) t'
      rw [← hnotes, ← hnotes'] at h'
      exact Comp.ensures_pure.mpr (by simpa using h')
  | second t =>
    refine (Comp.ensures_noting _ _ _).bind ?_
    rintro ⟨more, t'⟩ v₁ hnotes
    have h' := h.second_call (.more more) t'
    rw [← hnotes] at h'
    exact Comp.ensures_pure.mpr (by simpa using h')

theorem RelayAt.call {replies : List (Reply α)} (h : RelayAt v.notes (Reply.items replies) r)
    (ask : Ask) :
    (((m.noted RelayCall.first).chain (k.noted RelayCall.second)).call ask r).Ensures v
      fun r' v' => RelayAt v'.notes (Reply.items (replies ++ [r'.1])) r'.2 := by
  refine Machine.ensures_call ?_ ?_
  · intro _
    refine h.chainHasNext.mono ?_
    rintro ⟨more, r⟩ v' h
    simpa using h
  · intro _
    refine h.chainHasNext.bind ?_
    rintro ⟨more, r⟩ v₁ h
    cases r with
    | first s t =>
      refine (Comp.ensures_noting _ _ _).bind ?_
      rintro ⟨answer, s'⟩ v₂ hnotes
      have h' := h.first_call (.item answer) nofun s'
      rw [← hnotes, ← Reply.items_append] at h'
      exact Comp.ensures_pure.mpr h'
    | second t =>
      refine (Comp.ensures_noting _ _ _).bind ?_
      rintro ⟨answer, t'⟩ v₂ hnotes
      have h' := h.second_call (.item answer) t'
      rw [← hnotes, ← Reply.items_append] at h'
      exact Comp.ensures_pure.mpr h'

theorem RelayAt.run {s : σ} {t : τ} {w : ω} (asks : List Ask) :
    (((m.noted RelayCall.first).chain (k.noted RelayCall.second)).run asks
      (.first s t)).Ensures ⟨w, []⟩ fun r v => RelayAt v.notes (Reply.items r.1) r.2 :=
  Machine.ensures_run (fun replies (v : Noted ω (RelayCall α)) r =>
      RelayAt v.notes (Reply.items replies) r)
    (fun ask _ _ _ h => h.call ask) asks ⟨[], rfl, List.not_mem_nil, rfl⟩

end Chain

/-! ## Any number in a row -/

/-- A call below a flattened machine, with its reply. The inner cursors have numbers, in the order
in which the outer cursor hands them out. -/
inductive JoinCall (α : Type) where
  | outer (reply : Reply Nat)
  | inner (k : Nat) (reply : Reply α)

namespace JoinCall

/-- How many inner cursors were handed out. -/
def handed (calls : List (JoinCall α)) : Nat :=
  calls.countP fun
    | outer (.item (.ok _)) => true
    | _ => false

/-- What the inner cursors have handed out, in the order of the calls. -/
def items (calls : List (JoinCall α)) : List α :=
  calls.flatMap fun
    | inner _ reply => Reply.items [reply]
    | outer _ => []

/-- Cursor `k` has said that nothing is left. -/
def Spent (calls : List (JoinCall α)) (k : Nat) : Prop :=
  .inner k (.more false) ∈ calls

/-- After this call the inner cursor that was current, if any, is given up. -/
def Frees : JoinCall α → Prop
  | outer reply => reply.Refuses
  | inner _ reply => reply = .more false

/-- No inner cursor is current: all have said that nothing is left, and the last call, if there was
one, gave the current one up or brought none. -/
structure Free (calls : List (JoinCall α)) : Prop where
  spent {k : Nat} : k < handed calls → Spent calls k
  last : ∀ call ∈ calls.getLast?, call.Frees

/-- The outer cursor has just said that it can hand one out. -/
structure Offered (calls : List (JoinCall α)) : Prop where
  spent {k : Nat} : k < handed calls → Spent calls k
  last : calls.getLast? = some (.outer (.more true))

/-- Cursor `k` is current: it was handed out last and may have something left, and all before it
have said that nothing is left. -/
structure Held (calls : List (JoinCall α)) (k : Nat) : Prop where
  handed_eq : handed calls = k + 1
  not_spent : ¬ Spent calls k
  spent {j : Nat} : j < k → Spent calls j

/-- The calls that may follow. The outer cursor is asked if no inner cursor is current, and hands
one out directly after it has said that it can; an inner cursor is called if it is current. -/
def Joining (before : List (JoinCall α)) : JoinCall α → Prop
  | outer (.more _) => Free before
  | outer (.item answer) => Offered before ∧ ∀ k, answer = .ok k → k = handed before
  | inner k _ => Held before k

end JoinCall

/-- The calls below a flattened machine that has handed out `given`. -/
structure Joined (calls : List (JoinCall α)) (given : List α) : Prop where
  /-- every call may follow the ones before it -/
  obeys : Obeys JoinCall.Joining calls
  /-- no inner cursor is passed over -/
  asked (k : Nat) : k < JoinCall.handed calls → ∃ left, .inner k (.more left) ∈ calls
  given_eq : given = JoinCall.items calls

namespace Machine

/-- The same machine, with a note of every call, handing out every cursor with its number. -/
def numbered (m : Machine ω σ τ) : Machine (Noted ω (JoinCall α)) σ (Nat × τ) where
  hasNext s := (m.hasNext s).noting fun r => .outer (.more r.1)
  next s := do
    let k := JoinCall.handed (← get).notes
    let (answer, s) ← (m.next s).noting fun r => .outer (.item (r.1.map fun _ => k))
    return (answer.map (k, ·), s)

/-- The inner cursors, with a note of every call. -/
def inners (k : Machine ω τ α) : Machine (Noted ω (JoinCall α)) (Nat × τ) α :=
  .keyed fun i => k.noted (.inner i)

end Machine

namespace JoinCall

variable {calls : List (JoinCall α)} {k : Nat}

/-! ### One call more -/

@[simp]
theorem handed_append (calls calls' : List (JoinCall α)) :
    handed (calls ++ calls') = handed calls + handed calls' :=
  List.countP_append

@[simp]
theorem handed_more (left : Bool) : handed [(outer (.more left) : JoinCall α)] = 0 := rfl

@[simp]
theorem handed_ok (k : Nat) : handed [(outer (.item (.ok k)) : JoinCall α)] = 1 := rfl

@[simp]
theorem handed_error (e : Error) : handed [(outer (.item (.error e)) : JoinCall α)] = 0 := rfl

@[simp]
theorem handed_inner (k : Nat) (reply : Reply α) : handed [inner k reply] = 0 := rfl

@[simp]
theorem items_append (calls calls' : List (JoinCall α)) :
    items (calls ++ calls') = items calls ++ items calls' :=
  List.flatMap_append

@[simp]
theorem items_outer (reply : Reply Nat) : items [(outer reply : JoinCall α)] = [] := rfl

@[simp]
theorem items_inner (k : Nat) (reply : Reply α) : items [inner k reply] = Reply.items [reply] :=
  List.append_nil _

theorem spent_concat {call : JoinCall α} :
    Spent (calls ++ [call]) k ↔ Spent calls k ∨ call = .inner k (.more false) := by
  simp [Spent, eq_comm]

theorem Spent.concat (h : Spent calls k) (call : JoinCall α) : Spent (calls ++ [call]) k :=
  List.mem_append_left _ h

/-- Where the outer cursor has nothing to hand out, none becomes current. -/
theorem Free.outer_more (h : Free calls) : Free (calls ++ [.outer (.more false)]) where
  spent {k} hk := (h.spent (by simpa using hk)).concat _
  last := by simp [Frees, Reply.Refuses]

theorem Free.offered (h : Free calls) : Offered (calls ++ [.outer (.more true)]) where
  spent {k} hk := (h.spent (by simpa using hk)).concat _
  last := by simp

theorem Offered.outer_error (h : Offered calls) (e : Error) :
    Free (calls ++ [.outer (.item (.error e))]) where
  spent {k} hk := (h.spent (by simpa using hk)).concat _
  last := by simp [Frees, Reply.Refuses]

/-- Only cursors that were handed out are called. -/
theorem lt_handed (h : Obeys Joining calls) {reply : Reply α} (hmem : .inner k reply ∈ calls) :
    k < handed calls := by
  obtain ⟨before, after, rfl, hheld⟩ := h.of_mem hmem
  have hk : handed before = k + 1 := Held.handed_eq hheld
  rw [handed_append]
  omega

theorem Offered.outer_ok (h : Offered calls) (hobeys : Obeys Joining calls) :
    Held (calls ++ [.outer (.item (.ok (handed calls)))]) (handed calls) where
  handed_eq := by simp
  not_spent hspent := by
    -- its number is new, so there was no call of it before
    have hmem : Spent calls (handed calls) := by simpa [spent_concat] using hspent
    exact Nat.lt_irrefl _ (lt_handed hobeys hmem)
  spent hj := (h.spent hj).concat _

/-- A call of the current cursor leaves it current, unless it says that nothing is left. -/
theorem Held.inner (h : Held calls k) {reply : Reply α} (hreply : reply ≠ .more false) :
    Held (calls ++ [.inner k reply]) k where
  handed_eq := by simpa using h.handed_eq
  not_spent hspent := by
    rcases spent_concat.mp hspent with hspent | heq
    · exact h.not_spent hspent
    · exact hreply (JoinCall.inner.inj heq).2
  spent hj := (h.spent hj).concat _

theorem Held.inner_more (h : Held calls k) : Free (calls ++ [.inner k (.more false)]) where
  spent {j} hj := by
    rw [handed_append, handed_inner, h.handed_eq] at hj
    rcases Nat.lt_succ_iff_lt_or_eq.mp hj with hlt | rfl
    · exact (h.spent hlt).concat _
    · exact spent_concat.mpr (.inr rfl)
  last := by simp [Frees]

end JoinCall

/-! ### All schedules -/

open JoinCall

/-- What a flattened machine has done so far, from the inner cursor that is current. -/
structure JoinAt (calls : List (JoinCall α)) (given : List α) (current : Option (Nat × τ)) :
    Prop where
  obeys : Obeys Joining calls
  given_eq : given = items calls
  stands : match current with
    | none => Free calls
    | some c => Held calls c.1

/-- The same between two calls: the current cursor was asked. -/
structure JoinAsked (calls : List (JoinCall α)) (given : List α) (current : Option (Nat × τ)) :
    Prop extends JoinAt calls given current where
  asked : ∀ c ∈ current, ∃ left, .inner c.1 (.more left) ∈ calls

theorem JoinAsked.joined {calls : List (JoinCall α)} {given : List α}
    {current : Option (Nat × τ)} (h : JoinAsked calls given current) : Joined calls given where
  obeys := h.obeys
  given_eq := h.given_eq
  asked k hk := by
    have hstands := h.stands
    cases current with
    | none => exact ⟨false, hstands.spent hk⟩
    | some c =>
      have hheld : Held calls c.1 := hstands
      rw [hheld.handed_eq] at hk
      rcases Nat.lt_succ_iff_lt_or_eq.mp hk with hlt | rfl
      · exact ⟨false, hheld.spent hlt⟩
      · exact h.asked c rfl

section Flatten

variable {m : Machine ω σ τ} {k : Machine ω τ α} {v : Noted ω (JoinCall α)} {given : List α}

theorem ensures_numbered_next (s : σ) :
    (m.numbered.next s).Ensures v fun r v' =>
      v'.notes = v.notes ++ [.outer (.item (r.1.map fun _ => handed v.notes))] ∧
        ∀ c, r.1 = .ok c → c.1 = handed v.notes := by
  refine Comp.ensures_bind.mpr (Comp.ensures_get.mpr ?_)
  refine (Comp.ensures_noting _ _ _).bind ?_
  rintro ⟨answer, s⟩ v' hnotes
  refine Comp.ensures_pure.mpr ?_
  cases answer with
  | error e => exact ⟨hnotes, nofun⟩
  | ok t =>
    refine ⟨hnotes, ?_⟩
    rintro _ ⟨⟩
    rfl

theorem ensures_inners_hasNext (c : Nat × τ) :
    ((Machine.inners k).hasNext c).Ensures v fun r v' =>
      r.2.1 = c.1 ∧ v'.notes = v.notes ++ [.inner c.1 (.more r.1)] :=
  (Comp.ensures_noting _ _ _).bind fun _ _ hnotes => Comp.ensures_pure.mpr ⟨rfl, hnotes⟩

theorem ensures_inners_next (c : Nat × τ) :
    ((Machine.inners k).next c).Ensures v fun r v' =>
      r.2.1 = c.1 ∧ v'.notes = v.notes ++ [.inner c.1 (.item r.1)] :=
  (Comp.ensures_noting _ _ _).bind fun _ _ hnotes => Comp.ensures_pure.mpr ⟨rfl, hnotes⟩

/-- The current cursor, if there is one, is asked; it stays current or none is. -/
theorem JoinAt.currentHasNext {current : Option (Nat × τ)} (h : JoinAt v.notes given current) :
    ((Machine.inners k).currentHasNext current).Ensures v fun r v' =>
      if r.1 then JoinAsked v'.notes given r.2
      else JoinAt v'.notes given (none : Option (Nat × τ)) := by
  obtain ⟨hobeys, hgiven, hstands⟩ := h
  cases current with
  | none => exact Comp.ensures_pure.mpr ⟨hobeys, hgiven, hstands⟩
  | some c =>
    have hheld : Held v.notes c.1 := hstands
    refine (ensures_inners_hasNext c).bind ?_
    rintro ⟨more, i, t⟩ v' ⟨hname, hnotes⟩
    obtain rfl : i = c.1 := hname
    have hobeys' : Obeys Joining v'.notes := by
      rw [hnotes]
      exact hobeys.concat hheld
    have hgiven' : given = items v'.notes := by simpa [hnotes] using hgiven
    cases more with
    | true =>
      refine Comp.ensures_pure.mpr ⟨⟨hobeys', hgiven', ?_⟩, ?_⟩
      · show Held v'.notes c.1
        rw [hnotes]
        exact hheld.inner nofun
      · rintro _ ⟨⟩
        exact ⟨true, by simp [hnotes]⟩
    | false =>
      refine Comp.ensures_pure.mpr ⟨hobeys', hgiven', ?_⟩
      show Free v'.notes
      rw [hnotes]
      exact hheld.inner_more

/-- The outer cursor hands out the next one, or fails to. -/
theorem JoinAt.outer_next (hobeys : Obeys Joining v.notes) (hgiven : given = items v.notes)
    (hoffered : Offered v.notes) (s : σ) :
    (m.numbered.next s).Ensures v fun r v' => JoinAt v'.notes given r.1.toOption := by
  refine (ensures_numbered_next s).mono ?_
  rintro ⟨answer, s⟩ v' ⟨hnotes, hnumber⟩
  refine ⟨?_, by simpa [hnotes] using hgiven, ?_⟩
  · rw [hnotes]
    refine hobeys.concat ⟨hoffered, ?_⟩
    intro k hk
    cases answer with
    | error e => cases hk
    | ok c => exact (Except.ok.inj hk).symm
  · cases answer with
    | error e =>
      show Free v'.notes
      rw [hnotes]
      exact hoffered.outer_error e
    | ok c =>
      show Held v'.notes c.1
      rw [hnumber c rfl, hnotes]
      exact hoffered.outer_ok hobeys

/-- Every round of the search keeps the law, and the last one asks the current cursor. -/
theorem JoinAt.settle {fuel : Nat} {c : Nested σ (Nat × τ)} (h : JoinAt v.notes given c.current) :
    (Machine.settle m.numbered (Machine.inners k) fuel c).Ensures v fun r v' =>
      JoinAsked v'.notes given r.2.current := by
  induction fuel generalizing v c with
  | zero => exact nofun
  | succ n ih =>
    refine h.currentHasNext.bind ?_
    rintro ⟨more, current⟩ v₁ h₁
    cases more with
    | true => exact Comp.ensures_pure.mpr h₁
    | false =>
      -- no inner cursor is current, so the outer one may be asked
      obtain ⟨hobeys, hgiven, hfree⟩ := h₁
      refine (Comp.ensures_noting _ _ _).bind ?_
      rintro ⟨more, s⟩ v₂ hnotes
      have hobeys' : Obeys Joining v₂.notes := by
        rw [hnotes]
        exact hobeys.concat hfree
      have hgiven' : given = items v₂.notes := by simpa [hnotes] using hgiven
      cases more with
      | true =>
        -- the next round begins with a new cursor, or with none if the outer one failed
        have hoffered : Offered v₂.notes := by
          rw [hnotes]
          exact Free.offered hfree
        refine (JoinAt.outer_next hobeys' hgiven' hoffered s).bind ?_
        rintro ⟨answer, s⟩ v₃ h₃
        exact ih h₃
      | false =>
        refine Comp.ensures_pure.mpr ⟨⟨hobeys', hgiven', ?_⟩, nofun⟩
        show Free v₂.notes
        rw [hnotes]
        exact Free.outer_more hfree

/-- The current cursor is asked for its next element. -/
theorem JoinAsked.inner_next {c : Nat × τ} (h : JoinAsked v.notes given (some c)) :
    ((Machine.inners k).next c).Ensures v fun r v' =>
      JoinAsked v'.notes (given ++ r.1.toOption.toList) (some r.2) := by
  have hheld : Held v.notes c.1 := h.stands
  refine (ensures_inners_next c).mono ?_
  rintro ⟨answer, i, t⟩ v' ⟨hname, hnotes⟩
  obtain rfl : i = c.1 := hname
  refine ⟨⟨?_, ?_, ?_⟩, ?_⟩
  · rw [hnotes]
    exact h.obeys.concat hheld
  · simp [hnotes, h.given_eq]
  · show Held v'.notes c.1
    rw [hnotes]
    exact hheld.inner nofun
  · rintro _ ⟨⟩
    obtain ⟨left, hleft⟩ := h.asked c rfl
    exact ⟨left, by simp [hnotes, hleft]⟩

theorem JoinAsked.call {fuel : Nat} {replies : List (Reply α)} {c : Nested σ (Nat × τ)}
    (h : JoinAsked v.notes (Reply.items replies) c.current) (ask : Ask) :
    ((Machine.flatten fuel m.numbered (Machine.inners k)).call ask c).Ensures v fun r v' =>
      JoinAsked v'.notes (Reply.items (replies ++ [r.1])) r.2.current := by
  refine Machine.ensures_call ?_ ?_
  · intro _
    refine h.toJoinAt.settle.mono ?_
    rintro ⟨more, c⟩ v' h
    simpa using h
  · intro _
    refine h.toJoinAt.settle.bind ?_
    rintro ⟨more, s, current⟩ v₁ h
    have hnone : JoinAsked v₁.notes
        (Reply.items (replies ++ [.item (.error .exhausted : Except Error α)])) current := by
      simpa [Except.toOption] using h
    cases more with
    | false => exact Comp.ensures_pure.mpr hnone
    | true =>
      cases current with
      | none => exact Comp.ensures_pure.mpr hnone
      | some c =>
        refine h.inner_next.bind ?_
        rintro ⟨answer, c⟩ v₂ h
        refine Comp.ensures_pure.mpr ?_
        simpa using h

theorem JoinAsked.run {fuel : Nat} {s : σ} {w : ω} (asks : List Ask) :
    ((Machine.flatten fuel m.numbered (Machine.inners k)).run asks ⟨s, none⟩).Ensures ⟨w, []⟩
      fun r v => JoinAsked v.notes (Reply.items r.1) r.2.current :=
  have hstart : JoinAsked (α := α) [] [] (none : Option (Nat × τ)) :=
    ⟨⟨obeys_nil, rfl, ⟨fun hk => absurd hk (Nat.not_lt_zero _), nofun⟩⟩, nofun⟩
  Machine.ensures_run (fun replies (v : Noted ω (JoinCall α)) (c : Nested σ (Nat × τ)) =>
      JoinAsked v.notes (Reply.items replies) c.current)
    (fun ask _ _ _ h => h.call ask) asks hstart

end Flatten

/-- Whatever the cursors below do: a chain is through with its first cursor before it calls the
second, and a flattened machine with every inner cursor before it asks for the next. Both hand out
what they were handed, in the order of the calls. -/
theorem joins_in_order (first : Machine ω σ α) (second : Machine ω τ α) (s : σ) (t : τ)
    (outer : Machine ω σ τ) (fuel : Nat) (asks : List Ask) (w : ω) :
    (((first.noted RelayCall.first).chain (second.noted RelayCall.second)).run asks
      (.first s t)).Ensures ⟨w, []⟩ (fun r v =>
        ∃ firsts seconds, Relayed firsts seconds v.notes (Reply.items r.1)) ∧
    ((Machine.flatten fuel outer.numbered (Machine.inners second)).run asks
      ⟨s, none⟩).Ensures ⟨w, []⟩ fun r v => Joined v.notes (Reply.items r.1) :=
  ⟨(RelayAt.run asks).mono fun _ _ h => h.relayed, (JoinAsked.run asks).mono fun _ _ h => h.joined⟩

/-- An inner cursor that has nothing left is asked once and given up. -/
example :
    let outer : Machine Unit (Peeked (List (List Nat)) (List Nat)) (Peeked (List Nat) Nat) :=
      (Machine.peek pullHead).map fun xs => pure (.fresh xs)
    let calls := (((Machine.flatten 4 outer.numbered (Machine.inners (Machine.peek pullHead))).run
      [.next, .hasNext] ⟨.fresh [[], [3]], none⟩).left ⟨(), []⟩).notes
    calls = [.outer (.more true), .outer (.item (.ok 0)), .inner 0 (.more false),
      .outer (.more true), .outer (.item (.ok 1)), .inner 1 (.more true), .inner 1 (.item (.ok 3)),
      .inner 1 (.more false), .outer (.more false)] := rfl

end LazySeq
