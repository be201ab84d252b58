import LazySeq.Proofs.Endless
import LazySeq.Proofs.Stage.Turns
import Mathlib.Data.ENat.Lattice

/-!
# Passes that differ

A replay over a source whose passes need not be alike: the cursor started as number `i` has the list
`P i`. What it hands out is one list after another, up to the limit on passes or to the first list
with nothing in it, whichever comes first, and for ever if there is neither
(`replay_passes`). To find that nothing is left it has to start the empty pass as well, if the limit
allows.
-/

namespace LazySeq

open Signal (begun InTurn)

variable {ω σ α : Type}

/-! ## The passes one after another -/

/-- A limit as a number of passes. -/
def passLimit : Option Nat → ℕ∞
  | none => ⊤
  | some n => n

/-- The number of the first pass that has nothing. -/
noncomputable def firstEmpty (P : Nat → List α) : ℕ∞ :=
  ⨅ (i : Nat) (_ : P i = []), (i : ℕ∞)

/-- From what is left of a pass and the number of the next one: an element and what is left then. -/
noncomputable def passStep (P : Nat → List α) (e : ℕ∞) : List α × Nat → Option (α × List α × Nat)
  | (x :: xs, i) => some (x, xs, i)
  | ([], i) =>
    if (i : ℕ∞) < e then
      match P i with
      | [] => none
      | x :: xs => some (x, xs, i + 1)
    else
      none

/-- The passes from number `i` on that are below `e`. It ends with a pass that has nothing. -/
noncomputable def passesFrom (P : Nat → List α) (e : ℕ∞) (i : Nat) : Stream'.Seq α :=
  .corec (passStep P e) ([], i)

/-- The passes that are below `e`, one after another. -/
noncomputable def passes (P : Nat → List α) (e : ℕ∞) : Stream'.Seq α :=
  passesFrom P e 0

variable {P : Nat → List α} {e : ℕ∞} {i : Nat}

theorem corec_passStep (xs : List α) (i : Nat) :
    Stream'.Seq.corec (passStep P e) (xs, i) =
      (Stream'.Seq.ofList xs).append (passesFrom P e i) := by
  induction xs with
  | nil =>
    rw [Stream'.Seq.ofList_nil, Stream'.Seq.nil_append]
    rfl
  | cons x xs ih =>
    rw [Stream'.Seq.corec_cons (x := x) (s := (xs, i)) rfl, ih, Stream'.Seq.ofList_cons,
      Stream'.Seq.cons_append]

theorem passesFrom_of_not_lt (h : ¬ (i : ℕ∞) < e) : passesFrom P e i = .nil :=
  Stream'.Seq.corec_nil _ _ (if_neg h)

theorem passesFrom_of_eq_nil (h : P i = []) : passesFrom P e i = .nil := by
  refine Stream'.Seq.corec_nil _ _ ?_
  rw [passStep, h]
  exact ite_self none

/-- A pass that has something comes before the later ones. -/
theorem passesFrom_of_lt (h : (i : ℕ∞) < e) (hP : P i ≠ []) :
    passesFrom P e i = (Stream'.Seq.ofList (P i)).append (passesFrom P e (i + 1)) := by
  obtain ⟨x, xs, hx⟩ := List.exists_cons_of_ne_nil hP
  have hstep : passStep P e ([], i) = some (x, xs, i + 1) := by
    rw [passStep, if_pos h, hx]
  rw [passesFrom, Stream'.Seq.corec_cons hstep, corec_passStep, hx, Stream'.Seq.ofList_cons,
    Stream'.Seq.cons_append]

theorem le_firstEmpty {n : Nat} : (n : ℕ∞) ≤ firstEmpty P ↔ ∀ j, j < n → P j ≠ [] := by
  rw [firstEmpty, le_iInf₂_iff]
  constructor
  · intro h j hj hnil
    have hle : n ≤ j := by exact_mod_cast h j hnil
    omega
  · intro h j hnil
    have hle : n ≤ j := Nat.le_of_not_lt fun hj => h j hj hnil
    exact_mod_cast hle

theorem firstEmpty_eq {n : Nat} (h : ∀ j, j < n → P j ≠ []) (hn : P n = []) :
    firstEmpty P = n :=
  le_antisymm (iInf₂_le n hn) (le_firstEmpty.mpr h)

/-- Any number of passes, all with something in them, comes first. -/
theorem passes_eq_append {n : Nat} (hn : (n : ℕ∞) ≤ e) (hP : (n : ℕ∞) ≤ firstEmpty P) :
    passes P e =
      (Stream'.Seq.ofList ((List.range n).flatMap P)).append (passesFrom P e n) := by
  induction n with
  | zero =>
    rw [List.range_zero, List.flatMap_nil, Stream'.Seq.ofList_nil, Stream'.Seq.nil_append, passes]
  | succ n ih =>
    have hlt : (n : ℕ∞) < n + 1 := by exact_mod_cast Nat.lt_succ_self n
    have hle : (n : ℕ∞) ≤ n + 1 := hlt.le
    have hnonempty : P n ≠ [] := le_firstEmpty.mp hP n (Nat.lt_succ_self n)
    rw [Nat.cast_succ] at hn hP
    rw [ih (hle.trans hn) (hle.trans hP), passesFrom_of_lt (hlt.trans_le hn) hnonempty,
      ← Stream'.Seq.append_assoc, ← Stream'.Seq.ofList_append, List.range_succ, List.flatMap_append,
      List.flatMap_singleton]

/-- So many passes and no more are a list. -/
theorem passes_natCast {n : Nat} (hP : (n : ℕ∞) ≤ firstEmpty P) :
    passes P n = .ofList ((List.range n).flatMap P) := by
  rw [passes_eq_append le_rfl hP, passesFrom_of_not_lt (lt_irrefl _), Stream'.Seq.append_nil]

/-! ## A source that is walked pass after pass -/

open Machine

/-- The cursor started as number `i` has `P i` left, and when it has nothing left, and only then
need it be so, the next can be started. -/
structure Walks (start : Comp ω σ) (m : Machine ω σ α) (P : Nat → List α)
    (Ready : Nat → ω → Prop) (Left : Nat → List α → ω → σ → Prop) : Prop where
  start {i : Nat} {w : ω} : Ready i w → start.Returns w fun s w' => Left i (P i) w' s
  lawful (i : Nat) : m.Lawful (Left i)
  ready {i : Nat} {w : ω} {s : σ} : Left i [] w s → Ready (i + 1) w

/-- So many passes a replay hands out: up to the limit, or to the first that has nothing. -/
noncomputable def passCount (P : Nat → List α) (limit : Option Nat) : ℕ∞ :=
  min (passLimit limit) (firstEmpty P)

/-- So many passes it starts until it finds that nothing is left. -/
noncomputable def startCount (P : Nat → List α) (limit : Option Nat) : ℕ∞ :=
  min (passLimit limit) (firstEmpty P + 1)

variable {limit left : Option Nat}

/-- Where all of the limit is used up, and every pass had something, that was all. -/
theorem counts_of_used {n : Nat} (h : Remains limit n (some 0)) (hP : ∀ j, j < n → P j ≠ []) :
    passCount P limit = n ∧ startCount P limit = n := by
  obtain rfl : limit = some n := h
  have hfirst : (n : ℕ∞) ≤ firstEmpty P := le_firstEmpty.mpr hP
  exact ⟨min_eq_left hfirst, min_eq_left (hfirst.trans le_self_add)⟩

theorem Remains.lt {n : Nat} (h : Remains limit n left) (hleft : left ≠ some 0) :
    (n : ℕ∞) < passLimit limit := by
  rw [Remains] at h
  subst h
  cases left with
  | none => exact ENat.natCast_lt_top n
  | some k =>
    have hpos : 0 < k := Nat.pos_of_ne_zero fun hk => hleft (by rw [hk])
    have hlt : n < n + k := Nat.lt_add_of_pos_right hpos
    exact Nat.cast_lt.mpr hlt

/-- Where one more pass may be started, and it has nothing, that was all. -/
theorem counts_of_empty {n : Nat} (h : (n : ℕ∞) < passLimit limit) (hP : ∀ j, j < n → P j ≠ [])
    (hn : P n = []) : passCount P limit = n ∧ startCount P limit = n + 1 := by
  rw [passCount, startCount, firstEmpty_eq hP hn]
  exact ⟨min_eq_right h.le, min_eq_right (Order.add_one_le_of_lt h)⟩

theorem lt_passCount {n : Nat} (h : (n : ℕ∞) < passLimit limit) (hP : ∀ j, j ≤ n → P j ≠ []) :
    (n : ℕ∞) < passCount P limit := by
  have hfirst : ((n + 1 : Nat) : ℕ∞) ≤ firstEmpty P :=
    le_firstEmpty.mpr fun j hj => hP j (Nat.le_of_lt_succ hj)
  have hlt : (n : ℕ∞) < (n + 1 : Nat) := Nat.cast_lt.mpr (Nat.lt_succ_self n)
  exact lt_min h (hlt.trans_le hfirst)

/-! ## What a replay has left -/

section Walk

variable {start : Comp ω σ} {m : Machine ω σ α} {Ready : Nat → ω → Prop}
variable {Left : Nat → List α → ω → σ → Prop} {v : Noted ω Signal}

/-- A pass goes on with `xs`, as one of several that all have something, and `ys` is what it and the
later ones have left. -/
structure Walking (P : Nat → List α) (limit : Option Nat) (Left : Nat → List α → ω → σ → Prop)
    (xs : List α) (ys : Stream'.Seq α) (v : Noted ω Signal) (s : σ) (i : Nat) : Prop where
  begun : begun v.notes = i + 1
  nonempty (j : Nat) : j ≤ i → P j ≠ []
  rest : ys = (Stream'.Seq.ofList xs).append (passesFrom P (passCount P limit) (i + 1))
  goes : Left i xs v.world s

/-- What a replay has left, and how many passes it has started. -/
def WalkLeft (P : Nat → List α) (limit : Option Nat) (Ready : Nat → ω → Prop)
    (Left : Nat → List α → ω → σ → Prop) (ys : Stream'.Seq α) (v : Noted ω Signal) :
    Replay (Nat × σ) → Prop
  | .fresh _ => begun v.notes = 0 ∧ Ready 0 v.world ∧ ys = passes P (passCount P limit)
  | .running pass yielded _ => ∃ i xs, Walking P limit Left xs ys v pass.2 i ∧
    (yielded = false → xs ≠ [])
  | .ended => ys = .nil ∧ begun v.notes = startCount P limit

/-- The same once it was asked: before an element, or past all of them. -/
def WalkAsked (P : Nat → List α) (limit : Option Nat) (Left : Nat → List α → ω → σ → Prop)
    (ys : Stream'.Seq α) (v : Noted ω Signal) : Replay (Nat × σ) → Prop
  | .fresh _ => False
  | .running pass _ _ => ∃ i x xs, Walking P limit Left (x :: xs) ys v pass.2 i
  | .ended => ys = .nil ∧ begun v.notes = startCount P limit

theorem WalkAsked.walkLeft {ys : Stream'.Seq α} {r : Replay (Nat × σ)}
    (h : WalkAsked P limit Left ys v r) : WalkLeft P limit Ready Left ys v r := by
  cases r with
  | fresh left => exact h.elim
  | running pass yielded left =>
    obtain ⟨i, x, xs, hwalk⟩ := h
    exact ⟨i, x :: xs, hwalk, fun _ => List.cons_ne_nil x xs⟩
  | ended => exact h

theorem Walking.head_isSome {x : α} {xs : List α} {ys : Stream'.Seq α} {s : σ}
    (h : Walking P limit Left (x :: xs) ys v s i) : ys.head.isSome = true := by
  rw [h.rest, Stream'.Seq.ofList_cons, Stream'.Seq.cons_append, Stream'.Seq.head_cons]
  rfl

/-- Between two passes: the next is started if the limit allows, and goes on if it has anything. -/
theorem Walks.startPass (h : Walks start m P Ready Left) (hready : Ready i v.world)
    (hbetween : Between limit left v.notes) (hbegun : begun v.notes = i)
    (hP : ∀ j, j < i → P j ≠ []) :
    (m.named.startPass (enrolStart start) left).Returns v fun r v' =>
      r.1 = (passesFrom P (passCount P limit) i).head.isSome ∧
        WalkAsked P limit Left (passesFrom P (passCount P limit) i) v' r.2 := by
  have hremains : Remains limit i left := hbegun ▸ hbetween.remains
  by_cases hleft : left = some 0
  · -- the limit is used up before a pass was empty
    subst hleft
    obtain ⟨hpasses, hstarts⟩ := counts_of_used hremains hP
    have hnil : passesFrom P (passCount P limit) i = .nil :=
      passesFrom_of_not_lt (by rw [hpasses]; exact lt_irrefl _)
    rw [hnil]
    exact Comp.returns_pure.mpr ⟨rfl, rfl, by rw [hstarts, hbegun]⟩
  · rw [Frame.startPass_of_ne_zero hleft]
    have hlt : (i : ℕ∞) < passLimit limit := hremains.lt hleft
    refine (h.start hready).enrolStart.bind ?_
    intro pass v₁ ⟨hs, hnotes⟩
    refine ((h.lawful i).hasNext hs).named_hasNext.bind ?_
    rintro ⟨more, pass'⟩ v₂ ⟨⟨hmore, hs⟩, -, hnotes'⟩
    have hbegun' : begun v₂.notes = i + 1 := by
      rw [hnotes', Signal.begun_append, Signal.begun_call, hnotes, Signal.begun_append, hbegun,
        Signal.begun_begins]
    obtain rfl : more = !(P i).isEmpty := hmore
    by_cases hnil : P i = []
    · -- the first empty pass: it was started all the same
      obtain ⟨-, hstarts⟩ := counts_of_empty hlt hP hnil
      rw [passesFrom_of_eq_nil hnil, hnil]
      exact Comp.returns_pure.mpr ⟨rfl, rfl, by rw [hstarts, hbegun']; rfl⟩
    · have hP' : ∀ j, j ≤ i → P j ≠ [] := fun j hj =>
        (Nat.lt_or_eq_of_le hj).elim (hP j) fun heq => heq ▸ hnil
      obtain ⟨x, xs, hx⟩ := List.exists_cons_of_ne_nil hnil
      have hwalk :
          Walking P limit Left (x :: xs) (passesFrom P (passCount P limit) i) v₂ pass'.2 i :=
        ⟨hbegun', hP', by rw [passesFrom_of_lt (lt_passCount hlt hP') hnil, hx], hx ▸ hs⟩
      rw [hx]
      exact Comp.returns_pure.mpr ⟨hwalk.head_isSome.symm, i, x, xs, hwalk⟩

theorem Walks.replayHasNext (h : Walks start m P Ready Left) {ys : Stream'.Seq α}
    {r : Replay (Nat × σ)} (hr : WalkLeft P limit Ready Left ys v r)
    (hturns : Turns limit v.notes r) :
    (m.named.replayHasNext (enrolStart start) r).Returns v fun r v' =>
      r.1 = ys.head.isSome ∧ WalkAsked P limit Left ys v' r.2 := by
  cases r with
  | fresh left =>
    obtain ⟨hbegun, hready, rfl⟩ := hr
    exact h.startPass hready hturns hbegun nofun
  | ended => exact Comp.returns_pure.mpr ⟨by rw [hr.1]; rfl, hr⟩
  | running pass yielded left =>
    obtain ⟨i, xs, hwalk, hyielded⟩ := hr
    refine ((h.lawful i).hasNext hwalk.goes).named_hasNext.bind ?_
    rintro ⟨more, pass'⟩ v₁ ⟨⟨hmore, hs⟩, -, hnotes⟩
    obtain rfl : more = !xs.isEmpty := hmore
    have hbegun : begun v₁.notes = i + 1 := by
      rw [hnotes, Signal.begun_append, Signal.begun_call, hwalk.begun]
    cases xs with
    | cons x xs =>
      have hwalk' : Walking P limit Left (x :: xs) ys v₁ pass'.2 i :=
        ⟨hbegun, hwalk.nonempty, hwalk.rest, hs⟩
      exact Comp.returns_pure.mpr ⟨hwalk'.head_isSome.symm, i, x, xs, hwalk'⟩
    | nil =>
      -- the pass had something, and it was handed out; so the loop goes on to the next pass
      obtain rfl : yielded = true := by
        cases yielded with
        | true => rfl
        | false => exact absurd rfl (hyielded rfl)
      have hover := hturns.between
      rw [show (Reply.more false : Reply Unit) = .more (!([] : List α).isEmpty) from rfl,
        ← hnotes] at hover
      rw [hwalk.rest, Stream'.Seq.ofList_nil, Stream'.Seq.nil_append]
      exact h.startPass (h.ready hs) hover hbegun fun j hj =>
        hwalk.nonempty j (Nat.le_of_lt_succ hj)

/-- A call is answered as by the cursor over all passes, and where it is refused the replay has
ended. -/
theorem Walks.call (h : Walks start m P Ready Left) {ys : Stream'.Seq α} {r : Replay (Nat × σ)}
    (hr : WalkLeft P limit Ready Left ys v r) (hturns : Turns limit v.notes r) (ask : Ask) :
    ((m.named.replay (enrolStart start)).call ask r).Returns v fun r v' =>
      r.1 = (SeqCursor.call ask ys).1 ∧
        WalkLeft P limit Ready Left (SeqCursor.call ask ys).2 v' r.2 ∧
        (r.1.Refuses → r.2 = .ended) := by
  refine returns_call ?_ ?_
  · rintro rfl
    refine (h.replayHasNext hr hturns).mono ?_
    intro ⟨more, r⟩ v' ⟨hmore, hasked⟩
    obtain rfl : more = ys.head.isSome := hmore
    have hleft : WalkLeft P limit Ready Left ys v' r := WalkAsked.walkLeft hasked
    refine ⟨rfl, hleft, fun hrefuses => ?_⟩
    cases r with
    | fresh left => exact hasked.elim
    | ended => rfl
    | running pass yielded left =>
      obtain ⟨i, x, xs, hwalk⟩ := hasked
      have hmore : ys.head.isSome = false := hrefuses
      rw [hwalk.head_isSome] at hmore
      exact absurd hmore.symm Bool.false_ne_true
  · rintro rfl
    refine (h.replayHasNext hr hturns).bind ?_
    intro ⟨more, r⟩ v₁ ⟨hmore, hasked⟩
    obtain rfl : more = ys.head.isSome := hmore
    cases r with
    | fresh left => exact hasked.elim
    | ended =>
      have hnil : ys = .nil := hasked.1
      subst hnil
      exact Comp.returns_pure.mpr ⟨rfl, hasked, fun _ => rfl⟩
    | running pass yielded left =>
      obtain ⟨i, x, xs, hwalk⟩ := hasked
      rw [hwalk.head_isSome]
      refine ((h.lawful i).next_cons hwalk.goes).named_next.bind ?_
      rintro ⟨answer, pass'⟩ v₂ ⟨⟨hanswer, hs⟩, -, hnotes⟩
      obtain rfl : answer = .ok x := hanswer
      have hbegun : begun v₂.notes = i + 1 := by
        rw [hnotes, Signal.begun_append, Signal.begun_call, hwalk.begun]
      have hys : ys = .cons x ((Stream'.Seq.ofList xs).append
          (passesFrom P (passCount P limit) (i + 1))) := by
        rw [hwalk.rest, Stream'.Seq.ofList_cons, Stream'.Seq.cons_append]
      rw [hys]
      refine Comp.returns_pure.mpr ⟨rfl, ?_, nofun⟩
      exact ⟨i, xs, ⟨hbegun, hwalk.nonempty, rfl, hs⟩, nofun⟩

/-- What every schedule of calls on a replay with named passes keeps up: `all` is what there is to
hand out, and `done` are the calls made so far. -/
structure Walked (P : Nat → List α) (limit : Option Nat) (Ready : Nat → ω → Prop)
    (Left : Nat → List α → ω → σ → Prop) (all : Stream'.Seq α) (done : List Ask)
    (replies : List (Reply α)) (v : Noted ω Signal) (r : Replay (Nat × σ)) : Prop where
  replied : replies = SeqCursor.run done all
  left : WalkLeft P limit Ready Left (SeqCursor.after done all) v r
  turns : Turns limit v.notes r
  ended : (∃ reply ∈ replies, reply.Refuses) → r = .ended

theorem walked_fresh {w : ω} (hw : Ready 0 w) :
    Walked P limit Ready Left (passes P (passCount P limit)) [] [] ⟨w, []⟩
      (.fresh limit : Replay (Nat × σ)) where
  replied := rfl
  left := ⟨rfl, hw, rfl⟩
  turns := turns_fresh limit
  ended := nofun

theorem Walked.call (h : Walks start m P Ready Left) {all : Stream'.Seq α} {done : List Ask}
    {replies : List (Reply α)} {r : Replay (Nat × σ)}
    (hr : Walked P limit Ready Left all done replies v r) (ask : Ask) :
    ((m.named.replay (enrolStart start)).call ask r).Returns v fun r' v' =>
      Walked P limit Ready Left all (done ++ [ask]) (replies ++ [r'.1]) v' r'.2 := by
  by_cases hended : r = .ended
  · subst hended
    have hnil : SeqCursor.after done all = .nil := hr.left.1
    have hrefusal : (SeqCursor.call ask (.nil : Stream'.Seq α)).1 = ask.refusal := by
      cases ask <;> rfl
    rw [call_ended]
    refine Comp.returns_pure.mpr ⟨?_, ?_, hr.turns, fun _ => rfl⟩
    · rw [SeqCursor.run_concat, ← hr.replied, hnil, hrefusal]
    · exact ⟨by rw [SeqCursor.after_concat, hnil]; cases ask <;> rfl, hr.left.2⟩
  · refine ((h.call hr.left hr.turns ask).and_ensures (ensures_call_replay hr.turns ask)).mono ?_
    intro r' v' ⟨⟨hreply, hleft, hrefuses⟩, hturns, _⟩
    refine ⟨?_, ?_, hturns, fun ⟨reply, hmem, hreply⟩ => ?_⟩
    · rw [SeqCursor.run_concat, ← hr.replied, hreply]
    · rwa [SeqCursor.after_concat]
    · rcases List.mem_append.mp hmem with hmem | hmem
      · exact absurd (hr.ended ⟨reply, hmem, hreply⟩) hended
      · rw [List.mem_singleton.mp hmem] at hreply
        exact hrefuses hreply

/-- A replay hands out pass after pass, each as long as it is itself: the replies to a schedule of
calls are those of the cursor over all passes that come before the limit and before the first that
has nothing. A pass is started only when the one before it has said that it has nothing left, and
when a call was refused, so many were started that there can be no more. -/
theorem replay_passes (h : Walks start m P Ready Left) (limit : Option Nat) (asks : List Ask)
    {w : ω} (hw : Ready 0 w) :
    ((m.named.replay (enrolStart start)).run asks (.fresh limit)).Returns ⟨w, []⟩ fun r v =>
      r.1 = SeqCursor.run asks (passes P (min (passLimit limit) (firstEmpty P))) ∧
      (∀ n : Nat, min (passLimit limit) (firstEmpty P) = n →
        r.1 = ListCursor.run asks ((List.range n).flatMap P)) ∧
      InTurn v.notes ∧
      ((∃ reply ∈ r.1, reply.Refuses) →
        (begun v.notes : ℕ∞) = min (passLimit limit) (firstEmpty P + 1)) := by
  have hrun := returns_run (m := m.named.replay (enrolStart start))
    (Walked P limit Ready Left (passes P (passCount P limit)))
    (fun ask _ _ _ _ hr => hr.call h ask) asks
    (walked_fresh hw)
  refine hrun.mono ?_
  intro ⟨given, r⟩ v hr
  refine ⟨hr.replied, fun n hn => ?_, hr.turns.inTurn, fun hrefused => ?_⟩
  · have hlist : passes P (passCount P limit) = .ofList ((List.range n).flatMap P) := by
      rw [passCount, hn]
      exact passes_natCast (hn.symm.trans_le (min_le_right _ _))
    rw [← SeqCursor.run_ofList, ← hlist]
    exact hr.replied
  · obtain rfl : r = .ended := hr.ended hrefused
    exact hr.left.2

end Walk

/-- A source that can be walked only once is walked once, and started once more to find out. -/
theorem replay_passes_once :
    let start : Comp (List Nat) (Stream'.Seq Nat) := do
      let xs ← get
      set ([] : List Nat)
      return .ofList xs
    ((SeqCursor.machine.named.replay (enrolStart start)).run [.next, .next, .hasNext, .next]
      (.fresh none)).Returns ⟨[1, 2], []⟩ fun r v =>
        r.1 = [.item (.ok 1), .item (.ok 2), .more false, .item (.error .exhausted)] ∧
        (begun v.notes : ℕ∞) = 2 := by
  intro start
  have hwalks : Walks start SeqCursor.machine (fun i => if i = 0 then [1, 2] else [])
      (fun i w => w = if i = 0 then [1, 2] else []) (fun _ xs w s => w = [] ∧ s = .ofList xs) := by
    refine ⟨?_, fun _ => ⟨?_, ?_, ?_⟩, ?_⟩
    · rintro i w rfl
      exact ⟨_, _, rfl, rfl, rfl⟩
    · rintro xs w s ⟨rfl, rfl⟩
      cases xs <;> exact ⟨_, _, rfl, rfl, rfl, rfl⟩
    · rintro x xs w s ⟨rfl, rfl⟩
      exact ⟨_, _, rfl, rfl, rfl, rfl⟩
    · rintro w s ⟨rfl, rfl⟩
      exact ⟨_, _, rfl, rfl, rfl, rfl⟩
    · rintro i w s ⟨rfl, rfl⟩
      rfl
  have hfirst : firstEmpty (fun i => if i = 0 then [1, 2] else []) = (1 : Nat) :=
    firstEmpty_eq (fun j hj => by rw [Nat.lt_one_iff.mp hj]; exact List.cons_ne_nil 1 [2]) rfl
  refine (replay_passes hwalks none [.next, .next, .hasNext, .next] rfl).mono ?_
  intro r v ⟨_, hlist, _, hbegun⟩
  rw [hfirst] at hlist hbegun
  have hgiven := hlist 1 (min_eq_right le_top)
  refine ⟨hgiven, ?_⟩
  rw [hbegun ⟨.more false, by rw [hgiven]; decide, rfl⟩]
  rfl

end LazySeq
