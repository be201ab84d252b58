import LazySeq.Proofs.Independence.World
import LazySeq.Proofs.Simulation.Cursor

/-!
# Cursors that are alike answer alike

The comparison of worlds apart (`apart`) is carried through everything a cursor does: through the
callables (`Fn.IsPure.carries`, `Test.IsPure.carries`), through starting a cursor (`follows_start`)
and so, stage by stage, through the calls of every cursor (`mimics_machine`). Whatever two cursors
that are alike do, they do to paired spots and to new ones.
-/

namespace LazySeq

open Comparison Comparison.Rel World

variable {ω τ : Type} {keep keep' : Spot → Option (Content ω τ)} {b : Pairing}

/-! ## Sources -/

theorem carries_pull : (apart keep keep').Carries iterators (values.option.prod iterators)
    (fun iterator => onOuter iterator.pull) (fun iterator => onOuter iterator.pull) := by
  intro b iterator iterator' h
  cases h with
  | list hxs =>
    obtain _ | ⟨hx, hxs⟩ := hxs
    · exact follows_pure ⟨.none, .list .nil⟩
    · exact follows_pure ⟨.some hx, .list hxs⟩
  | count next stop =>
    dsimp only [Iterator.pull]
    split
    · exact follows_pure ⟨.none, .count next stop⟩
    · exact follows_pure ⟨.some (Value.Plain.alike rfl), .count (next + 1) stop⟩
  | @given pull g hpull hplain state =>
    have hboth : Comp.Answers (fun _ : Unit => (Iterator.given pull state).pull)
        fun _ => ((g state).1, .given pull (g state).2) := fun _ w =>
      (hpull state w).bind fun _ _ ⟨hg, _⟩ => Comp.returns_pure.mpr ⟨by rw [hg], trivial⟩
    refine follows_onOuter hboth () () ⟨?_, .given hpull hplain _⟩
    cases hv : (g state).1 with
    | none => exact .none
    | some v => exact .some (hplain state v hv).alike

theorem mimics_ofOuter {m : Machine ω τ Value} (hm : m.Steady) :
    (apart keep keep').Mimics Rel.eq values (ofOuter m) (ofOuter m) where
  hasNext := by
    rintro b s _ rfl
    obtain ⟨g, hg⟩ := hm.hasNext
    exact follows_onOuter hg _ _ ⟨rfl, rfl⟩
  next := by
    rintro b s _ rfl
    obtain ⟨g, hg, hplain⟩ := hm.next
    refine follows_onOuter hg _ _ ⟨?_, rfl⟩
    cases hv : (g s).1 with
    | ok v => exact .ok (hplain s v hv).alike
    | error e => exact .error e

theorem follows_newCell {c c' : Cursor ω τ} (hc : c.Alike b c') :
    (apart keep keep').Follows b (do return Value.cursor (← adopt c))
      (do return Value.cursor (← adopt c')) values :=
  (follows_adopt hc).bind fun _ hid => follows_pure (Value.alike_cursor.mpr hid)

/-! ## Callables -/

section Callables

variable {cellular cellular' : Machine (World ω τ) CursorId Value}

theorem Fn.IsPure.carries {f : Fn ω} (hf : f.IsPure) (fuel : Nat)
    (h : (apart keep keep').Mimics cells values cellular cellular') :
    (apart keep keep').Carries values values (f.apply fuel cellular) (f.apply fuel cellular') := by
  induction hf with
  | call hf hg =>
    intro b v v' hv
    exact follows_onOuter hf _ _ (hg _ (Pairing.biUnique_cells b) _ _ hv)
  | andThen _ _ ihf ihg =>
    intro b v v' hv
    exact (ihf hv).bind fun _ hv => ihg hv
  | walk =>
    intro b v v' hv
    exact follows_newCell (Cursor.alike_ofList hv.items)
  | drain =>
    intro b v v' hv
    cases Value.alike_iff_cases.mp hv with
    | cursor hid =>
      refine (h.drain hid).bind ?_
      rintro b' ⟨xs, i⟩ ⟨xs', i'⟩ hle ⟨hxs, hi⟩
      exact follows_pure (Value.alike_list.mpr hxs)
    | list hxs => exact follows_pure hv
    | @flat v hcursor hlist =>
      cases v with
      | cursor i => exact absurd rfl (hcursor i)
      | _ => exact follows_pure hv
  | first =>
    intro b v v' hv
    cases Value.alike_iff_cases.mp hv with
    | cursor hid =>
      refine (h.next hid).bind ?_
      rintro b' ⟨answer, i⟩ ⟨answer', i'⟩ hle ⟨ha, hi⟩
      obtain hv | e := ha
      · exact follows_pure hv
      · exact follows_pure (Value.Plain.alike rfl)
    | list hxs => exact follows_pure hv
    | @flat v hcursor hlist =>
      cases v with
      | cursor i => exact absurd rfl (hcursor i)
      | _ => exact follows_pure hv

theorem Test.IsPure.carries {p : Test ω} (hp : p.IsPure)
    (h : (apart keep keep').Mimics cells values cellular cellular') :
    (apart keep keep').Carries values Rel.eq (p.run cellular) (p.run cellular') := by
  induction hp with
  | @call p q hp hq =>
    intro b v v' hv
    have hsame := hq _ (Pairing.biUnique_cells b) _ _ hv
    have hpass : q v = q v' := by simpa [Value.Alike] using hsame
    exact follows_onOuter hp _ _ hpass
  | hasNext =>
    intro b v v' hv
    cases Value.alike_iff_cases.mp hv with
    | cursor hid =>
      refine (h.hasNext hid).bind ?_
      rintro b' ⟨more, i⟩ ⟨_, i'⟩ hle ⟨rfl, hi⟩
      exact follows_pure rfl
    | list hxs => exact follows_pure rfl
    | @flat v hcursor hlist =>
      cases v with
      | cursor i => exact absurd rfl (hcursor i)
      | _ => exact follows_pure rfl
  | not _ ih =>
    intro b v v' hv
    refine (ih hv).bind ?_
    rintro b' pass _ hle rfl
    exact follows_pure rfl
  | and _ _ ihp ihq =>
    intro b v v' hv
    refine (ihp hv).bind ?_
    rintro b' pass _ hle rfl
    exact follows_ite (ihq (values.mono hle hv)) (follows_pure rfl)
  | or _ _ ihp ihq =>
    intro b v v' hv
    refine (ihp hv).bind ?_
    rintro b' pass _ hle rfl
    exact follows_ite (follows_pure rfl) (ihq (values.mono hle hv))
  | after hnote _ ih =>
    intro b v v' hv
    refine (follows_onOuter hnote _ _ (Q := Rel.eq) rfl).bind fun hle _ => ?_
    exact ih (values.mono hle hv)

end Callables

/-! ## Starting -/

theorem follows_level {c c' : Cursor ω τ} (h : c.Level b (Cursor.Alike b) c') :
    (apart keep keep').Follows b (pure c) (pure c') cursors :=
  follows_pure h.fold

theorem follows_startList {of : List (Sequence ω τ)}
    (h : ∀ s ∈ of, ∀ b, (apart keep keep').Follows b s.start s.start cursors) (b : Pairing) :
    (apart keep keep').Follows b (Sequence.startList of) (Sequence.startList of) cursors.list := by
  induction of generalizing b with
  | nil => exact follows_pure .nil
  | cons s others ih =>
    obtain ⟨hs, hothers⟩ := List.forall_mem_cons.mp h
    refine (hs b).bind fun hle hc => ?_
    refine (ih hothers _).bind fun hle hcs => ?_
    exact follows_pure (.cons (cursors.mono hle hc) hcs)

theorem follows_startTuple {of : Tuple (Sequence ω τ)}
    (h : ∀ s ∈ of.toList, ∀ b, (apart keep keep').Follows b s.start s.start cursors) (b : Pairing) :
    (apart keep keep').Follows b (Sequence.startTuple of) (Sequence.startTuple of)
      cursors.tuple := by
  induction of generalizing b with
  | pair s t =>
    obtain ⟨hs, ht⟩ := List.forall_mem_cons.mp h
    refine (hs b).bind fun hle hc => ?_
    refine (List.forall_mem_singleton.mp ht _).bind fun hle hc' => ?_
    exact follows_pure (.pair (cursors.mono hle hc) hc')
  | cons s others ih =>
    obtain ⟨hs, hothers⟩ := List.forall_mem_cons.mp h
    refine (hs b).bind fun hle hc => ?_
    refine (ih hothers _).bind fun hle hcs => ?_
    exact follows_pure (.cons (cursors.mono hle hc) hcs)

theorem follows_start {s : Sequence ω τ} (h : s.Restartable) (b : Pairing) :
    (apart keep keep').Follows b s.start s.start cursors := by
  induction h generalizing b with
  | source h => exact follows_level (.reading ⟨h.alike, .empty⟩)
  | given hstart hmachine =>
    refine (follows_onOuter hstart () () (Q := Rel.eq) rfl).bind ?_
    rintro b' state _ hle rfl
    exact follows_level (.given hmachine state)
  | cursors h _ => exact follows_level (.cursors ⟨⟨rfl, h⟩, .empty⟩)
  | onStart hact _ ih =>
    refine (follows_onOuter hact () () (Q := Rel.eq) rfl).bind fun _ _ => ?_
    exact ih _
  | map hf _ ih =>
    exact (ih b).bind fun _ hc => follows_level (.map hf hc)
  | each hact _ ih =>
    exact (ih b).bind fun _ hc => follows_level (.each hact hc)
  | filter hp _ ih =>
    exact (ih b).bind fun _ hc => follows_level (.filter hp ⟨hc, .empty⟩)
  | takeWhile hp _ ih =>
    exact (ih b).bind fun _ hc => follows_level (.takeWhile hp ⟨hc, .empty⟩)
  | dropWhile hp _ ih =>
    exact (ih b).bind fun _ hc =>
      follows_level (.dropWhile hp ⟨⟨hc, rfl⟩, .empty⟩)
  | slice win _ ih =>
    exact (ih b).bind fun _ hc =>
      follows_level (.slice win ⟨⟨hc, rfl⟩, .empty⟩)
  | chain _ _ iha ihb =>
    refine (iha b).bind fun _ hc => ?_
    refine (ihb _).bind fun hle hc' => ?_
    exact follows_level (.chain (.first (cursors.mono hle hc) hc'))
  | concat _ ih =>
    exact (ih b).bind fun _ hc => follows_level (.concat ⟨hc, .none⟩)
  | replay passes h _ => exact follows_level (.replay h (.fresh passes))
  | pairs _ hb iha _ =>
    exact (iha b).bind fun _ hc => follows_level (.pairs hb ⟨hc, .none⟩)
  | zip _ ih =>
    exact (follows_startTuple ih b).bind fun _ hcs => follows_level (.zip ⟨hcs, rfl⟩)
  | zipAll _ ih =>
    exact (follows_startList ih b).bind fun _ hcs =>
      follows_level (.zipAll ⟨hcs, rfl⟩)
  | batch size _ _ ih =>
    refine (ih b).bind fun _ hc => ?_
    exact (follows_adoptReader hc).bind fun _ hr =>
      follows_level (.batches size hr)

/-- The same restartable sequence. -/
def sameStart : (apart keep keep').Rel (Sequence ω τ) (Sequence ω τ) :=
  ⟨fun _ => SameStart, fun _ h => h⟩

def sameStarts : (apart keep keep').Rel (List (Sequence ω τ)) (List (Sequence ω τ)) :=
  ⟨fun _ => SameStarts, fun _ h => h⟩

/-- The elements of a sequence of cursors, each started when it is handed out. -/
theorem mimics_cursors : (apart keep keep').Mimics (sameStarts.peeked sameStart) values
    ((Machine.peek pullHead).map Sequence.startAsValue : Machine (World ω τ) _ Value)
    ((Machine.peek pullHead).map Sequence.startAsValue) := by
  have hpull : (apart keep keep').Carries sameStarts (sameStart.option.prod sameStarts)
      (pullHead : List (Sequence ω τ) → Comp (World ω τ) _) pullHead := by
    rintro b of _ ⟨rfl, hof⟩
    cases of with
    | nil => exact follows_pure ⟨.none, rfl, hof⟩
    | cons s others =>
      obtain ⟨hs, hothers⟩ := List.forall_mem_cons.mp hof
      exact follows_pure ⟨.some ⟨rfl, hs⟩, rfl, hothers⟩
  refine hpull.peek.map ?_
  rintro b s _ ⟨rfl, hs⟩
  exact (follows_start hs b).bind fun _ hc => follows_newCell hc

/-! ## Calling -/

/-- What is known of a stage, as it is known of the cursors of which it is the outermost. -/
theorem mimics_outermost {σ : Type} {S : (apart keep keep').Rel σ σ} {wrap : σ → Cursor ω τ}
    {stage : Nat → Machine (World ω τ) σ Value} {n : Nat} (hrun : Cursor.Runs wrap stage)
    (hlevel : ∀ {b s s'}, S b s s' → (wrap s).Level b (Cursor.Alike b) (wrap s'))
    (h : (apart keep keep').Mimics S values (stage n) (stage n)) {s s' : σ} (hs : S b s s') :
    ∃ T : (apart keep keep').Rel (Cursor ω τ) (Cursor ω τ), T b (wrap s) (wrap s') ∧
      (∀ {b c c'}, T b c c' → cursors b c c') ∧
        (apart keep keep').Mimics T values (Cursor.machine (n + 1)) (Cursor.machine (n + 1)) := by
  refine ⟨S.image wrap wrap, ⟨s, rfl, s', rfl, hs⟩, ?_, h.machine hrun hrun⟩
  rintro b _ _ ⟨s, rfl, s', rfl, hs⟩
  exact (hlevel hs).fold

section Stages

variable {m m' : Machine (World ω τ) (Cursor ω τ) Value}

theorem mimics_concat (h : (apart keep keep').Mimics cursors values m m') (n : Nat) :
    (apart keep keep').Mimics (cursors.nested cursors) values
      (Machine.flatten n (m.map fun v => return Cursor.ofValue v) m)
      (Machine.flatten n (m'.map fun v => return Cursor.ofValue v) m') :=
  (h.map fun _ _ _ hv => follows_pure (Cursor.alike_ofValue hv)).flatten h n

theorem mimics_pairs (h : (apart keep keep').Mimics cursors values m m') {inner : Sequence ω τ}
    (hinner : inner.Restartable) (n : Nat) :
    (apart keep keep').Mimics (cursors.rowed values cursors) values
      ((m.pairs n inner.start m).map fun (a, b) => return .list [a, b])
      ((m'.pairs n inner.start m').map fun (a, b) => return .list [a, b]) := by
  refine (h.pairs h (follows_start hinner) (Nat.le_refl n)).map ?_
  rintro b ⟨v, u⟩ ⟨v', u'⟩ ⟨hv, hu⟩
  exact follows_pure (Value.alike_list.mpr (.cons hv (.cons hu .nil)))

theorem mimics_zip (h : (apart keep keep').Mimics cursors values m m') :
    (apart keep keep').Mimics cursors.tuple.latched values
      (m.tupleRow.latch.map fun row => return .list row.toList)
      (m'.tupleRow.latch.map fun row => return .list row.toList) :=
  h.tupleRow.latch.map fun _ _ _ hrow => follows_pure (Value.alike_list.mpr hrow.toList)

theorem mimics_zipAll (h : (apart keep keep').Mimics cursors values m m') :
    (apart keep keep').Mimics cursors.list.latched values
      (m.listRow.latch.map fun row => return .list row)
      (m'.listRow.latch.map fun row => return .list row) :=
  h.listRow.latch.map fun _ _ _ hrow => follows_pure (Value.alike_list.mpr hrow)

/-- Each batch is put into a cell of its own, and names the reader of its batching cursor. -/
theorem mimics_batches {n : Nat}
    (h : (apart keep keep').Mimics cursors values (Cursor.machine n : Machine (World ω τ) _ _)
      (Cursor.machine n)) (size : Nat) :
    (apart keep keep').Mimics (readers.image (Cursor.batches size) (Cursor.batches size)) values
      (Cursor.machine (n + 1) : Machine (World ω τ) _ _) (Cursor.machine (n + 1)) where
  hasNext := by
    rintro b _ _ ⟨r, rfl, r', rfl, hr⟩
    rw [Cursor.machine_hasNext (.batches size) rfl, Cursor.machine_hasNext (.batches size) rfl]
    refine ((h.batches size).readerMachine.hasNext hr).bind ?_
    rintro b' ⟨more, r⟩ ⟨_, r'⟩ hle ⟨rfl, hr⟩
    exact follows_pure ⟨rfl, r, rfl, r', rfl, hr⟩
  next := by
    rintro b _ _ ⟨r, rfl, r', rfl, hr⟩
    rw [Cursor.machine_next (.batches size) rfl, Cursor.machine_next (.batches size) rfl]
    refine Follows.bind (P := values.answer.prod readers) ?_ ?_
    · refine ((h.batches size).readerMachine.next hr).bind ?_
      rintro b' ⟨answer, s⟩ ⟨answer', s'⟩ hle ⟨ha, hs⟩
      obtain hk | e := ha
      · obtain rfl := hk
        refine (follows_newCell (Cursor.Level.fold (.batch _ (hle _ _ hr)))).bind ?_
        intro b'' v v' hle' hv
        exact follows_pure ⟨.ok hv, readers.mono hle' hs⟩
      · exact follows_pure ⟨.error e, hs⟩
    · rintro b' ⟨answer, r⟩ ⟨answer', r'⟩ hle ⟨ha, hr⟩
      exact follows_pure ⟨ha, r, rfl, r', rfl, hr⟩

end Stages

theorem mimics_machine (n : Nat) :
    (apart keep keep').Mimics cursors values (Cursor.machine n : Machine (World ω τ) _ _)
      (Cursor.machine n) := by
  induction n with
  | zero => exact mimics_zero
  | succ n ih =>
    have hcells := ih.cellMachine
    refine .of_states fun {b c c'} halike => ?_
    cases halike.unfold with
    | reading hp => exact mimics_outermost (fun _ _ => rfl) .reading carries_pull.peek hp
    | @given machine hmachine state =>
      refine mimics_outermost (S := Rel.eq) (fun _ _ => rfl) ?_ (mimics_ofOuter hmachine) rfl
      rintro b s _ rfl
      exact .given hmachine s
    | shared hid => exact mimics_outermost (fun _ _ => rfl) .shared hcells hid
    | cursors hp => exact mimics_outermost (fun _ _ => rfl) .cursors mimics_cursors hp
    | map hf hc =>
      exact mimics_outermost (fun _ _ => rfl) (.map hf) (ih.map (hf.carries n hcells)) hc
    | each hact hc =>
      refine mimics_outermost (fun _ _ => rfl) (.each hact) (ih.each ?_) hc
      exact fun _ _ _ _ => follows_onOuter hact _ _ rfl
    | filter ht hp =>
      have hstage := ih.filter (ht.carries hcells) (Nat.le_refl n)
      exact mimics_outermost (fun _ _ => rfl) (.filter ht) hstage hp
    | takeWhile ht hp =>
      exact mimics_outermost (fun _ _ => rfl) (.takeWhile ht) (ih.takeWhile (ht.carries hcells)) hp
    | dropWhile ht hp =>
      have hstage := ih.dropWhile (ht.carries hcells) (Nat.le_refl n)
      exact mimics_outermost (fun _ _ => rfl) (.dropWhile ht) hstage hp
    | slice win hp =>
      have hstage := ih.slice win (Nat.le_refl n)
      exact mimics_outermost (fun _ _ => rfl) (.slice win) hstage hp
    | chain hr => exact mimics_outermost (fun _ _ => rfl) .chain (ih.chain ih) hr
    | concat hc => exact mimics_outermost (fun _ _ => rfl) .concat (mimics_concat ih n) hc
    | replay hof hr =>
      exact mimics_outermost (fun _ _ => rfl) (.replay hof) (ih.replay (follows_start hof)) hr
    | pairs hinner hr =>
      exact mimics_outermost (fun _ _ => rfl) (.pairs hinner) (mimics_pairs ih hinner n) hr
    | zip hl => exact mimics_outermost (fun _ _ => rfl) .zip (mimics_zip ih) hl
    | zipAll hl => exact mimics_outermost (fun _ _ => rfl) .zipAll (mimics_zipAll ih) hl
    | batches size hr =>
      refine ⟨readers.image _ _, ⟨_, rfl, _, rfl, hr⟩, ?_, mimics_batches ih size⟩
      rintro b _ _ ⟨r, rfl, r', rfl, hr⟩
      exact Cursor.Level.fold (.batches size hr)
    | batch k hr => exact mimics_outermost (fun _ _ => rfl) (.batch k) (ih.batch k).readerMachine hr

end LazySeq
