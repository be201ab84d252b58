import LazySeq.Proofs.Simulation.Basic
import LazySeq.Stage.Select

/-!
# Selecting elements follows

Two selecting stages whose tests follow each other, over machines that do. The states are alike when
the sources are and the slots are. A search goes round by round, the second with the first, so as
much fuel as the first has is enough for it.
-/

namespace LazySeq

/-! ## States that are alike -/

section States

variable {σ σ' α α' : Type} {s t : σ → σ' → Prop} {v u : α → α' → Prop}

/-- Both slots are in the same condition, and what they hold is alike. -/
inductive Slot.Alike (v : α → α' → Prop) : Slot α → Slot α' → Prop where
  | empty : Alike v .empty .empty
  | held {a : α} {a' : α'} (h : v a a') : Alike v (.held a) (.held a')
  | closed : Alike v .closed .closed

structure Peeked.Alike (s : σ → σ' → Prop) (v : α → α' → Prop) (p : Peeked σ α)
    (p' : Peeked σ' α') : Prop where
  source : s p.source p'.source
  slot : p.slot.Alike v p'.slot

structure Dropping.Alike (s : σ → σ' → Prop) (d : Dropping σ) (d' : Dropping σ') : Prop where
  source : s d.source d'.source
  dropping : d.dropping = d'.dropping

structure Counted.Alike (s : σ → σ' → Prop) (c : Counted σ) (c' : Counted σ') : Prop where
  source : s c.source c'.source
  index : c.index = c'.index

theorem Slot.Alike.imp {l : Slot α} {l' : Slot α'} (hv : ∀ {a a'}, v a a' → u a a')
    (h : l.Alike v l') : l.Alike u l' := by
  cases h with
  | empty => exact .empty
  | held h => exact .held (hv h)
  | closed => exact .closed

theorem Peeked.Alike.imp {p : Peeked σ α} {p' : Peeked σ' α'} (hs : ∀ {x x'}, s x x' → t x x')
    (hv : ∀ {a a'}, v a a' → u a a') (h : p.Alike s v p') : p.Alike t u p' :=
  ⟨hs h.source, h.slot.imp hv⟩

theorem Dropping.Alike.imp {d : Dropping σ} {d' : Dropping σ'} (hs : ∀ {x x'}, s x x' → t x x')
    (h : d.Alike s d') : d.Alike t d' :=
  ⟨hs h.source, h.dropping⟩

theorem Counted.Alike.imp {c : Counted σ} {c' : Counted σ'} (hs : ∀ {x x'}, s x x' → t x x')
    (h : c.Alike s c') : c.Alike t c' :=
  ⟨hs h.source, h.index⟩

end States

namespace Comparison

variable {ω ω' σ σ' α α' : Type} {C : Comparison ω ω'} {S : C.Rel σ σ'} {V : C.Rel α α'}

namespace Rel

def peeked (S : C.Rel σ σ') (V : C.Rel α α') : C.Rel (Peeked σ α) (Peeked σ' α') :=
  ⟨fun b => Peeked.Alike (S b) (V b), fun hle h => h.imp (S.mono hle) (V.mono hle)⟩

def dropping (S : C.Rel σ σ') : C.Rel (Dropping σ) (Dropping σ') :=
  ⟨fun b => Dropping.Alike (S b), fun hle h => h.imp (S.mono hle)⟩

def counted (S : C.Rel σ σ') : C.Rel (Counted σ) (Counted σ') :=
  ⟨fun b => Counted.Alike (S b), fun hle h => h.imp (S.mono hle)⟩

end Rel

/-! ## Looking ahead -/

theorem Carries.fill {fetch : σ → Comp ω (Option α × σ)} {fetch' : σ' → Comp ω' (Option α' × σ')}
    (h : C.Carries S (V.option.prod S) fetch fetch') :
    C.Carries (S.peeked V) (Rel.eq.prod (S.peeked V)) (Machine.fill fetch)
      (Machine.fill fetch') := by
  rintro b ⟨s, slot⟩ ⟨s', slot'⟩ ⟨hs, hslot⟩
  cases hslot with
  | held ha => exact follows_pure ⟨rfl, hs, .held ha⟩
  | closed => exact follows_pure ⟨rfl, hs, .closed⟩
  | empty =>
    refine (h hs).bind ?_
    rintro b' ⟨o, s⟩ ⟨o', s'⟩ hle ⟨ha, hs⟩
    obtain ha | _ := ha
    · exact follows_pure ⟨rfl, hs, .held ha⟩
    · exact follows_pure ⟨rfl, hs, .closed⟩

theorem Carries.peek {fetch : σ → Comp ω (Option α × σ)} {fetch' : σ' → Comp ω' (Option α' × σ')}
    (h : C.Carries S (V.option.prod S) fetch fetch') :
    C.Mimics (S.peeked V) V (Machine.peek fetch) (Machine.peek fetch') where
  hasNext := h.fill
  next {b p p'} hp := by
    refine (h.fill hp).bind ?_
    rintro b' ⟨held, s, slot⟩ ⟨_, s', slot'⟩ hle ⟨rfl, hs, hslot⟩
    cases hslot with
    | held ha => exact follows_pure ⟨.ok ha, hs, .empty⟩
    | empty => exact follows_pure ⟨.error _, hs, .empty⟩
    | closed => exact follows_pure ⟨.error _, hs, .closed⟩

/-! ## By a test -/

variable {m : Machine ω σ α} {m' : Machine ω' σ' α'} {test : α → Comp ω Bool}
variable {test' : α' → Comp ω' Bool} {fuel fuel' : Nat}

theorem Mimics.seek (h : C.Mimics S V m m') (htest : C.Carries V Rel.eq test test')
    (hfuel : fuel ≤ fuel') :
    C.Carries S (V.option.prod S) (m.seek test fuel) (m'.seek test' fuel') := by
  induction fuel generalizing fuel' with
  | zero => exact fun _ _ _ _ => follows_throw
  | succ n ih =>
    obtain ⟨n', rfl⟩ := Nat.exists_eq_add_one.mpr (Nat.zero_lt_of_lt hfuel)
    intro b s s' hs
    refine (h.pull? hs).bind ?_
    rintro b' ⟨o, s⟩ ⟨o', s'⟩ hle ⟨ha, hs⟩
    obtain ha | _ := ha
    · refine (htest ha).bind ?_
      rintro b'' pass _ hle' rfl
      cases pass with
      | true => exact follows_pure ⟨.some (V.mono hle' ha), S.mono hle' hs⟩
      | false => exact ih (Nat.le_of_succ_le_succ hfuel) (S.mono hle' hs)
    · exact follows_pure ⟨.none, hs⟩

theorem Mimics.filter (h : C.Mimics S V m m') (htest : C.Carries V Rel.eq test test')
    (hfuel : fuel ≤ fuel') :
    C.Mimics (S.peeked V) V (m.filter fuel test) (m'.filter fuel' test') :=
  (h.seek htest hfuel).peek

theorem Mimics.pullIf (h : C.Mimics S V m m') (htest : C.Carries V Rel.eq test test') :
    C.Carries S (V.option.prod S) (m.pullIf test) (m'.pullIf test') := by
  intro b s s' hs
  refine (h.pull? hs).bind ?_
  rintro b' ⟨o, s⟩ ⟨o', s'⟩ hle ⟨ha, hs⟩
  obtain ha | _ := ha
  · refine (htest ha).bind ?_
    rintro b'' pass _ hle' rfl
    cases pass with
    | true => exact follows_pure ⟨.some (V.mono hle' ha), S.mono hle' hs⟩
    | false => exact follows_pure ⟨.none, S.mono hle' hs⟩
  · exact follows_pure ⟨.none, hs⟩

theorem Mimics.takeWhile (h : C.Mimics S V m m') (htest : C.Carries V Rel.eq test test') :
    C.Mimics (S.peeked V) V (m.takeWhile test) (m'.takeWhile test') :=
  (h.pullIf htest).peek

theorem Mimics.skipRun (h : C.Mimics S V m m') (htest : C.Carries V Rel.eq test test')
    (hfuel : fuel ≤ fuel') :
    C.Carries S.dropping (V.option.prod S.dropping) (m.skipRun test fuel)
      (m'.skipRun test' fuel') := by
  induction fuel generalizing fuel' with
  | zero => exact fun _ _ _ _ => follows_throw
  | succ n ih =>
    obtain ⟨n', rfl⟩ := Nat.exists_eq_add_one.mpr (Nat.zero_lt_of_lt hfuel)
    rintro b ⟨s, dropping⟩ ⟨s', _⟩ ⟨hsource, rfl⟩
    refine (h.pull? hsource).bind ?_
    rintro b' ⟨o, s⟩ ⟨o', s'⟩ hle ⟨ha, hs⟩
    obtain ha | _ := ha
    · cases dropping with
      | false => exact follows_pure ⟨.some ha, hs, rfl⟩
      | true =>
        refine (htest ha).bind ?_
        rintro b'' pass _ hle' rfl
        cases pass with
        | true => exact ih (Nat.le_of_succ_le_succ hfuel) ⟨S.mono hle' hs, rfl⟩
        | false => exact follows_pure ⟨.some (V.mono hle' ha), S.mono hle' hs, rfl⟩
    · exact follows_pure ⟨.none, hs, rfl⟩

theorem Mimics.dropWhile (h : C.Mimics S V m m') (htest : C.Carries V Rel.eq test test')
    (hfuel : fuel ≤ fuel') :
    C.Mimics (S.dropping.peeked V) V (m.dropWhile fuel test) (m'.dropWhile fuel' test') :=
  (h.skipRun htest hfuel).peek

/-! ## By position -/

theorem Mimics.seekWindow (h : C.Mimics S V m m') (win : Window) (hfuel : fuel ≤ fuel') :
    C.Carries S.counted (V.option.prod S.counted) (m.seekWindow win fuel)
      (m'.seekWindow win fuel') := by
  induction fuel generalizing fuel' with
  | zero => exact fun _ _ _ _ => follows_throw
  | succ n ih =>
    obtain ⟨n', rfl⟩ := Nat.exists_eq_add_one.mpr (Nat.zero_lt_of_lt hfuel)
    rintro b ⟨s, i⟩ ⟨s', _⟩ ⟨hs, rfl⟩
    refine follows_ite (follows_pure ⟨.none, hs, rfl⟩) ?_
    refine (h.pull? hs).bind ?_
    rintro b' ⟨o, s⟩ ⟨o', s'⟩ hle ⟨ha, hs⟩
    obtain ha | _ := ha
    · exact follows_ite (follows_pure ⟨.some ha, hs, rfl⟩)
        (ih (Nat.le_of_succ_le_succ hfuel) ⟨hs, rfl⟩)
    · exact follows_pure ⟨.none, hs, rfl⟩

theorem Mimics.slice (h : C.Mimics S V m m') (win : Window) (hfuel : fuel ≤ fuel') :
    C.Mimics (S.counted.peeked V) V (m.slice fuel win) (m'.slice fuel' win) :=
  (h.seekWindow win hfuel).peek

end Comparison

end LazySeq
