import LazySeq.Cursor.Run

/-!
# Collecting what a cursor hands out

The elements of a cursor may hold cursors again, which can be collected in turn: right after each
is pulled, or after all have been pulled, from the first to the last or from the last to
the first. Since cursors can share what they read from, the order matters.
-/

namespace LazySeq

/-- When the cursors among the collected elements are collected themselves. -/
inductive Resolution where
  /-- never -/
  | never
  /-- each right after it is pulled -/
  | onPull
  /-- after all are pulled, first to last -/
  | inOrder
  /-- after all are pulled, last to first -/
  | lastFirst

namespace Resolution

variable {ω τ : Type}

/-- Runs `f` on every element, in the order of the resolution; the answers keep their places. -/
def forEach {m : Type → Type} [Monad m] (f : Value → m Value) (xs : List Value) :
    Resolution → m (List Value)
  | lastFirst => return (← xs.reverse.mapM f).reverse
  | _ => xs.mapM f

/-- The elements that `pullAll` takes, each replaced by `f` at the time of the resolution. -/
def collectWith {σ : Type} (f : Value → Comp (World ω τ) Value) (r : Resolution)
    (pullAll : Machine (World ω τ) σ Value → σ → Comp (World ω τ) (List Value × σ))
    (m : Machine (World ω τ) σ Value) (s : σ) : Comp (World ω τ) (List Value × σ) :=
  match r with
  | onPull => pullAll (m.map f) s
  | r => do
    let (xs, s) ← pullAll m s
    return (← r.forEach f xs, s)

/-- The value with every cursor in it replaced by the list of its elements, all the way down. -/
def resolve (fuel : Nat) (r : Resolution) : Nat → Value → Comp (World ω τ) Value
  | 0, _ => throw .outOfFuel
  | n + 1, .cursor id => do
    let (xs, _) ← r.collectWith (r.resolve fuel n) (fun m s => m.drain fuel s) (Cursor.cells fuel) id
    return .list xs
  | n + 1, .list xs => return .list (← r.forEach (r.resolve fuel n) xs)
  | _ + 1, v => return v

/-- The elements of a machine, at most `limit` of them, resolved. -/
def collect {σ : Type} (fuel : Nat) (r : Resolution) (limit : Nat)
    (m : Machine (World ω τ) σ Value) (s : σ) : Comp (World ω τ) (List Value × σ) :=
  match r with
  | never => m.collect limit s
  | r => r.collectWith (r.resolve fuel fuel) (fun m s => m.collect limit s) m s

end Resolution

end LazySeq
