import LazySeq.Script.Log

/-!
# Labels of cursors

An answer shows a cursor by a label: the cursors are numbered from zero in the order in which they
are first shown, and keep their number.
-/

namespace LazySeq

/-- The cursors shown so far; the label of a cursor is its position. -/
abbrev Labels := Array CursorId

namespace Labels

/-- The label of a cursor, a new one if it has none. -/
def label (id : CursorId) : StateM Labels Nat := do
  let known ← get
  match known.idxOf? id with
  | some k => return k
  | none => do
    set (known.push id)
    return known.size

mutual

/-- The value as it is shown, with labels for cursors. -/
def value : Value → StateM Labels Value
  | .cursor id => return .cursor (← label id)
  | .list xs => return .list (← values xs)
  | v => return v

/-- The values as they are shown, in order. -/
def values : List Value → StateM Labels (List Value)
  | [] => return []
  | v :: vs => return (← value v) :: (← values vs)

end

/-- The value of an option as it is shown. -/
def option : Option Value → StateM Labels (Option Value)
  | none => return none
  | some v => return some (← value v)

/-- An event as it is shown. -/
def event (e : Event) : StateM Labels Event := do
  return { e with value := ← option e.value }

/-- A log as it is shown: the earliest event first. -/
def log (events : Log) : StateM Labels (List Event) :=
  events.reverse.mapM event

end Labels

end LazySeq
