import LazySeq.Error

/-!
# Possible values

A value that may be absent, with its alternatives and fallbacks. A present value may itself be
empty: `present none` is not `absent`. `Maybe.toOption` is the view as an option.
-/

namespace LazySeq

/-- A value or its absence. -/
inductive Maybe (α : Type) where
  | absent
  | present (a : α)

namespace Maybe

variable {α β ε : Type} {m : Type → Type}

/-! ## Options -/

/-- An option as a possible value. -/
def ofOption : Option α → Maybe α
  | none => absent
  | some a => present a

/-- A possible value as an option. -/
def toOption : Maybe α → Option α
  | absent => none
  | present a => some a

@[simp]
theorem toOption_ofOption (o : Option α) : (ofOption o).toOption = o := by
  cases o <;> rfl

@[simp]
theorem ofOption_toOption (v : Maybe α) : ofOption v.toOption = v := by
  cases v <;> rfl

/-! ## Presence -/

def hasValue : Maybe α → Bool
  | absent => false
  | present _ => true

def hasNoValue (v : Maybe α) : Bool :=
  !v.hasValue

/-! ## Alternatives -/

/-- The value, or else `other`. -/
def or : Maybe α → Maybe α → Maybe α
  | absent, other => other
  | present a, _ => present a

/-- The value, or else `a`. -/
def orSome (v : Maybe α) (a : α) : Maybe α :=
  v.or (present a)

/-- The value, or else what the option holds. -/
def orOption (v : Maybe α) (o : Option α) : Maybe α :=
  v.or (ofOption o)

/-! ## Taking the value out -/

/-- The value; its absence is an error. -/
def get : Maybe α → Except Error α
  | absent => .error .noSuchElement
  | present a => .ok a

/-- The value, or else the fallback. -/
def getOrElse : Maybe α → α → α
  | absent, fallback => fallback
  | present a, _ => a

/-- The value, or else what the supplier makes. The supplier runs only if the value is absent. -/
def getOrCall [Monad m] : Maybe α → m α → m α
  | absent, supplier => supplier
  | present a, _ => return a

/-- The value, or else the error. -/
def getOrThrow : Maybe α → ε → Except ε α
  | absent, error => .error error
  | present a, _ => .ok a

/-- The value alone, or nothing. -/
def toList : Maybe α → List α
  | absent => []
  | present a => [a]

/-! ## Mapping -/

/-- Maps the value. The mapper runs only if the value is present. -/
def mapM [Monad m] (f : α → m β) : Maybe α → m (Maybe β)
  | absent => return absent
  | present a => return present (← f a)

/-- Replaces the value by a possible value. The binder runs only if the value is present. -/
def andThenM [Monad m] (f : α → m (Maybe β)) : Maybe α → m (Maybe β)
  | absent => return absent
  | present a => f a

/-! ## Equality across payloads -/

/-- Both absent, or both present with payloads equal by `eq`. -/
def eqBy (eq : α → β → Bool) : Maybe α → Maybe β → Bool
  | absent, absent => true
  | present a, present b => eq a b
  | _, _ => false

end Maybe

end LazySeq
