/-!
# Numbered keys

Columns, scans and shared expressions are identified by numbers. `Numbered` says that a kind of
key is ordered by a number that determines it; the sets and maps of this library keep their
content in that order.
-/

namespace QueryPlanner

/-- Keys that are ordered and identified by a number. -/
class Numbered (κ : Type) where
  number : κ → Nat
  number_injective : ∀ left right : κ, number left = number right → left = right

/-- Naturals are their own number. -/
instance : Numbered Nat where
  number value := value
  number_injective _ _ same := same

/-- The order of two keys by number. -/
def Numbered.before {κ : Type} [Numbered κ] (left right : κ) : Prop :=
  Numbered.number left < Numbered.number right

/-- The order of keys is decided by comparing their numbers. -/
instance {κ : Type} [Numbered κ] (left right : κ) : Decidable (Numbered.before left right) :=
  inferInstanceAs (Decidable (_ < _))

end QueryPlanner
