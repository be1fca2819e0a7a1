import QueryPlanner.Property.Enforced

/-!
# Rewindability

How far a result can be read again: not at all, from the start, or from a marked place.
-/

namespace QueryPlanner

/-- How far a result can be read again. -/
inductive Rewindability where
  | notRewindable
  | rewindable
  | markRestore
  deriving DecidableEq, Repr, Inhabited

namespace Rewindability

/-- The strength of a level; a stronger one includes the weaker ones. -/
def rank : Rewindability → Nat
  | .notRewindable => 0
  | .rewindable => 1
  | .markRestore => 2

/-- The text of a level. -/
def text : Rewindability → String
  | .notRewindable => "none"
  | .rewindable => "rewindable"
  | .markRestore => "mark-restore"

instance : PhysicalProperty Rewindability where
  satisfies delivered required matching :=
    match matching with
    | .exact => delivered == required || required == .notRewindable
    | .satisfy | .subset => decide (required.rank ≤ delivered.rank)
  isRequired level := level != .notRewindable
  text := text

end Rewindability

end QueryPlanner
