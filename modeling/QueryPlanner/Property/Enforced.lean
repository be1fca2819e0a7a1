/-!
# Requirements on physical properties

A physical property of a plan is required with a matching discipline. `Enforced.isSatisfiedBy`
says whether a delivered value meets the requirement, and `Enforced.enforcement` says whether an
enforcer is needed when it does not.
-/

namespace QueryPlanner

/-- How strictly a delivered property must match a required one. -/
inductive MatchDiscipline where
  /-- The delivered value equals the required one. -/
  | exact
  /-- The delivered value is sufficient. -/
  | satisfy
  /-- The delivered value may use part of what is required; this matters for hashing only. -/
  | subset
  deriving DecidableEq, Repr, Inhabited

/-- The word for a discipline in the text of a requirement. -/
def MatchDiscipline.text : MatchDiscipline → String
  | .exact => "exact"
  | .satisfy => "satisfy"
  | .subset => "subset"

/-- Whether a property of an alternative has to be enforced. -/
inductive Enforcement where
  | unnecessary
  | required
  | prohibited
  deriving DecidableEq, Repr, Inhabited

namespace Enforcement

/-- The name of an enforcement decision. -/
def name : Enforcement → String
  | .unnecessary => "Unnecessary"
  | .required => "Required"
  | .prohibited => "Prohibited"

/-- An alternative may be costed for a requirement only when nothing needs enforcing. -/
def allowsCosting (decision : Enforcement) : Bool := decision == .unnecessary

/-- Whether the alternative is not allowed to meet the requirement through an enforcer. -/
def isProhibited (decision : Enforcement) : Bool := decision == .prohibited

end Enforcement

/-- What the physical properties have in common: when a delivered value meets a required one, and
when a value imposes a requirement at all. -/
class PhysicalProperty (S : Type) where
  satisfies : (delivered required : S) → MatchDiscipline → Bool
  isRequired : S → Bool
  text : S → String

/-- A required property with its matching discipline. -/
structure Enforced (S : Type) where
  spec : S
  matching : MatchDiscipline := .satisfy
  deriving DecidableEq, Repr, Inhabited

namespace Enforced

variable {S : Type} [PhysicalProperty S]

/-- Whether a delivered value meets the requirement. -/
def isSatisfiedBy (required : Enforced S) (delivered : S) : Bool :=
  PhysicalProperty.satisfies delivered required.spec required.matching

/-- Nothing is enforced when nothing is required or the requirement is met; otherwise an enforcer
is needed. -/
def enforcement (required : Enforced S) (delivered : S) : Enforcement :=
  if !PhysicalProperty.isRequired required.spec || required.isSatisfiedBy delivered then
    .unnecessary
  else
    .required

/-- The text of a requirement: the discipline around the property. -/
def text (required : Enforced S) : String :=
  required.matching.text ++ "(" ++ PhysicalProperty.text required.spec ++ ")"

end Enforced

end QueryPlanner
