import QueryPlanner.Column
import QueryPlanner.Property.Enforced

/-!
# Distributions

A distribution says where the rows of a result are: on one host, spread over the hosts by hashing
or at random, or repeated on every host. A hashed result meets a hashing requirement when its hash
columns are among the required ones.
-/

namespace QueryPlanner

/-- Where the rows of a result are. -/
inductive Distribution where
  /-- Anywhere; as a requirement, none. -/
  | any
  /-- On more than one host, in any way. -/
  | nonSingleton
  /-- On one host. -/
  | singleton
  /-- Spread by a hash of the columns. When `nullsColocated`, rows with missing keys meet on one
  host. -/
  | hashed (columns : List Column) (nullsColocated : Bool)
  /-- Spread at random. -/
  | random
  /-- A copy on every host. -/
  | replicated
  /-- Available on every host without being stored there. -/
  | universal
  deriving DecidableEq, Repr, Inhabited

namespace Distribution

/-- Hashing that brings missing keys together. -/
def hashedOn (columns : List Column) : Distribution := .hashed columns true

/-- Whether each host has only part of the rows. -/
def isPartitioned : Distribution → Bool
  | .hashed _ _ | .random => true
  | _ => false

/-- Whether the rows are spread by hashing. -/
def isHashed : Distribution → Bool
  | .hashed _ _ => true
  | _ => false

/-- Whether the rows are on one host. -/
def isSingleton : Distribution → Bool
  | .singleton => true
  | _ => false

/-- The hash columns of a hashed distribution. -/
def hashColumns? : Distribution → Option (List Column)
  | .hashed columns _ => some columns
  | _ => none

/-- Whether two inputs can meet in one operator without being moved: a single stream cannot meet a
partitioned one. -/
def compatible (left right : Distribution) : Bool :=
  !((left.isSingleton && right.isPartitioned) || (right.isSingleton && left.isPartitioned))

/-- Hashing on part of the required columns is enough, as long as missing keys meet when that is
asked for. -/
def hashingSuffices (delivered : List Column) (deliveredNulls : Bool) (required : List Column)
    (requiredNulls : Bool) : Bool :=
  !(delivered.isEmpty || (requiredNulls && !deliveredNulls)) &&
    delivered.all fun column => decide (column ∈ required)

/-- Whether a delivered distribution meets a required one. -/
def satisfies (delivered required : Distribution) (matching : MatchDiscipline) : Bool :=
  match delivered, required with
  | _, .any => true
  | .hashed deliveredColumns deliveredNulls, .hashed requiredColumns requiredNulls =>
    match matching with
    | .exact =>
      deliveredColumns == requiredColumns && (deliveredNulls == requiredNulls || !requiredNulls)
    | .satisfy | .subset =>
      hashingSuffices deliveredColumns deliveredNulls requiredColumns requiredNulls
  | _, _ =>
    if matching == .exact then delivered == required
    else match delivered, required with
      | .hashed _ _, .nonSingleton | .random, .nonSingleton | .replicated, .nonSingleton
      | .universal, .nonSingleton => true
      | .singleton, .singleton | .universal, .singleton => true
      | .random, .random | .hashed _ _, .random => true
      | .replicated, .replicated | .universal, .replicated => true
      | .universal, .universal => true
      | _, _ => false

/-- The text of a distribution. -/
def text : Distribution → String
  | .any => "any"
  | .nonSingleton => "non-singleton"
  | .singleton => "singleton"
  | .hashed columns _ => "hashed(" ++ Column.listText columns ++ ")"
  | .random => "random"
  | .replicated => "replicated"
  | .universal => "universal"

instance : PhysicalProperty Distribution where
  satisfies := satisfies
  isRequired distribution := distribution != .any
  text := text

end Distribution

end QueryPlanner
