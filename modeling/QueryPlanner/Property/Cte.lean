import QueryPlanner.Keyed.Map

/-!
# Common table expressions

A common table expression is produced once and consumed by other parts of the plan. A `CteMap`
says which of them a plan produces or consumes; a `CteRequirement` says which ones its context
expects, and whether each of them is mandatory.
-/

namespace QueryPlanner

/-- The number of a common table expression. -/
abbrev CteId := Nat

/-- The part a plan plays for a common table expression. -/
inductive CteRole where
  | producer
  | consumer
  deriving DecidableEq, Repr, Inhabited

/-- The name of a role. -/
def CteRole.name : CteRole → String
  | .producer => "Producer"
  | .consumer => "Consumer"

/-- What is expected of a common table expression. -/
structure CteExpectation where
  role : CteRole
  mandatory : Bool
  deriving DecidableEq, Repr

/-- The common table expressions a context expects. -/
structure CteRequirement where
  ctes : KeyedMap CteId CteExpectation
  deriving DecidableEq

namespace CteRequirement

/-- Nothing is expected. -/
def empty : CteRequirement := ⟨.empty⟩

instance : Inhabited CteRequirement := ⟨empty⟩

/-- What is expected of one of them. -/
def get? (required : CteRequirement) (cte : CteId) : Option CteExpectation := required.ctes.get? cte

/-- Whether nothing is expected. -/
def isEmpty (required : CteRequirement) : Bool := required.ctes.isEmpty

/-- The same expectations, none of them mandatory. -/
def allOptional (required : CteRequirement) : CteRequirement :=
  ⟨required.ctes.mapValues fun expected => { expected with mandatory := false }⟩

/-- The text of a requirement: each number with its role, and a mark when it is optional. -/
def text (required : CteRequirement) : String :=
  "[" ++ ",".intercalate (required.ctes.entries.map fun entry =>
    toString entry.1 ++ ":" ++ entry.2.role.name ++ if entry.2.mandatory then "" else "?") ++ "]"

end CteRequirement

/-- The common table expressions a plan produces or consumes. -/
structure CteMap where
  ctes : KeyedMap CteId CteRole
  deriving DecidableEq

namespace CteMap

/-- None. -/
def empty : CteMap := ⟨.empty⟩

instance : Inhabited CteMap := ⟨empty⟩

/-- A single one. -/
def single (cte : CteId) (role : CteRole) : CteMap := ⟨KeyedMap.empty.insert cte role⟩

/-- The role the plan has for one of them. -/
def get? (map : CteMap) (cte : CteId) : Option CteRole := map.ctes.get? cte

/-- Whether there is none. -/
def isEmpty (map : CteMap) : Bool := map.ctes.isEmpty

/-- The maps of two siblings together. A producer keeps its role next to a consumer of the same
expression. -/
def combine (left right : CteMap) : CteMap :=
  ⟨right.ctes.entries.foldl (fun found entry =>
    match found.get? entry.1 with
    | some .producer => found
    | _ => found.insert entry.1 entry.2) left.ctes⟩

/-- Whether the plan has every expected role and every mandatory one, and consumes nothing that is
not expected. -/
def satisfies (map : CteMap) (required : CteRequirement) : Bool :=
  required.ctes.entries.all (fun entry =>
    match map.get? entry.1 with
    | some role => role == entry.2.role
    | none => !entry.2.mandatory) &&
  map.ctes.entries.all fun entry => entry.2 != .consumer || required.ctes.contains entry.1

end CteMap

end QueryPlanner
