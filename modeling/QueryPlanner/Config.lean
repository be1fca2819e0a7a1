/-!
# Configuration of a search

Budgets, the number of hosts, and the list of stages with their own limits.
-/

namespace QueryPlanner

/-- Limits of one stage of the search. -/
structure StageLimits where
  /-- Stop after this stage when the best plan costs at most this much. -/
  costThreshold : Option Float := none
  /-- The number of rule applications allowed within the stage. -/
  maxRuleApplications : Option Nat := none
  deriving Inhabited

/-- The names by which the limits of a stage are set, in their order. -/
def StageLimits.settingNames : List String := ["cost_threshold", "max_xform_applications"]

/-- The settings of a search. -/
structure SearchConfig where
  /-- Exploration stops applying rules once the memo has this many groups. -/
  maxGroups : Nat := 100000
  /-- The number of rule applications after which no further rule is started. -/
  maxIterations : Nat := 1000000
  /-- The number of hosts that partitioned results are spread over. -/
  segments : Nat := 3
  /-- Whether alternatives are pruned by lower bounds. -/
  pruning : Bool := true
  /-- Whether every group gets statistics after exploration. -/
  statisticsForAllGroups : Bool := true
  stages : List StageLimits := [{}]
  deriving Inhabited

namespace SearchConfig

/-- The names by which the settings are set, in their order. -/
def settingNames : List String :=
  ["max_memo_groups", "max_iterations", "segments", "enable_space_pruning",
    "derive_stats_for_all_groups", "stages"]

/-- The number of stages a search runs, at least one. -/
def stageCount (config : SearchConfig) : Nat := max config.stages.length 1

/-- The limits of a stage. A stage that is not listed has none. -/
def stage (config : SearchConfig) (index : Nat) : StageLimits :=
  config.stages[index]?.getD {}

end SearchConfig

end QueryPlanner
