import Cascade.Cost.Params
import Cascade.Rule.Id

/-!
Settings of an optimization.
-/

namespace Cascade

/-- A stage of the search: the rules it may use and what it may spend. -/
structure SearchStage where
  rules : RuleSet := RuleSet.all
  /-- milliseconds -/
  timeLimit : Option Nat := none
  /-- how many expressions the stage may add -/
  maxAlternatives : Option Nat := none
  /-- the stage ends once a plan costs no more than this -/
  costThreshold : Option Float := none

structure Config where
  cost : CostParams := {}
  /-- rules that are never applied -/
  disabledRules : RuleSet := ∅
  /-- joins of more tables than this are not reordered -/
  joinOrderThreshold : Nat := 10
  /-- whether the hash of some of the required columns is enough -/
  subsetHashMatching : Bool := false
  stages : List SearchStage := []
  /-- how many expressions there may be at all -/
  memoLimit : Nat := 100000
  /-- how many bindings of a rule are looked at -/
  maxBindings : Nat := 1000
  /-- whether the properties of every alternative are compared with those of its group -/
  verifyProperties : Bool := true
  /-- whether alternatives are given up once they cost more than the best plan -/
  costPruning : Bool := true

instance : Inhabited Config := ⟨{}⟩

/-- The stages of the search: without any there is a single unrestricted one. -/
def Config.searchStages (c : Config) : List SearchStage :=
  if c.stages.isEmpty then [{}] else c.stages

end Cascade
