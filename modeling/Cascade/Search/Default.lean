import Cascade.Estimate.Cardinality
import Cascade.Search.Optimizer

/-!
The optimizer over the statistics of a catalog with the cost formulas of `CostParams`.
-/

namespace Cascade

/-- Properties and statistics as the catalog has them. -/
def Catalog.propertySource (c : Catalog) (p : CostParams) (cs : Columns) : PropertySource Statistics where
  logical := LogicalOp.properties c cs
  statistics op inputs producer :=
    op.statistics p c cs (inputs.map (fun i => ⟨i.1, i.2⟩)) producer

/-- A setup with nothing out of the ordinary. The clock stands still: a limit of no time at all is
reached at once, any other never. -/
def OptimizerSetup.ofCatalog (c : Catalog) (config : Config) (hints : Hints) : OptimizerSetup Statistics Cost where
  catalog := c
  config
  hints
  costModel := config.cost.costModel
  source := c.propertySource config.cost
  order := RuleId.all
  costOf := Cost.ofFloat
  cancelled := false
  clock _ := 0
  fuel := 1000000000

end Cascade
