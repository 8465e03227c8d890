import Cascade.Cost.Basic
import Cascade.Algebra.Operator
import Cascade.Cost.Params
import Cascade.Estimate.Statistics
import Cascade.Property.Physical

/-!
Cost models. A model gives the cost of a plan from its topmost operator and what is known of the
inputs; it includes the costs of the inputs.
-/

namespace Cascade

/-- What a cost depends on, apart from the operator. -/
structure CostSituation (σ κ : Type) where
  statistics : σ
  inputs : List σ
  inputCosts : List κ
  /-- what the inputs provide -/
  derived : List Derived
  required : Required

/-- The cost of the plans below an operator. -/
def CostSituation.inputCost {σ κ : Type} [Zero κ] [Add κ] (s : CostSituation σ κ) : κ :=
  Cost.sum s.inputCosts

/-- The cost of a plan, by its topmost operator. -/
abbrev CostModel (σ κ : Type) := PhysicalOp → CostSituation σ κ → κ

namespace CostSituation

variable (s : CostSituation Statistics Cost)

/-- The rows of an input; one if there is no such input. -/
def inputRows (place : Nat) : Float := (s.inputs[place]?.map Statistics.rowCount).getD 1.0

def outputRows : Float := s.statistics.rowCount

end CostSituation

namespace CostParams

/-- The number of segments that work on rows with a given distribution. -/
def parallelism (p : CostParams) : Option Distribution → Float
  | some (.hashed _) => p.workers
  | some .random => p.workers
  | _ => 1.0

/-- The cost of a motion. Rows are sent once, but a broadcast sends them to every segment; the
penalty of a broadcast is waived where correctness asks for it. -/
def motionCost (p : CostParams) (kind : MotionKind) (rows parallelism : Float)
    (required : RequiredDistribution) : Float :=
  let transfer := rows * (p.motionSendRow + p.motionReceiveRow)
  match kind with
  | .gather => transfer
  | .gatherMerge _ => transfer + rows * p.computeRow
  | .broadcast =>
    let penalty :=
      if rows > p.broadcastThreshold && !required.isMandatoryReplication then p.broadcastPenalty
      else 0.0
    transfer * p.workers / parallelism + penalty
  | .redistribute _ | .random => transfer / p.workers

/-- The cost of an operator itself. -/
def localCost (p : CostParams) (op : PhysicalOp) (s : CostSituation Statistics Cost) : Float :=
  let rows := s.outputRows
  let inputRows := s.inputRows 0
  let inputParallelism := p.parallelism (s.derived.head?.map Derived.distribution)
  match op with
  | .tableScan scan => rows * p.scanRow / p.parallelism (some scan.distribution)
  | .indexScan scan => rows * p.indexScanRow / p.parallelism (some scan.distribution)
  | .filter _ => inputRows * p.filterRow / inputParallelism
  | .computeScalar l => inputRows * p.computeRow * Float.ofCount (max l.length 1) / inputParallelism
  | .hashJoin _ =>
    let build := s.inputRows 1 * p.hashBuildRow
    let probe := inputRows * p.hashProbeRow
    (build + probe) / inputParallelism
  | .nestedLoopJoin _ _ => inputRows * s.inputRows 1 * p.nestedLoopRow / inputParallelism
  | .indexNestedLoopJoin _ => (inputRows * p.indexScanRow + rows * p.scanRow) / inputParallelism
  | .hashAggregate _ => (inputRows * p.aggregateRow + rows * p.hashBuildRow) / inputParallelism
  | .streamAggregate _ => inputRows * p.aggregateRow / inputParallelism
  | .limit _ => rows * p.filterRow
  | .append _ => s.inputs.foldl (fun acc i => acc + i.rowCount) 0.0 * p.computeRow
  | .constTableGet _ => rows * p.computeRow
  | .dml _ _ _ _ => inputRows * p.scanRow / inputParallelism
  | .sequence _ => inputRows * p.materializeRow / inputParallelism
  | .cteScan _ => rows * p.scanRow
  | .sort _ =>
    let perSegment := Float.larger (inputRows / inputParallelism) 1.0
    perSegment * Float.larger perSegment.log2 1.0 * p.sortRow
  | .motion kind => p.motionCost kind inputRows inputParallelism s.required.distribution
  | .spool => inputRows * p.materializeRow / inputParallelism
  | .partitionSelector _ _ => inputRows * p.filterRow / inputParallelism

/-- The cost model with formulas per operator. Work on distributed rows is shared by the segments. -/
def costModel (p : CostParams) : CostModel Statistics Cost := fun op s =>
  Cost.ofFloat (p.localCost op s) + s.inputCost

end CostParams
end Cascade
