import Cascade.Derivation.Logical
import Cascade.Estimate.Selectivity
import Cascade.Estimate.Statistics

/-!
Statistics of an operator, from those of its inputs and those of the tables it reads.
-/

namespace Cascade

/-- What is known of an input: its properties and its statistics. -/
structure InputEstimate where
  logical : LogicalProperties
  statistics : Statistics

namespace Statistics

/-- Scans know as much as the table. -/
def ofGet (g : Get) (c : Catalog) (cs : Columns) : Except PlanError Statistics :=
  match c.statistics? g.table with
  | none => .ok (ofRowCount unknownRowCount)
  | some t =>
    g.columns.foldlM (fun s id => do
      let info ← cs.get id
      match t.columns.get? info.name with
      | some column => pure (s.setDistinct id column.distinctCount)
      | none => pure s) (ofRowCount (Float.ofCount t.rowCount))

/-- The selectivity of a predicate over the rows of one input. -/
def selectivity (s : Statistics) (p : CostParams) (filter : Scalar) : Float :=
  SelectivityModel.selectivity ⟨p, fun c => some (s.distinctOrRows c)⟩ filter

/-- The number of distinct values of a column, according to the input that produces it. -/
def inputDistinct? (inputs : List InputEstimate) (c : ColumnId) : Option Float :=
  (inputs.find? (fun i => decide (c ∈ i.logical.output))).map (fun i => i.statistics.distinctOrRows c)

/-- The selectivity of a predicate over the product of inputs. -/
def joinSelectivity (inputs : List InputEstimate) (p : CostParams) (on : Scalar) : Float :=
  SelectivityModel.selectivity ⟨p, inputDistinct? inputs⟩ on

/-- A column that equals a literal has one value. -/
def fixedColumns (filter : Scalar) : List ColumnId :=
  filter.conjuncts.filterMap (fun e =>
    match e.columnComparison? with
    | some (c, .eq, _) => some c
    | _ => none)

def ofSelect (p : CostParams) (filter : Scalar) (input : Statistics) : Statistics :=
  let distinct := input.distinct.insertAll ((fixedColumns filter).map (fun c => (c, 1.0)))
  (ofRowCount (input.rowCount * input.selectivity p filter)).setAllDistinct distinct.entries

def ofProject (assignments : List Assignment) (input : Statistics) : Statistics :=
  (ofRowCount input.rowCount).setAllDistinct (assignments.filterMap (fun a =>
    match a.2 with
    | .column c => (input.distinct? c).map (fun d => (a.1, d))
    | _ => none))

def ofJoin (p : CostParams) (type : JoinType) (on : Scalar) (left right : InputEstimate) :
    Statistics :=
  let selectivity := joinSelectivity [left, right] p on
  let l := left.statistics
  let r := right.statistics
  let matching := l.rowCount * r.rowCount * selectivity
  let both := (l.distinct ∪ r.distinct).entries
  match type with
  | .inner => (ofRowCount matching).setAllDistinct both
  | .leftOuter => (ofRowCount (Float.larger l.rowCount matching)).setAllDistinct both
  | .rightOuter => (ofRowCount (Float.larger r.rowCount matching)).setAllDistinct both
  | .leftSemi => (ofRowCount (Float.smaller l.rowCount matching)).setAllDistinct l.distinct.entries
  | .leftAntiSemi | .leftAntiSemiNotIn =>
    let matched := Float.smaller (selectivity * r.rowCount) 1.0
    (ofRowCount (l.rowCount * (1.0 - matched))).setAllDistinct l.distinct.entries

def ofNaryJoin (p : CostParams) (on : Scalar) (inputs : List InputEstimate) : Statistics :=
  let rows := inputs.foldl (fun acc i => acc * i.statistics.rowCount) 1.0
  let distinct := inputs.foldl (fun acc i => acc ∪ i.statistics.distinct) (∅ : SortedMap ColumnId Float)
  (ofRowCount (rows * joinSelectivity inputs p on)).setAllDistinct distinct.entries

/-- There are no more groups than rows; every segment forms partial groups of its own. -/
def ofAggregate (p : CostParams) (a : Aggregation) (input : Statistics) : Statistics :=
  if a.groupBy.isEmpty && !decide (a.stage = .localStage) then ofRowCount 1.0
  else
    let groups := a.groupBy.foldl (fun acc c => acc * input.distinctOrRows c) 1.0
    let groups := if a.stage = .localStage then groups * Float.ofCount p.segments else groups
    let distinct := SortedMap.ofList (a.groupBy.filterMap (fun c => (input.distinct? c).map (c, ·)))
    (ofRowCount (Float.smaller input.rowCount groups)).setAllDistinct distinct.entries

def ofLimit (l : RowLimit) (input : Statistics) : Statistics :=
  let rest := Float.larger (input.rowCount - Float.ofCount l.offset) 0.0
  let rows :=
    match l.count with
    | some n => Float.smaller rest (Float.ofCount n)
    | none => rest
  (ofRowCount rows).setAllDistinct input.distinct.entries

def ofUnionAll (inputs : List InputEstimate) : Statistics :=
  ofRowCount (inputs.foldl (fun acc i => acc + i.statistics.rowCount) 0.0)

def ofCteConsumer (r : CteRead) (producer : Statistics) : Statistics :=
  let rename := (SortedMap.ofList (r.producerColumns.zip r.columns)).get?
  let distinct := SortedMap.ofList (producer.distinct.entries.filterMap (fun e => (rename e.1).map (·, e.2)))
  (ofRowCount producer.rowCount).setAllDistinct distinct.entries

end Statistics

namespace LogicalOp

/-- An input that the operator needs is missing. -/
def inputEstimate (op : LogicalOp) (inputs : List InputEstimate) (place : Nat) :
    Except PlanError InputEstimate :=
  match inputs[place]? with
  | some i => .ok i
  | none => .error (.internal (op.name ++ ": No statistics for input " ++ toString place))

/-- The statistics of an operator, given those of its inputs and, for a reader of a common table
expression, those of its producer. -/
def statistics (p : CostParams) (c : Catalog) (cs : Columns) (op : LogicalOp)
    (inputs : List InputEstimate) (producer : Option Statistics) : Except PlanError Statistics := do
  let input (place : Nat) : Except PlanError Statistics :=
    (op.inputEstimate inputs place).map InputEstimate.statistics
  match op with
  | get g => Statistics.ofGet g c cs
  | select filter => return Statistics.ofSelect p filter (← input 0)
  | project l => return Statistics.ofProject l (← input 0)
  | join type on =>
    return Statistics.ofJoin p type on (← op.inputEstimate inputs 0) (← op.inputEstimate inputs 1)
  | apply type on =>
    return Statistics.ofJoin p type.joinType on (← op.inputEstimate inputs 0)
      (← op.inputEstimate inputs 1)
  | naryJoin on => return Statistics.ofNaryJoin p on inputs
  | aggregate a => return Statistics.ofAggregate p a (← input 0)
  | limit l => return Statistics.ofLimit l (← input 0)
  | unionAll _ => return Statistics.ofUnionAll inputs
  | values v => return Statistics.ofRowCount (Float.ofCount v.rows.length)
  | dml _ _ _ => return Statistics.ofRowCount (← input 0).rowCount
  | cteAnchor _ => input 1
  | cteConsumer r =>
    match producer with
    | some s => return Statistics.ofCteConsumer r s
    | none => throw (.unscopedCte r.cte)

end LogicalOp
end Cascade
