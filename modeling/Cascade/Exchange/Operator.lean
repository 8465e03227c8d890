import Cascade.Exchange.Property
/-!
Operators in the exchange format. An operator is an object whose field `k` says which operator it
is; its other fields are the attributes of that operator.
-/

namespace Cascade

namespace Decode

def joinType : Json → Decoded JoinType :=
  oneOf [("Inner", .inner), ("LeftOuter", .leftOuter), ("RightOuter", .rightOuter), ("LeftSemi", .leftSemi),
    ("LeftAntiSemi", .leftAntiSemi), ("LeftAntiSemiNotIn", .leftAntiSemiNotIn)]

def applyType : Json → Decoded ApplyType :=
  oneOf [("Inner", .inner), ("LeftOuter", .leftOuter), ("Semi", .semi), ("AntiSemi", .antiSemi)]

def stage : Json → Decoded AggregateStage :=
  oneOf [("Single", .single), ("Local", .localStage), ("Global", .globalStage)]

def dmlKind : Json → Decoded DmlKind := oneOf [("Insert", .insert), ("Delete", .delete), ("Update", .update)]

def assignments (cs : Option Columns) (x : Json) : Decoded (List Assignment) := listOf (pair nat (scalar cs)) x

def aggregation (cs : Option Columns) (x : Json) : Decoded Aggregation := do
  let groupBy ← listOf nat (x.field "group_by")
  let aggregates ← listOf (pair nat (aggregateCall cs)) (x.field "aggregates")
  let stage ← stage (x.field "stage")
  pure ⟨groupBy, aggregates, stage⟩

def rowLimit (x : Json) : Decoded RowLimit := do
  let offset ← orElse 0 nat (x.field "offset")
  let count ← optional nat (x.field "count")
  let ordering ← ordering (x.field "order")
  pure ⟨offset, count, ordering⟩

def concatenation (x : Json) : Decoded Concatenation := do
  let output ← listOf nat (x.field "output")
  let inputColumns ← listOf (listOf nat) (x.field "input_columns")
  pure ⟨output, inputColumns⟩

def rows (x : Json) : Decoded (List (List Value)) := listOf (listOf value) x

def constantRows (x : Json) : Decoded ConstantRows := do
  let columns ← listOf nat (x.field "columns")
  let rows ← rows (x.field "rows")
  pure ⟨columns, rows⟩

def cteRead (x : Json) : Decoded CteRead := do
  let cte ← nat (x.field "cte_id")
  let columns ← listOf nat (x.field "columns")
  let producer ← listOf nat (x.field "producer_columns")
  pure ⟨cte, columns, producer⟩

def motionKind (x : Json) : Decoded MotionKind := do
  match ← text (x.field "kind") with
  | "Gather" => pure .gather
  | "GatherMerge" => MotionKind.gatherMerge <$> ordering (x.field "ordering")
  | "Broadcast" => pure .broadcast
  | "Redistribute" => MotionKind.redistribute <$> listOf nat (x.field "columns")
  | "Random" => pure .random
  | _ => badInput

def operator (cs : Option Columns) (x : Json) : Decoded Operator := do
  let logical (op : LogicalOp) : Decoded Operator := pure (.logical op)
  let physical (op : PhysicalOp) : Decoded Operator := pure (.physical op)
  match ← text (x.field "k") with
  | "LogicalGet" =>
    let table ← text (x.field "table")
    let relation ← text (x.field "alias")
    let columns ← listOf nat (x.field "columns")
    let scanId ← nat (x.field "scan_id")
    let partition ← optional nat (x.field "partition_column")
    logical (.get ⟨table, relation, columns, scanId, partition⟩)
  | "LogicalSelect" => logical (.select (← scalar cs (x.field "filter")))
  | "LogicalProject" => logical (.project (← assignments cs (x.field "exprs")))
  | "LogicalJoin" =>
    let type ← joinType (x.field "type")
    let on ← scalar cs (x.field "on")
    logical (.join type on)
  | "LogicalNAryJoin" => logical (.naryJoin (← scalar cs (x.field "on")))
  | "LogicalAggregate" => logical (.aggregate (← aggregation cs x))
  | "LogicalLimit" => logical (.limit (← rowLimit x))
  | "LogicalUnionAll" => logical (.unionAll (← concatenation x))
  | "LogicalValues" => logical (.values (← constantRows x))
  | "LogicalDml" =>
    let kind ← dmlKind (x.field "kind")
    let table ← text (x.field "table")
    let columns ← listOf nat (x.field "columns")
    logical (.dml kind table columns)
  | "LogicalApply" =>
    let type ← applyType (x.field "type")
    let on ← scalar cs (x.field "on")
    logical (.apply type on)
  | "LogicalCteAnchor" => logical (.cteAnchor (← nat (x.field "cte_id")))
  | "LogicalCteConsumer" => logical (.cteConsumer (← cteRead x))
  | "TableScan" =>
    let table ← text (x.field "table")
    let relation ← text (x.field "alias")
    let columns ← listOf nat (x.field "columns")
    let scanId ← nat (x.field "scan_id")
    let dynamic ← flag (x.field "dynamic")
    let distribution ← distribution (x.field "distribution")
    physical (.tableScan ⟨table, relation, columns, scanId, dynamic, distribution⟩)
  | "IndexScan" =>
    let table ← text (x.field "table")
    let relation ← text (x.field "alias")
    let index ← text (x.field "index")
    let columns ← listOf nat (x.field "columns")
    let condition ← scalar cs (x.field "condition")
    let scanId ← nat (x.field "scan_id")
    let dynamic ← flag (x.field "dynamic")
    let ordering ← ordering (x.field "ordering")
    let distribution ← distribution (x.field "distribution")
    physical (.indexScan ⟨table, relation, index, columns, condition, scanId, dynamic, ordering, distribution⟩)
  | "Filter" => physical (.filter (← scalar cs (x.field "filter")))
  | "ComputeScalar" => physical (.computeScalar (← assignments cs (x.field "exprs")))
  | "HashJoin" =>
    let type ← joinType (x.field "type")
    let on ← scalar cs (x.field "on")
    let leftKeys ← listOf nat (x.field "left_keys")
    let rightKeys ← listOf nat (x.field "right_keys")
    let scans ← listOf (pair nat nat) (x.field "partition_scans")
    physical (.hashJoin ⟨type, on, leftKeys, rightKeys, scans⟩)
  | "NestedLoopJoin" =>
    let type ← joinType (x.field "type")
    let on ← scalar cs (x.field "on")
    physical (.nestedLoopJoin type on)
  | "IndexNestedLoopJoin" =>
    let type ← joinType (x.field "type")
    let table ← text (x.field "table")
    let relation ← text (x.field "alias")
    let index ← text (x.field "index")
    let columns ← listOf nat (x.field "columns")
    let on ← scalar cs (x.field "on")
    let outerKeys ← listOf nat (x.field "outer_keys")
    let innerKeys ← listOf nat (x.field "inner_keys")
    let distribution ← distribution (x.field "distribution")
    physical (.indexNestedLoopJoin ⟨type, table, relation, index, columns, on, outerKeys, innerKeys, distribution⟩)
  | "HashAggregate" => physical (.hashAggregate (← aggregation cs x))
  | "StreamAggregate" => physical (.streamAggregate (← aggregation cs x))
  | "Limit" => physical (.limit (← rowLimit x))
  | "Append" => physical (.append (← concatenation x))
  | "ConstTableGet" => physical (.constTableGet (← constantRows x))
  | "Dml" =>
    let kind ← dmlKind (x.field "kind")
    let table ← text (x.field "table")
    let columns ← listOf nat (x.field "columns")
    let distribution ← distribution (x.field "distribution")
    physical (.dml kind table columns distribution)
  | "Sequence" => physical (.sequence (← nat (x.field "cte_id")))
  | "CteScan" => physical (.cteScan (← cteRead x))
  | "Sort" => physical (.sort (← ordering (x.field "ordering")))
  | "Motion" => physical (.motion (← motionKind x))
  | "Spool" => physical .spool
  | "PartitionSelector" =>
    let scanId ← nat (x.field "scan_id")
    let column ← optional nat (x.field "column")
    physical (.partitionSelector scanId column)
  | _ => badInput

def physicalOp (cs : Option Columns) (x : Json) : Decoded PhysicalOp := do
  match ← operator cs x with
  | .physical op => pure op
  | .logical _ => badInput

def logicalOp (cs : Option Columns) (x : Json) : Decoded LogicalOp := do
  match ← operator cs x with
  | .logical op => pure op
  | .physical _ => badInput

end Decode

namespace Encode

def stage : AggregateStage → Json := text

def node (k : String) (fields : List (String × Json)) : Json := .obj (("k", .str k) :: fields)

def aggregation (a : Aggregation) : List (String × Json) :=
  [("group_by", list nat a.groupBy), ("aggregates", list (pair nat aggregateCall) a.aggregates),
    ("stage", stage a.stage)]

def rowLimit (l : RowLimit) : List (String × Json) :=
  [("offset", nat l.offset), ("count", optional nat l.count), ("order", ordering l.ordering)]

def concatenation (u : Concatenation) : List (String × Json) :=
  [("output", list nat u.output), ("input_columns", list (list nat) u.inputColumns)]

def constantRows (v : ConstantRows) : List (String × Json) :=
  [("columns", list nat v.columns), ("rows", list (list value) v.rows)]

def cteRead (r : CteRead) : List (String × Json) :=
  [("cte_id", nat r.cte), ("columns", list nat r.columns), ("producer_columns", list nat r.producerColumns)]

def assignments (l : List Assignment) : Json := list (pair nat scalar) l

def logicalOp (op : LogicalOp) : Json :=
  node op.name
    (match op with
    | .get g =>
      [("table", .str g.table), ("alias", .str g.relation), ("columns", list nat g.columns),
        ("scan_id", nat g.scanId), ("partition_column", optional nat g.partitionColumn)]
    | .select filter => [("filter", scalar filter)]
    | .project l => [("exprs", assignments l)]
    | .join type on => [("type", text type), ("on", scalar on)]
    | .naryJoin on => [("on", scalar on)]
    | .aggregate a => aggregation a
    | .limit l => rowLimit l
    | .unionAll u => concatenation u
    | .values v => constantRows v
    | .dml kind table columns => [("kind", text kind), ("table", .str table), ("columns", list nat columns)]
    | .apply type on =>
      let name :=
        match type with
        | .inner => "Inner"
        | .leftOuter => "LeftOuter"
        | .semi => "Semi"
        | .antiSemi => "AntiSemi"
      [("type", .str name), ("on", scalar on)]
    | .cteAnchor cte => [("cte_id", nat cte)]
    | .cteConsumer r => cteRead r)

def physicalOp (op : PhysicalOp) : Json :=
  match op with
  | .tableScan s =>
    node "TableScan" [("table", .str s.table), ("alias", .str s.relation), ("columns", list nat s.columns),
      ("scan_id", nat s.scanId), ("dynamic", .bool s.dynamic), ("distribution", distribution s.distribution)]
  | .indexScan s =>
    node "IndexScan" [("table", .str s.table), ("alias", .str s.relation), ("index", .str s.index),
      ("columns", list nat s.columns), ("condition", scalar s.condition), ("scan_id", nat s.scanId),
      ("dynamic", .bool s.dynamic), ("ordering", ordering s.ordering),
      ("distribution", distribution s.distribution)]
  | .filter filter => node "Filter" [("filter", scalar filter)]
  | .computeScalar l => node "ComputeScalar" [("exprs", assignments l)]
  | .hashJoin j =>
    node "HashJoin" [("type", text j.type), ("on", scalar j.on), ("left_keys", list nat j.leftKeys),
      ("right_keys", list nat j.rightKeys), ("partition_scans", list (pair nat nat) j.partitionScans)]
  | .nestedLoopJoin type on => node "NestedLoopJoin" [("type", text type), ("on", scalar on)]
  | .indexNestedLoopJoin j =>
    node "IndexNestedLoopJoin" [("type", text j.type), ("table", .str j.table), ("alias", .str j.relation),
      ("index", .str j.index), ("columns", list nat j.columns), ("on", scalar j.on),
      ("outer_keys", list nat j.outerKeys), ("inner_keys", list nat j.innerKeys),
      ("distribution", distribution j.distribution)]
  | .hashAggregate a => node "HashAggregate" (aggregation a)
  | .streamAggregate a => node "StreamAggregate" (aggregation a)
  | .limit l => node "Limit" (rowLimit l)
  | .append u => node "Append" (concatenation u)
  | .constTableGet v => node "ConstTableGet" (constantRows v)
  | .dml kind table columns d =>
    node "Dml" [("kind", text kind), ("table", .str table), ("columns", list nat columns),
      ("distribution", distribution d)]
  | .sequence cte => node "Sequence" [("cte_id", nat cte)]
  | .cteScan r => node "CteScan" (cteRead r)
  | .sort o => node "Sort" [("ordering", ordering o)]
  | .motion kind =>
    node "Motion"
      (match kind with
      | .gather => [("kind", .str "Gather")]
      | .gatherMerge o => [("kind", .str "GatherMerge"), ("ordering", ordering o)]
      | .broadcast => [("kind", .str "Broadcast")]
      | .redistribute columns => [("kind", .str "Redistribute"), ("columns", list nat columns)]
      | .random => [("kind", .str "Random")])
  | .spool => node "Spool" []
  | .partitionSelector scan column =>
    node "PartitionSelector" [("scan_id", nat scan), ("column", optional nat column)]

def operator : Operator → Json
  | .logical op => logicalOp op
  | .physical op => physicalOp op

end Encode

end Cascade
