import Cascade.Algebra.Operator

/-!
Texts of operators and of expression trees: a name followed by attributes, one operator per line,
inputs indented below.
-/

namespace Cascade

namespace Text

/-- A field of an operator. -/
def field {α : Type} [ToString α] (name : String) (value : α) : String :=
  " " ++ name ++ "=" ++ toString value

/-- A field without a name. -/
def bare {α : Type} [ToString α] (value : α) : String := " " ++ toString value

/-- A field with a list of values, which is left out if there are none. -/
def fieldList {α : Type} [ToString α] (name : String) (values : List α) : String :=
  if values.isEmpty then "" else " " ++ name ++ "=" ++ bracketed values

/-- `id=expression` for every assigned column. -/
def assignments {α : Type} [ToString α] (l : List (ColumnId × α)) : List String :=
  l.map (fun a => toString a.1 ++ "=" ++ toString a.2)

/-- Lines of a tree: the text of a node and the lines of its inputs, indented by two blanks. -/
def treeLines (text : String) (inputs : List (List String)) : List String :=
  text :: inputs.flatten.map ("  " ++ ·)

end Text

open Text

/-- The alias, where it differs from the table. -/
def aliasText (table relation : String) : String := if relation = table then "" else field "alias" relation

namespace Aggregation

def attributes (a : Aggregation) : String :=
  (if a.stage = .single then "" else field "stage" a.stage)
    ++ fieldList "group_by" a.groupBy
    ++ fieldList "aggregates" (assignments a.aggregates)

end Aggregation

namespace RowLimit

/-- The skipped and the kept rows. -/
def bounds (l : RowLimit) : String :=
  (if l.offset > 0 then field "offset" l.offset else "")
    ++ (match l.count with
      | some n => field "count" n
      | none => "")

end RowLimit

namespace ConstantRows

def attributes (v : ConstantRows) : String :=
  fieldList "cols" v.columns ++ field "rows" v.rows.length

end ConstantRows

namespace CteRead

def attributes (r : CteRead) : String := field "cte" r.cte ++ fieldList "cols" r.columns

end CteRead

namespace LogicalOp

def attributes : LogicalOp → String
  | get g => bare g.table ++ aliasText g.table g.relation ++ fieldList "cols" g.columns
  | select filter => field "filter" filter
  | project l => fieldList "cols" (assignments l)
  | join type on => field "type" type ++ field "on" on
  | naryJoin on => field "on" on
  | aggregate a => a.attributes
  | limit l => l.bounds ++ fieldList "order" l.ordering.columns
  | unionAll u => fieldList "cols" u.output
  | values v => v.attributes
  | dml kind table columns => bare kind ++ field "table" table ++ fieldList "cols" columns
  | apply type on => field "type" type ++ field "on" on
  | cteAnchor cte => field "cte" cte
  | cteConsumer r => r.attributes

instance : ToString LogicalOp := ⟨fun op => op.name ++ op.attributes⟩

end LogicalOp

namespace PhysicalOp

def attributes : PhysicalOp → String
  | tableScan s => bare s.table ++ aliasText s.table s.relation ++ fieldList "cols" s.columns
  | indexScan s =>
    bare s.table ++ field "index" s.index ++ fieldList "cols" s.columns
      ++ field "cond" s.condition
  | filter condition => field "filter" condition
  | computeScalar l => fieldList "cols" (assignments l)
  | hashJoin j =>
    field "type" j.type ++ field "on" j.on
      ++ fieldList "dpe" (j.partitionScans.map Prod.fst)
  | nestedLoopJoin type on => field "type" type ++ field "on" on
  | indexNestedLoopJoin j =>
    field "type" j.type ++ field "table" j.table ++ field "index" j.index
      ++ field "on" j.on
  | hashAggregate a => a.attributes
  | streamAggregate a => a.attributes
  | limit l => l.bounds
  | append u => fieldList "cols" u.output
  | constTableGet v => v.attributes
  | dml kind table _ _ => bare kind ++ field "table" table
  | sequence cte => field "cte" cte
  | cteScan r => r.attributes
  | sort ordering => fieldList "ord" ordering.columns
  | motion kind => bare kind
  | spool => ""
  | partitionSelector scanId column =>
    field "scan" scanId ++ (match column with
      | some c => field "propagate" c
      | none => "")

instance : ToString PhysicalOp := ⟨fun op => op.name ++ op.attributes⟩

end PhysicalOp

instance : ToString Operator where
  toString
    | .logical op => toString op
    | .physical op => toString op

namespace Expr

mutual

/-- The lines of a tree. -/
def lines : Expr → List String
  | .group id => ["Group " ++ toString id]
  | .node op inputs => treeLines (toString op) (inputLines inputs)

def inputLines : List Expr → List (List String)
  | [] => []
  | e :: es => e.lines :: inputLines es

end

instance : ToString Expr := ⟨fun e => "\n".intercalate e.lines⟩

end Expr
end Cascade
