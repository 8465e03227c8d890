import Cascade.Property.Distribution
import Cascade.Property.Logical
import Cascade.Scalar.Aggregate

/-!
Relational operators. Logical operators say what a query computes, physical ones how. Enforcers are
the physical operators that change how rows are delivered and nothing else.
-/

namespace Cascade

inductive JoinType
  | inner
  | leftOuter
  /-- preserves the rows of the right input -/
  | rightOuter
  | leftSemi
  | leftAntiSemi
  /-- `NOT IN`: a `NULL` on the right rejects every left row -/
  | leftAntiSemiNotIn
  deriving DecidableEq, Repr

namespace JoinType

/-- Whether only the columns of the left input are produced. -/
def isSemiOrAnti : JoinType → Bool
  | leftSemi | leftAntiSemi | leftAntiSemiNotIn => true
  | _ => false

instance : ToString JoinType where
  toString
    | inner => "Inner"
    | leftOuter => "LeftOuter"
    | rightOuter => "RightOuter"
    | leftSemi => "LeftSemi"
    | leftAntiSemi => "LeftAntiSemi"
    | leftAntiSemiNotIn => "LeftAntiSemiNotIn"

end JoinType

/-- How the rows of a subquery, evaluated once per left row, are combined with that row. -/
inductive ApplyType
  | inner
  | leftOuter
  | semi
  | antiSemi
  deriving DecidableEq, Repr

namespace ApplyType

/-- The join that an apply is when its right side does not depend on the left row. -/
def joinType : ApplyType → JoinType
  | inner => .inner
  | leftOuter => .leftOuter
  | semi => .leftSemi
  | antiSemi => .leftAntiSemi

instance : ToString ApplyType := ⟨fun t => toString t.joinType⟩

end ApplyType

/-- The step of an aggregation that is computed in one or two steps. -/
inductive AggregateStage
  | single
  /-- partial results on every segment -/
  | localStage
  /-- combines partial results -/
  | globalStage
  deriving DecidableEq, Repr

instance : ToString AggregateStage where
  toString
    | .single => "Single"
    | .localStage => "Local"
    | .globalStage => "Global"

inductive DmlKind
  | insert
  | delete
  | update
  deriving DecidableEq, Repr

instance : ToString DmlKind where
  toString
    | .insert => "Insert"
    | .delete => "Delete"
    | .update => "Update"

/-- A computed column. A column that is passed on is assigned to itself. -/
abbrev Assignment := ColumnId × Scalar

/-- Reads the rows of a table. -/
structure Get where
  table : String
  relation : String
  columns : List ColumnId
  scanId : ScanId
  /-- the column of the partition key of a partitioned table -/
  partitionColumn : Option ColumnId
  deriving DecidableEq

/-- Groups rows and computes aggregates of every group. -/
structure Aggregation where
  groupBy : List ColumnId
  aggregates : List (ColumnId × AggregateCall)
  stage : AggregateStage
  deriving DecidableEq

/-- Keeps at most `count` rows after the first `offset` rows in an ordering. -/
structure RowLimit where
  offset : Nat
  count : Option Nat
  ordering : OrderSpec
  deriving DecidableEq

/-- Concatenates inputs; the columns of each input are renamed place by place. -/
structure Concatenation where
  output : List ColumnId
  inputColumns : List (List ColumnId)
  deriving DecidableEq

/-- A table of constants. -/
structure ConstantRows where
  columns : List ColumnId
  rows : List (List Value)
  deriving DecidableEq

/-- Reads a common table expression; its columns are renamed place by place. -/
structure CteRead where
  cte : CteId
  columns : List ColumnId
  producerColumns : List ColumnId
  deriving DecidableEq

/-- What a query computes. -/
inductive LogicalOp
  | get (get : Get)
  | select (filter : Scalar)
  | project (assignments : List Assignment)
  | join (type : JoinType) (on : Scalar)
  /-- an inner join of any number of inputs -/
  | naryJoin (on : Scalar)
  | aggregate (aggregation : Aggregation)
  | limit (limit : RowLimit)
  | unionAll (concatenation : Concatenation)
  | values (rows : ConstantRows)
  /-- writes the given columns of the input to the columns of a table, in the order of the table -/
  | dml (kind : DmlKind) (table : String) (columns : List ColumnId)
  /-- evaluates the right input for every row of the left one -/
  | apply (type : ApplyType) (on : Scalar)
  /-- the left input produces a common table expression, the right one reads it -/
  | cteAnchor (cte : CteId)
  | cteConsumer (read : CteRead)
  deriving DecidableEq

inductive LogicalKind
  | get
  | select
  | project
  | join
  | naryJoin
  | aggregate
  | limit
  | unionAll
  | values
  | dml
  | apply
  | cteAnchor
  | cteConsumer
  deriving DecidableEq, Repr

/-- The operators of a kind are named after it. -/
def LogicalKind.name : LogicalKind → String
  | get => "Get"
  | select => "Select"
  | project => "Project"
  | join => "Join"
  | naryJoin => "NAryJoin"
  | aggregate => "Aggregate"
  | limit => "Limit"
  | unionAll => "UnionAll"
  | values => "Values"
  | dml => "Dml"
  | apply => "Apply"
  | cteAnchor => "CteAnchor"
  | cteConsumer => "CteConsumer"

namespace LogicalOp

def kind : LogicalOp → LogicalKind
  | get _ => .get
  | select _ => .select
  | project _ => .project
  | join _ _ => .join
  | naryJoin _ => .naryJoin
  | aggregate _ => .aggregate
  | limit _ => .limit
  | unionAll _ => .unionAll
  | values _ => .values
  | dml _ _ _ => .dml
  | apply _ _ => .apply
  | cteAnchor _ => .cteAnchor
  | cteConsumer _ => .cteConsumer

def name (op : LogicalOp) : String := "Logical" ++ op.kind.name

/-- The number of inputs; none if any number will do. -/
def arity : LogicalOp → Option Nat
  | get _ | values _ | cteConsumer _ => some 0
  | select _ | project _ | aggregate _ | limit _ | dml _ _ _ => some 1
  | join _ _ | apply _ _ | cteAnchor _ => some 2
  | naryJoin _ | unionAll _ => none

end LogicalOp

/-- Reads a table; a dynamic scan reads the partitions a selector has chosen. -/
structure TableScan where
  table : String
  relation : String
  columns : List ColumnId
  scanId : ScanId
  dynamic : Bool
  distribution : Distribution
  deriving DecidableEq

/-- Reads the rows of a table that match a condition through an index, in the order of the index. -/
structure IndexScan where
  table : String
  relation : String
  index : String
  columns : List ColumnId
  condition : Scalar
  scanId : ScanId
  dynamic : Bool
  ordering : OrderSpec
  distribution : Distribution
  deriving DecidableEq

/-- Builds a hash table from the right input and probes it with the left one. The keys are equated
place by place; each listed dynamic scan of the right input reads only the partitions selected by the
values of a left key. -/
structure HashJoin where
  type : JoinType
  on : Scalar
  leftKeys : List ColumnId
  rightKeys : List ColumnId
  partitionScans : List (ScanId × ColumnId)
  deriving DecidableEq

/-- Looks up the rows of a table that match a row of the input through an index. -/
structure IndexJoin where
  type : JoinType
  table : String
  relation : String
  index : String
  columns : List ColumnId
  on : Scalar
  outerKeys : List ColumnId
  innerKeys : List ColumnId
  /-- the distribution of the table -/
  distribution : Distribution
  deriving DecidableEq

/-- Ways to move rows between segments. -/
inductive MotionKind
  /-- to a single node -/
  | gather
  /-- to a single node, keeping an ordering -/
  | gatherMerge (ordering : OrderSpec)
  /-- to every segment -/
  | broadcast
  /-- to the segment given by the hash of some columns -/
  | redistribute (columns : List ColumnId)
  /-- to any segment -/
  | random
  deriving DecidableEq

instance : ToString MotionKind where
  toString
    | .gather => "Gather"
    | .gatherMerge ordering => "GatherMerge ord=" ++ Text.bracketed ordering.columns
    | .broadcast => "Broadcast"
    | .redistribute columns => "Redistribute cols=" ++ Text.bracketed columns
    | .random => "Random"

/-- How a result is computed. -/
inductive PhysicalOp
  | tableScan (scan : TableScan)
  | indexScan (scan : IndexScan)
  | filter (filter : Scalar)
  | computeScalar (assignments : List Assignment)
  | hashJoin (join : HashJoin)
  | nestedLoopJoin (type : JoinType) (on : Scalar)
  | indexNestedLoopJoin (join : IndexJoin)
  | hashAggregate (aggregation : Aggregation)
  /-- expects its input sorted by the grouping columns -/
  | streamAggregate (aggregation : Aggregation)
  | limit (limit : RowLimit)
  | append (concatenation : Concatenation)
  | constTableGet (rows : ConstantRows)
  /-- the distribution is the one the table expects of the input -/
  | dml (kind : DmlKind) (table : String) (columns : List ColumnId) (distribution : Distribution)
  /-- computes a common table expression and then the input that reads it -/
  | sequence (cte : CteId)
  | cteScan (read : CteRead)
  | sort (ordering : OrderSpec)
  | motion (kind : MotionKind)
  /-- keeps rows so that they can be read again -/
  | spool
  /-- selects the partitions of a dynamic scan: itself, or by the values of a column of its input -/
  | partitionSelector (scanId : ScanId) (column : Option ColumnId)
  deriving DecidableEq

namespace PhysicalOp

def name : PhysicalOp → String
  | tableScan scan => if scan.dynamic then "DynamicTableScan" else "TableScan"
  | indexScan scan => if scan.dynamic then "DynamicIndexScan" else "IndexScan"
  | filter _ => "Filter"
  | computeScalar _ => "ComputeScalar"
  | hashJoin _ => "HashJoin"
  | nestedLoopJoin _ _ => "NestedLoopJoin"
  | indexNestedLoopJoin _ => "IndexNestedLoopJoin"
  | hashAggregate _ => "HashAggregate"
  | streamAggregate _ => "StreamAggregate"
  | limit _ => "Limit"
  | append _ => "Append"
  | constTableGet _ => "ConstTableGet"
  | dml _ _ _ _ => "Dml"
  | sequence _ => "Sequence"
  | cteScan _ => "CteScan"
  | sort _ => "Sort"
  | motion _ => "Motion"
  | spool => "Spool"
  | partitionSelector _ _ => "PartitionSelector"

/-- The number of inputs; none if any number will do. -/
def arity : PhysicalOp → Option Nat
  | tableScan _ | indexScan _ | constTableGet _ | cteScan _ => some 0
  | hashJoin _ | nestedLoopJoin _ _ | sequence _ => some 2
  | append _ => none
  | _ => some 1

/-- Whether the operator only changes how rows are delivered. -/
def isEnforcer : PhysicalOp → Bool
  | sort _ | motion _ | spool | partitionSelector _ _ => true
  | _ => false

/-- Whether the operator moves rows between segments. -/
def isMotion : PhysicalOp → Bool
  | motion _ => true
  | _ => false

end PhysicalOp

/-- A relational operator. -/
inductive Operator
  | logical (op : LogicalOp)
  | physical (op : PhysicalOp)
  deriving DecidableEq

namespace Operator

def name : Operator → String
  | logical op => op.name
  | physical op => op.name

def arity : Operator → Option Nat
  | logical op => op.arity
  | physical op => op.arity

def logical? : Operator → Option LogicalOp
  | logical op => some op
  | physical _ => none

def physical? : Operator → Option PhysicalOp
  | logical _ => none
  | physical op => some op

def isLogical (op : Operator) : Bool := op.logical?.isSome

end Operator

/-- Identifies a group of equivalent expressions of a memo. -/
structure GroupId where
  index : Nat
  deriving DecidableEq, Repr

instance : Inhabited GroupId := ⟨⟨0⟩⟩

/-- A number of at least two digits. -/
def twoDigits (n : Nat) : String := if n < 10 then "0" ++ toString n else toString n

instance : ToString GroupId := ⟨fun g => twoDigits g.index⟩

/-- A tree of operators. A leaf can stand for a whole group of equivalent expressions. -/
inductive Expr
  | group (id : GroupId)
  | node (op : Operator) (inputs : List Expr)

namespace Expr

instance : Inhabited Expr := ⟨.group ⟨0⟩⟩

def ofLogical (op : LogicalOp) (inputs : List Expr) : Expr := .node (.logical op) inputs

def ofPhysical (op : PhysicalOp) (inputs : List Expr) : Expr := .node (.physical op) inputs

def operator? : Expr → Option Operator
  | group _ => none
  | node op _ => some op

def logicalOp? (e : Expr) : Option LogicalOp := e.operator?.bind Operator.logical?

def inputs : Expr → List Expr
  | group _ => []
  | node _ inputs => inputs

def group? : Expr → Option GroupId
  | group id => some id
  | node _ _ => none

end Expr
end Cascade
