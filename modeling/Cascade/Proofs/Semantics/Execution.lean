import Cascade.Proofs.Semantics.Ordering
import Cascade.Proofs.Semantics.Query

/-!
What physical operators do. Every node of a cluster delivers a sequence of rows. A motion sends rows from node to node,
and every other operator works on what its inputs deliver on the same node (`PhysicalOp.Delivers`).
-/

namespace Cascade

/-- A database spread over some nodes. -/
structure Cluster (N : Type) extends Interpretation where
  /-- the values of outer columns -/
  binding : Binding
  /-- the rows of a table that a node stores, by the names of its columns -/
  stored : String → N → Multiset (String → Value)
  /-- the rows of a common table expression that a node has kept -/
  produced : CteId → N → List Row
  segments : List N
  /-- the single node that rows are gathered on -/
  coordinator : N
  /-- the node that rows with some values are sent to -/
  hash : List Value → N
  /-- the order that values are sorted in -/
  order : Value → Value → Ordering
  trans_order : Std.TransCmp order

/-- The sequences of rows that the nodes deliver. -/
structure Stream (N : Type) where
  columns : ColumnSet
  rows : N → List Row
  rows_over : ∀ n, ∀ r ∈ rows n, r.Over columns

variable {N : Type}

namespace Cluster

variable (K : Cluster N)

instance : Std.TransCmp K.order := K.trans_order

def nodes : List N := K.coordinator :: K.segments

/-- The rows of a table that a node stores. -/
def localRows (table : String) (columns : List ColumnId) (n : N) : Multiset Row :=
  (K.stored table n).map (fun t => .ofPairs (columns.map (fun c => (c, t (K.columnName c)))))

/-- A node delivers rows of a table for which a condition holds: all of them, unless the scan is dynamic and reads some
partitions only. -/
structure Scans (table : String) (columns : List ColumnId) (dynamic : Bool) (holds : Row → Bool) (n : N)
    (rows : List Row) : Prop where
  le : (rows : Multiset Row) ≤ (K.localRows table columns n).filter (fun r => holds r = true)
  all : dynamic = false → (rows : Multiset Row) = (K.localRows table columns n).filter (fun r => holds r = true)

def holds (e : Scalar) (r : Row) : Bool := e.holds K.toFunctions (K.binding.with r)

/-- What a left row contributes to a join with some right rows. -/
def contribution (type : JoinType) (on : Scalar) (right : ColumnSet) (l : Row) (rows : Multiset Row) : Multiset Row :=
  type.contribution (fun r => on.truth K.toFunctions (K.binding.with r)) (.nulls right) l rows

/-- The right rows of a right outer join that match no left row. -/
def unmatched (type : JoinType) (on : Scalar) (left : ColumnSet) (l r : List Row) : Multiset Row :=
  if type = .rightOuter then
    JoinType.unmatched (fun r => on.truth K.toFunctions (K.binding.with r)) (.nulls left) l r
  else 0

/-- The row of a group: its key and what is computed from its rows. -/
def groupRow (a : Aggregation) (key : List (ColumnId × Value)) (rows : Multiset Row) : Row :=
  .ofPairs (key ++ a.aggregates.map (fun x => (x.1, x.2.value K.toInterpretation K.binding rows)))

/-- The key of a row, or the key without columns if there is no row. -/
def key (a : Aggregation) (r : Option Row) : List (ColumnId × Value) :=
  Relation.groupKey a.groupBy (r.elim K.binding K.binding.with)

/-- Rows next to each other with the same key. Without grouping columns all rows are together, even if there are none. -/
def runs (a : Aggregation) (rows : List Row) : List (List Row) :=
  if a.groupBy.isEmpty then [rows] else rows.splitBy (fun r s => K.key a (some r) = K.key a (some s))

/-- The nodes that send their rows: all of them, or one that has the rows that every segment has. -/
def Sends (input : N → List Row) (senders : List N) : Prop :=
  senders = K.nodes ∨ ∃ n, senders = [n] ∧ ∀ k ∈ K.segments, (input k).Perm (input n)

/-- Sequences arrive at the same time. -/
def Arrives (sent : List (List Row)) (received : List Row) : Prop := Merged (fun _ _ => True) sent received

variable [DecidableEq N]

/-- What a motion of some nodes' rows delivers. -/
def Moves (input : N → List Row) (senders : List N) (output : N → List Row) : MotionKind → Prop
  | .gather => Arrives (senders.map input) (output K.coordinator) ∧ ∀ n, n ≠ K.coordinator → output n = []
  | .gatherMerge ordering =>
    Merged (ordering.Le K.order) (senders.map input) (output K.coordinator) ∧ ∀ n, n ≠ K.coordinator → output n = []
  | .broadcast => ∀ n, if n ∈ K.segments then Arrives (senders.map input) (output n) else output n = []
  | .redistribute columns => ∀ n,
    Arrives (senders.map (fun s => (input s).filter (fun r => K.hash (columns.map (K.binding.with r)) = n))) (output n)
  | .random => ∃ dealt : N → N → List Row, (∀ s ∈ senders, Arrives (K.segments.map (dealt s)) (input s)) ∧
    ∀ n, if n ∈ K.segments then Arrives (senders.map (fun s => dealt s n)) (output n) else output n = []

end Cluster

/-- A column is assigned the value of its expression. -/
def Assigns (F : Functions) (b : Binding) (l : List Assignment) (r s : Row) : Prop :=
  ∀ a ∈ l, s a.1 = some (a.2.eval F (b.with r))

/-- The rows a limit keeps. -/
def RowLimit.of (l : RowLimit) (rows : List Row) : List Row :=
  let rest := rows.drop l.offset
  l.count.elim rest rest.take

/-- What an operator delivers, from what its inputs deliver. -/
inductive PhysicalOp.Delivers [DecidableEq N] (K : Cluster N) : PhysicalOp → List (Stream N) → Stream N → Prop
  | tableScan {s : TableScan} {out : Stream N} (hcolumns : out.columns = .ofList s.columns)
    (hrows : ∀ n, K.Scans s.table s.columns s.dynamic (fun _ => true) n (out.rows n)) : Delivers K (.tableScan s) [] out
  /-- an index has its rows in the order of its columns -/
  | indexScan {s : IndexScan} {out : Stream N} (hcolumns : out.columns = .ofList s.columns)
    (hrows : ∀ n, K.Scans s.table s.columns s.dynamic (K.holds s.condition) n (out.rows n))
    (hsorted : ∀ n, s.ordering.Sorts K.order (out.rows n)) : Delivers K (.indexScan s) [] out
  | constTableGet {v : ConstantRows} {out : Stream N} (hcolumns : out.columns = .ofList v.columns)
    (hrows : ∀ n, out.rows n =
      v.rows.map (fun row => .ofPairs (v.columns.zipIdx.map (fun a => (a.1, (row[a.2]?).getD .null))))) :
    Delivers K (.constTableGet v) [] out
  | cteScan {r : CteRead} {out : Stream N} (hcolumns : out.columns = .ofList r.columns)
    (hrows : ∀ n, out.rows n = (K.produced r.cte n).map (fun row => .ofPairs (r.columns.zipIdx.map (fun a =>
      (a.1, (r.producerColumns[a.2]?).elim .null (K.binding.with row)))))) : Delivers K (.cteScan r) [] out
  | filter {e : Scalar} {input out : Stream N} (hcolumns : out.columns = input.columns)
    (hrows : ∀ n, out.rows n = (input.rows n).filter (K.holds e)) : Delivers K (.filter e) [input] out
  | computeScalar {l : List Assignment} {input out : Stream N} (hcolumns : out.columns = .ofList (l.map Prod.fst))
    (hrows : ∀ n, List.Forall₂ (Assigns K.toFunctions K.binding l) (input.rows n) (out.rows n)) :
    Delivers K (.computeScalar l) [input] out
  /-- the rows come in any order -/
  | hashJoin {j : HashJoin} {left right out : Stream N} (hcolumns : out.columns = j.type.columns left.columns right.columns)
    (hrows : ∀ n, (out.rows n : Multiset Row) =
      (left.rows n : Multiset Row).bind (fun l => K.contribution j.type j.on right.columns l (right.rows n)) +
        K.unmatched j.type j.on left.columns (left.rows n) (right.rows n)) : Delivers K (.hashJoin j) [left, right] out
  /-- left row by left row, and the right rows that match none at last -/
  | nestedLoopJoin {type : JoinType} {on : Scalar} {left right out : Stream N}
    (hcolumns : out.columns = type.columns left.columns right.columns) (parts : N → List (List Row)) (rest : N → List Row)
    (hparts : ∀ n, List.Forall₂ (fun l (part : List Row) =>
      (part : Multiset Row) = K.contribution type on right.columns l (right.rows n)) (left.rows n) (parts n))
    (hrest : ∀ n, (rest n : Multiset Row) = K.unmatched type on left.columns (left.rows n) (right.rows n))
    (hrows : ∀ n, out.rows n = (parts n).flatten ++ rest n) : Delivers K (.nestedLoopJoin type on) [left, right] out
  | indexNestedLoopJoin {j : IndexJoin} {input out : Stream N}
    (hcolumns : out.columns = j.type.columns input.columns (.ofList j.columns)) (parts : N → List (List Row))
    (hparts : ∀ n, List.Forall₂ (fun l (part : List Row) =>
      (part : Multiset Row) = K.contribution j.type j.on (.ofList j.columns) l (K.localRows j.table j.columns n))
        (input.rows n) (parts n))
    (hrows : ∀ n, out.rows n = (parts n).flatten) : Delivers K (.indexNestedLoopJoin j) [input] out
  /-- the groups come in any order -/
  | hashAggregate {a : Aggregation} {input out : Stream N}
    (hcolumns : out.columns = .ofList (a.groupBy ++ a.aggregates.map Prod.fst))
    (hrows : ∀ n, (out.rows n : Multiset Row) =
      (Relation.groupKeys a.groupBy K.binding (input.rows n)).map (fun key =>
        K.groupRow a key (Relation.groupMembers a.groupBy K.binding (input.rows n) key))) :
    Delivers K (.hashAggregate a) [input] out
  | streamAggregate {a : Aggregation} {input out : Stream N}
    (hcolumns : out.columns = .ofList (a.groupBy ++ a.aggregates.map Prod.fst))
    (hrows : ∀ n, out.rows n =
      (K.runs a (input.rows n)).map (fun (run : List Row) => K.groupRow a (K.key a run.head?) run)) :
    Delivers K (.streamAggregate a) [input] out
  | limit {l : RowLimit} {input out : Stream N} (hcolumns : out.columns = input.columns)
    (hrows : ∀ n, out.rows n = l.of (input.rows n)) : Delivers K (.limit l) [input] out
  | append {u : Concatenation} {inputs : List (Stream N)} {out : Stream N} (hcolumns : out.columns = .ofList u.output)
    (hrows : ∀ n, out.rows n = (inputs.zip u.inputColumns).flatMap (fun x => (x.1.rows n).map (fun row =>
      .ofPairs (u.output.zipIdx.map (fun a => (a.1, (x.2[a.2]?).elim .null (K.binding.with row))))))) :
    Delivers K (.append u) inputs out
  | dml {kind : DmlKind} {table : String} {columns : List ColumnId} {distribution : Distribution} {input out : Stream N}
    (hcolumns : out.columns = ∅)
    (hrows : ∀ n, out.rows n = List.replicate
      (K.written kind table ((input.rows n : Multiset Row).map (fun r => columns.map (K.binding.with r)))) (fun _ => none)) :
    Delivers K (.dml kind table columns distribution) [input] out
  /-- what is kept of the first input is read below the second one -/
  | sequence {cte : CteId} {producer body : Stream N} (hproduced : K.produced cte = producer.rows) :
    Delivers K (.sequence cte) [producer, body] body
  | sort {ordering : OrderSpec} {input out : Stream N} (hcolumns : out.columns = input.columns)
    (hrows : ∀ n, (out.rows n).Perm (input.rows n)) (hsorted : ∀ n, ordering.Sorts K.order (out.rows n)) :
    Delivers K (.sort ordering) [input] out
  | motion {kind : MotionKind} {input out : Stream N} (hcolumns : out.columns = input.columns) {senders : List N}
    (hsenders : K.Sends input.rows senders) (hrows : K.Moves input.rows senders out.rows kind) :
    Delivers K (.motion kind) [input] out
  | spool {input : Stream N} : Delivers K .spool [input] input
  /-- partitions are selected on the way -/
  | partitionSelector {scan : ScanId} {column : Option ColumnId} {input : Stream N} :
    Delivers K (.partitionSelector scan column) [input] input

end Cascade
