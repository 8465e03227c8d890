import Cascade.Algebra.Display
import Cascade.Schema.Catalog
import Cascade.Schema.Columns

/-!
Logical properties of an operator, from those of its inputs. Every derivation ends in
`LogicalProperties.completed`, which keeps only what concerns the produced columns, minimizes the
keys and reads the equivalence classes off the constraint.
-/

namespace Cascade

namespace LogicalProperties

/-- Restricts properties to the produced columns and fills in the parts that follow from others. -/
def completed (p : LogicalProperties) : LogicalProperties :=
  let constraint := p.constraint.filter (fun e => e.columns.subset p.output)
  let keys : KeySet :=
    if p.maxCardinality.atMostOne then .singleton ∅
    else p.keys.filter (fun k => k.subset p.output)
  { p with
    notNull := p.notNull ∩ p.output
    outerRefs := p.outerRefs \ p.output
    constraint
    keys := KeySet.minimize keys
    equivalences := .ofPairs (constraint.toList.filterMap Scalar.columnEquality?) }

/-- The rows for which a predicate is true. -/
def restrict (p : LogicalProperties) (filter : Scalar) : LogicalProperties :=
  { p with
    notNull := p.notNull ∪ filter.nullRejectingColumns
    constraint := p.constraint ∪ filter.normalConjuncts
    outerRefs := p.outerRefs ∪ (filter.columns \ p.output) }

end LogicalProperties

open LogicalProperties

namespace Get

/-- The columns of a scan with the columns of the table they stand for, in order. -/
def tableColumns (g : Get) (t : Table) (cs : Columns) :
    Except PlanError (List (ColumnId × TableColumn)) :=
  g.columns.mapM (fun id => do
    let info ← cs.get id
    match t.column? info.name with
    | some c => pure (id, c)
    | none =>
      .error (.catalog ("Column does not exist. Table: " ++ g.table ++ " column: " ++ info.name)))

/-- The primary key, if the scan reads all of it. -/
def primaryKey? (t : Table) (columns : List (ColumnId × TableColumn)) : Option ColumnSet :=
  if t.primaryKey.isEmpty then none
  else
    (t.primaryKey.mapM (fun name =>
      (columns.reverse.find? (fun c => decide (c.2.name = name))).map Prod.fst)).map .ofList

def properties (g : Get) (c : Catalog) (cs : Columns) : Except PlanError LogicalProperties := do
  let t ← c.require g.table
  let columns ← g.tableColumns t cs
  pure
    { LogicalProperties.empty with
      output := .ofList g.columns
      notNull := .ofList ((columns.filter (fun c => !c.2.nullable)).map Prod.fst)
      keys := .ofList (primaryKey? t columns).toList
      maxCardinality := .unbounded
      relations := .singleton g.relation
      partitionConsumers := .ofList (g.partitionColumn.map (fun c => (g.scanId, c))).toList }

end Get

namespace LogicalProperties

/-- Renames the predicates whose columns all have a new name. -/
def renameConstraint (constraint : SortedSet Scalar) (rename : ColumnId → Option ColumnId) :
    SortedSet Scalar :=
  .ofList ((constraint.toList.filter (fun e => e.columns.toList.all (fun c => (rename c).isSome))).map
    (fun e => (e.mapColumns (fun c => (rename c).getD c)).normalize))

/-- Renames the keys whose columns all have a new name. -/
def renameKeys (keys : KeySet) (rename : ColumnId → Option ColumnId) : KeySet :=
  .ofList (keys.toList.filterMap (fun k => k.mapM? rename))

/-- The name a column has after a projection: its own if it is passed on under it, else the first
one it is given. -/
def projectedName? (assignments : List Assignment) (c : ColumnId) : Option ColumnId :=
  if assignments.any (fun a => decide (a.1 = c) && decide (a.2 = .column c)) then some c
  else (assignments.find? (fun a => decide (a.2 = .column c))).map Prod.fst

/-- Whether an expression over an input is never `NULL`. -/
def isNotNull (input : LogicalProperties) : Scalar → Bool
  | .column c => decide (c ∈ input.notNull)
  | .literal value => !value.isNull
  | _ => false

def ofProject (assignments : List Assignment) (input : LogicalProperties) : LogicalProperties :=
  let rename := projectedName? assignments
  { input with
    output := .ofList (assignments.map Prod.fst)
    notNull := .ofList ((assignments.filter (fun a => isNotNull input a.2)).map Prod.fst)
    keys := renameKeys input.keys rename
    equivalences := .none
    outerRefs := input.outerRefs ∪ (Scalar.argColumns (assignments.map Prod.snd) \ input.output)
    constraint := renameConstraint input.constraint rename }

/-- An outer join keeps every row of one input and pads it where the other input has no match. -/
def ofOuterJoin (preserved padded product : LogicalProperties) : LogicalProperties :=
  { product with
    notNull := preserved.notNull
    maxCardinality := preserved.maxCardinality.multiply padded.maxCardinality.atLeastOne
    constraint := preserved.constraint }

def ofJoin (type : JoinType) (on : Scalar) (left right : LogicalProperties) : LogicalProperties :=
  let product : LogicalProperties :=
    { output := left.output ∪ right.output
      notNull := left.notNull ∪ right.notNull
      keys := KeySet.combine left.keys right.keys
      equivalences := .none
      maxCardinality := left.maxCardinality.multiply right.maxCardinality
      outerRefs := (left.outerRefs ∪ right.outerRefs ∪ on.columns) \ (left.output ∪ right.output)
      constraint := left.constraint ∪ right.constraint
      relations := left.relations ∪ right.relations
      partitionConsumers := left.partitionConsumers ∪ right.partitionConsumers }
  let leftRows : LogicalProperties :=
    { product with
      output := left.output
      notNull := left.notNull
      keys := left.keys
      maxCardinality := left.maxCardinality
      constraint := left.constraint }
  let matching (p : LogicalProperties) : LogicalProperties :=
    { p with
      notNull := p.notNull ∪ on.nullRejectingColumns
      constraint := p.constraint ∪ on.normalConjuncts }
  match type with
  | .inner => matching product
  | .leftOuter => ofOuterJoin left right product
  | .rightOuter => ofOuterJoin right left product
  | .leftSemi => matching leftRows
  | .leftAntiSemi | .leftAntiSemiNotIn => leftRows

/-- An inner join of any number of inputs: their product, restricted to the rows that match. -/
def ofNaryJoin (on : Scalar) (first : LogicalProperties) (others : List LogicalProperties) :
    LogicalProperties :=
  (others.foldl (ofJoin .inner .true) first).restrict on

def ofAggregate (a : Aggregation) (input : LogicalProperties) : LogicalProperties :=
  let groupBy : ColumnSet := .ofList a.groupBy
  let referenced := a.aggregates.foldl (fun acc x => acc ∪ x.2.columns) groupBy
  -- a combination of partial results that are not null is not null either
  let combinesNotNull (call : AggregateCall) : Bool :=
    decide (a.stage = .globalStage) && !call.columns.isEmpty && call.columns.subset input.notNull
  let notNull := (a.aggregates.filter (fun x => x.2.func.isNotNull || combinesNotNull x.2)).map Prod.fst
  let keys := input.keys.filter (fun k => k.subset groupBy)
  { input with
    output := groupBy.insertAll (a.aggregates.map Prod.fst)
    notNull := (groupBy ∩ input.notNull).insertAll notNull
    keys := if a.stage = .localStage then keys else keys.insert groupBy
    equivalences := .none
    maxCardinality :=
      if a.stage ≠ .localStage ∧ groupBy.isEmpty then .bounded 1 else input.maxCardinality
    outerRefs := input.outerRefs ∪ (referenced \ input.output) }

def ofLimit (l : RowLimit) (input : LogicalProperties) : LogicalProperties :=
  { input with
    maxCardinality :=
      match l.count with
      | some n => input.maxCardinality.min (.bounded n)
      | none => input.maxCardinality
    outerRefs := input.outerRefs ∪ (l.ordering.columnSet \ input.output) }

/-- What several inputs have together, apart from columns. -/
def gathered (inputs : List LogicalProperties) : LogicalProperties :=
  inputs.foldl (fun acc i =>
    { acc with
      maxCardinality := acc.maxCardinality.add i.maxCardinality
      outerRefs := acc.outerRefs ∪ i.outerRefs
      relations := acc.relations ∪ i.relations
      partitionConsumers := acc.partitionConsumers ∪ i.partitionConsumers }) .empty

def ofUnionAll (u : Concatenation) (inputs : List LogicalProperties) :
    Except PlanError LogicalProperties :=
  if u.inputColumns.length ≠ inputs.length then
    .error (.argument
      ("UnionAll: Number of column mappings does not match the number of inputs. Expected "
        ++ toString inputs.length ++ " but got " ++ toString u.inputColumns.length))
  else
    match u.inputColumns.find? (fun columns => !decide (columns.length = u.output.length)) with
    | some columns =>
      .error (.argument ("UnionAll: Unexpected number of input columns: " ++ Text.bracketed columns
        ++ ". Output: " ++ Text.bracketed u.output))
    | none =>
      let notNull (place : Nat) : Bool :=
        (inputs.zip u.inputColumns).all (fun x => x.2[place]?.any (fun c => decide (c ∈ x.1.notNull)))
      .ok
        { gathered inputs with
          output := .ofList u.output
          notNull := .ofList ((u.output.zipIdx.filter (fun x => notNull x.2)).map Prod.fst) }

def ofValues (v : ConstantRows) : Except PlanError LogicalProperties :=
  match v.rows.find? (fun row => !decide (row.length = v.columns.length)) with
  | some row =>
    .error (.argument ("Values: Unexpected number of values in a row: "
      ++ Text.bracketed (row.map Value.constructorText) ++ ". Columns: " ++ Text.bracketed v.columns))
  | none =>
    let notNull (place : Nat) : Bool := v.rows.all (fun row => row[place]?.any (fun x => !x.isNull))
    .ok
      { LogicalProperties.empty with
        output := .ofList v.columns
        notNull := .ofList ((v.columns.zipIdx.filter (fun x => notNull x.2)).map Prod.fst)
        maxCardinality := .ofCount v.rows.length }

/-- A write produces no columns; nothing is said about the number of rows it reports. -/
def ofDml (input : LogicalProperties) : LogicalProperties :=
  { LogicalProperties.empty with
    maxCardinality := .unbounded
    outerRefs := input.outerRefs
    relations := input.relations
    partitionConsumers := input.partitionConsumers }

/-- The input that reads a common table expression also depends on what the producer depends on. -/
def ofCteAnchor (producer body : LogicalProperties) : LogicalProperties :=
  { body with
    outerRefs := body.outerRefs ∪ producer.outerRefs
    relations := body.relations ∪ producer.relations }

def ofCteConsumer (r : CteRead) (producer : LogicalProperties) : Except PlanError LogicalProperties :=
  if r.columns.length ≠ r.producerColumns.length then
    .error (.argument
      ("CTE consumer: Number of columns does not match the number of producer columns. CTE: "
        ++ toString r.cte))
  else
    let rename := (SortedMap.ofList (r.producerColumns.zip r.columns)).get?
    .ok
      { LogicalProperties.empty with
        output := .ofList r.columns
        notNull := .ofList (producer.notNull.toList.filterMap rename)
        keys := renameKeys producer.keys rename
        maxCardinality := producer.maxCardinality
        constraint := renameConstraint producer.constraint rename
        relations := producer.relations }

end LogicalProperties

namespace PlanError

/-- A reader of a common table expression stands where nothing produces it. -/
def unscopedCte (cte : CteId) : PlanError :=
  .argument ("CTE consumer outside of its anchor. CTE: " ++ toString cte)

end PlanError

namespace LogicalOp

/-- The operator has a number of inputs it cannot have. -/
def arityError (op : LogicalOp) (inputs : Nat) : PlanError :=
  match op.arity with
  | some n =>
    .argument (op.name ++ ": Unexpected number of inputs. Expected " ++ toString n ++ " but got "
      ++ toString inputs)
  | none => .argument (op.name ++ ": No inputs")

/-- The properties of an operator before they are completed. -/
def rawProperties (c : Catalog) (cs : Columns) (producer : Option LogicalProperties) :
    LogicalOp → List LogicalProperties → Except PlanError LogicalProperties
  | get g, [] => g.properties c cs
  | select filter, [input] => .ok (input.restrict filter)
  | project l, [input] => .ok (ofProject l input)
  | join type on, [l, r] => .ok (ofJoin type on l r)
  | naryJoin on, first :: others => .ok (ofNaryJoin on first others)
  | aggregate a, [input] => .ok (ofAggregate a input)
  | limit l, [input] => .ok (ofLimit l input)
  | unionAll u, first :: others => ofUnionAll u (first :: others)
  | values v, [] => ofValues v
  | dml _ _ _, [input] => .ok (ofDml input)
  | apply type on, [l, r] => .ok (ofJoin type.joinType on l r)
  | cteAnchor _, [anchored, body] => .ok (ofCteAnchor anchored body)
  | cteConsumer r, [] =>
    match producer with
    | some p => ofCteConsumer r p
    | none => .error (.unscopedCte r.cte)
  | op, inputs => .error (op.arityError inputs.length)

/-- The logical properties of an operator, given those of its inputs and, for a reader of a common
table expression, those of its producer. -/
def properties (c : Catalog) (cs : Columns) (op : LogicalOp) (inputs : List LogicalProperties)
    (producer : Option LogicalProperties) : Except PlanError LogicalProperties :=
  (op.rawProperties c cs producer inputs).map completed

end LogicalOp
end Cascade
