import Cascade.Rule.Basic

/-!
Implementation rules: physical expressions for logical ones. The inputs of a physical expression are
the input groups of the logical one, except that a join that looks rows up through an index does
without the table.
-/

namespace Cascade

variable {σ κ : Type}

namespace Rule

/-! Operators that correspond to one physical operator. -/

/-- Replaces an operator by a physical one over the same inputs. -/
def oneToOne (kind : LogicalKind) (inputs : Nat) (f : LogicalOp → Option PhysicalOp) : Rule σ κ where
  pattern := .withLeaves kind inputs
  promise := always
  transform _
    | .node (.logical op) inputs => pure ((f op).toList.map (fun p => .ofPhysical p inputs))
    | _ => pure []

def selectToFilter : Rule σ κ :=
  oneToOne .select 1 (fun
    | .select filter => some (.filter filter)
    | _ => none)

def projectToComputeScalar : Rule σ κ :=
  oneToOne .project 1 (fun
    | .project l => some (.computeScalar l)
    | _ => none)

def aggregateToHashAggregate : Rule σ κ :=
  oneToOne .aggregate 1 (fun
    | .aggregate a => some (.hashAggregate a)
    | _ => none)

def aggregateToStreamAggregate : Rule σ κ :=
  oneToOne .aggregate 1 (fun
    | .aggregate a => some (.streamAggregate a)
    | _ => none)

def implementLimit : Rule σ κ :=
  oneToOne .limit 1 (fun
    | .limit l => some (.limit l)
    | _ => none)

def valuesToConstTableGet : Rule σ κ :=
  oneToOne .values 0 (fun
    | .values v => some (.constTableGet v)
    | _ => none)

def cteAnchorToSequence : Rule σ κ :=
  oneToOne .cteAnchor 2 (fun
    | .cteAnchor cte => some (.sequence cte)
    | _ => none)

def cteConsumerToCteScan : Rule σ κ :=
  oneToOne .cteConsumer 0 (fun
    | .cteConsumer r => some (.cteScan r)
    | _ => none)

def unionAllToAppend : Rule σ κ :=
  { oneToOne .unionAll 0 (fun
      | .unionAll u => some (.append u)
      | _ => none) with
    pattern := .anyInputs .unionAll }

/-! Scans. -/

/-- The column with a given name among some columns. -/
def namedColumn? (cs : Columns) (name : String) : List ColumnId → Except PlanError (Option ColumnId)
  | [] => .ok none
  | id :: rest => do
    let info ← cs.get id
    if info.name = name then pure (some id) else namedColumn? cs name rest

/-- The longest beginning of a list of names whose columns are all among some columns. -/
def namedColumns (cs : Columns) (columns : List ColumnId) : List String → Except PlanError (List ColumnId)
  | [] => .ok []
  | name :: rest => do
    match ← namedColumn? cs name columns with
    | none => pure []
    | some id => return id :: (← namedColumns cs columns rest)

/-- How the scanned rows of a table are distributed; without all hash columns nothing is known. -/
def scanDistribution (cs : Columns) (t : Table) (columns : List ColumnId) :
    Except PlanError Distribution :=
  match t.placement with
  | .hashed keys => do
    let found ← namedColumns cs columns keys
    pure (if found.length = keys.length then .hashed found else .random)
  | .random => pure .random
  | .replicated => pure .replicated
  | .coordinator => pure .strictSingleton

/-- A scan of the whole table; a scan of a partitioned table is dynamic. -/
def getToTableScan : Rule σ κ where
  pattern := .withLeaves .get 0
  promise ctx
    | .get g => if ctx.hints.allowsScan g.relation .seq then .low else .none
    | _ => .none
  transform ctx
    | .node (.logical (.get g)) _ => do
      let t ← liftM (ctx.catalog.require g.table)
      let columns ← get
      let distribution ← liftM (scanDistribution columns t g.columns)
      pure [.ofPhysical
        (.tableScan ⟨g.table, g.relation, g.columns, g.scanId, g.partitionColumn.isSome, distribution⟩) []]
    | _ => pure []

/-- The columns a filter compares with literals in a way that an index can look up. -/
def restrictedColumns (filter : Scalar) : ColumnSet :=
  .ofList (filter.conjuncts.filterMap (fun e =>
    match e.columnComparison? with
    | some (c, op, v) => if op = .notEq ∨ v.isNull then none else some c
    | none => none))

/-- The indexes of a table that start with one of some columns, each with the columns that a scan of
the table produces. -/
def usableIndexes (c : Catalog) (cs : Columns) (g : Get) (leading : ColumnId → Bool) :
    Except PlanError (List (Index × List ColumnId)) := do
  let all ← (c.indexesOf g.table).mapM (fun i => do
    let columns ← namedColumns cs g.columns (i.columns.map TableColumn.name)
    pure (i, columns))
  pure (all.filter (fun x => x.2.head?.any leading))

/-- Scans through every index whose first column the filter restricts. -/
def indexScans (ctx : RuleContext σ κ) (dynamic : Bool) (filter : Scalar) (g : Get) :
    RuleM (List Expr) := do
  if g.partitionColumn.isSome ≠ dynamic ∨ !ctx.hints.allowsScan g.relation .index then pure []
  else
    let restricted := restrictedColumns filter
    let t ← liftM (ctx.catalog.require g.table)
    let columns ← get
    let distribution ← liftM (scanDistribution columns t g.columns)
    let indexes ← liftM (usableIndexes ctx.catalog columns g (fun c => decide (c ∈ restricted)))
    pure (indexes.map (fun x => .ofPhysical
      (.indexScan
        { table := g.table
          relation := g.relation
          index := x.1.name
          columns := g.columns
          condition := filter
          scanId := g.scanId
          dynamic
          ordering := .ascending x.2
          distribution }) []))

/-- The rule that replaces a filter above a scan by scans through indexes. -/
def selectToIndex (dynamic : Bool) (promise : RuleContext σ κ → LogicalOp → Promise) : Rule σ κ where
  pattern := .operator .select [.operator .get []]
  promise
  transform ctx
    | .node (.logical (.select filter)) [.node (.logical (.get g)) _] => indexScans ctx dynamic filter g
    | _ => pure []

def selectToIndexScan : Rule σ κ := selectToIndex false always

/-- The same for partitioned tables, whose partitions are selected as for a dynamic table scan. -/
def selectToDynamicIndexScan : Rule σ κ :=
  selectToIndex true (fun ctx op =>
    match op with
    | .select _ => if ctx.logical.partitionConsumers.isEmpty then .none else .high
    | _ => .none)

/-! Joins. -/

/-- The equalities of a join condition between a left and a right column. -/
def joinKeys (on : Scalar) (left right : ColumnSet) : List (ColumnId × ColumnId) :=
  (on.conjuncts.filterMap Scalar.columnEquality?).filterMap (fun (l, r) =>
    if l ∈ left ∧ r ∈ right then some (l, r)
    else if r ∈ left ∧ l ∈ right then some (r, l)
    else none)

/-- The dynamic scans of the right input whose partitions are selected by a left key. The unmatched
rows of the right input of a right outer join are part of the result, so there all are read. -/
def eliminatedScans (type : JoinType) (keys : List (ColumnId × ColumnId))
    (consumers : SortedMap ScanId ColumnId) : List (ScanId × ColumnId) :=
  if type = .rightOuter then []
  else consumers.entries.filterMap (fun e => (keys.find? (fun k => decide (k.2 = e.2))).map (fun k => (e.1, k.1)))

def joinToHashJoin : Rule σ κ where
  pattern := .withLeaves .join 2
  promise ctx _ := if ctx.hints.allowsJoin ctx.logical.relations .hash then .high else .none
  transform ctx
    | .node (.logical (.join type on)) [left, right] => do
      let leftColumns ← ctx.output left
      let rightProperties ← ctx.properties right
      let keys := joinKeys on leftColumns rightProperties.output
      if keys.isEmpty then pure []
      else
        pure [.ofPhysical
          (.hashJoin
            { type
              on
              leftKeys := keys.map Prod.fst
              rightKeys := keys.map Prod.snd
              partitionScans := eliminatedScans type keys rightProperties.partitionConsumers })
          [left, right]]
    | _ => pure []

/-- The outer input of a nested loop join is the one whose rows are preserved. -/
def joinToNestedLoopJoin : Rule σ κ where
  pattern := .withLeaves .join 2
  promise ctx
    | .join type _ =>
      if type ≠ .rightOuter ∧ ctx.hints.allowsJoin ctx.logical.relations .nestLoop then .low else .none
    | _ => .none
  transform _
    | .node (.logical (.join type on)) inputs =>
      pure (if type = .rightOuter then [] else [.ofPhysical (.nestedLoopJoin type on) inputs])
    | _ => pure []

/-- An inner join with a table that has an index on a column the join equates. -/
def joinToIndexNestedLoopJoin : Rule σ κ where
  pattern := .operator .join [.leaf, .operator .get []]
  promise ctx
    | .join type _ =>
      if type = .inner ∧ ctx.hints.allowsJoin ctx.logical.relations .nestLoop then .low else .none
    | _ => .none
  transform ctx
    | .node (.logical (.join .inner on)) [outer, .node (.logical (.get g)) inputs] => do
      if g.partitionColumn.isSome || !ctx.hints.allowsScan g.relation .index then pure []
      else
        let outerColumns ← ctx.output outer
        let innerColumns ← ctx.output (.ofLogical (.get g) inputs)
        let keys := joinKeys on outerColumns innerColumns
        if keys.isEmpty then pure []
        else
          let t ← liftM (ctx.catalog.require g.table)
          let columns ← get
          let distribution ← liftM (scanDistribution columns t g.columns)
          let indexes ← liftM (usableIndexes ctx.catalog columns g
            (fun c => decide (c ∈ keys.map Prod.snd)))
          pure (indexes.map (fun x => .ofPhysical
            (.indexNestedLoopJoin
              { type := .inner
                table := g.table
                relation := g.relation
                index := x.1.name
                columns := g.columns
                on
                outerKeys := keys.map Prod.fst
                innerKeys := keys.map Prod.snd
                distribution }) [outer]))
    | _ => pure []

/-! Writes. -/

/-- How the rows to be written are distributed, so that each is on the segment that stores it. The
written columns stand for the columns of the table in order. -/
def writeDistribution (t : Table) (columns : List ColumnId) : Distribution :=
  match t.placement with
  | .hashed keys =>
    match keys.mapM (fun key => (t.columnPosition? key).bind (fun place => columns[place]?)) with
    | some hash => .hashed hash
    | none => .random
  | .random => .random
  | .replicated => .replicated
  | .coordinator => .strictSingleton

def implementDml : Rule σ κ where
  pattern := .withLeaves .dml 1
  promise := always
  transform ctx
    | .node (.logical (.dml kind table columns)) inputs => do
      let t ← liftM (ctx.catalog.require table)
      pure [.ofPhysical (.dml kind table columns (writeDistribution t columns)) inputs]
    | _ => pure []

end Rule
end Cascade
