import Cascade.Algebra.Operator
import Cascade.Schema.Catalog
import Cascade.Schema.Columns

/-!
Step by step construction of queries. A step takes queries built before and adds an operator above
them; scans, columns and common table expressions are numbered by the session all steps share. What
a failing step has numbered stays numbered.
-/

namespace Cascade

/-- A query under construction: its operators and the columns it produces, in order. -/
structure Query where
  expr : Expr
  columns : List ColumnId

/-- What the steps of a session share. -/
structure Session where
  columns : Columns
  nextScan : ScanId
  nextCte : CteId
  /-- the columns of the registered common table expressions -/
  ctes : Lookup CteId (List ColumnId)

def Session.empty : Session := ⟨.empty, 1, 1, ∅⟩

instance : Inhabited Session := ⟨.empty⟩

/-- A step of a session. -/
abbrev BuildM := ExceptT PlanError (StateM Session)

/-- The type of an expression; a function call has the type of its first argument. -/
def Columns.dataType (cs : Columns) : Scalar → Except PlanError DataType
  | .column id => (cs.get id).map ColumnInfo.dataType
  | .literal value => .ok value.dataType
  | .binary _ op _ => .ok op.returnType
  | .not _ => .ok .bool
  | .isNull _ => .ok .bool
  | .cast _ type => .ok type
  | .call _ [] => .ok .null
  | .call _ (arg :: _) => cs.dataType arg

namespace Session

/-- Registers a column. -/
def addColumn (c : ColumnInfo) : BuildM ColumnId :=
  modifyGet (fun s =>
    let (id, columns) := s.columns.add c
    (id, { s with columns }))

/-- Registers a column that is computed by an operator. -/
def addComputed (name : String) (type : DataType) : BuildM ColumnId := addColumn ⟨name, type, none⟩

def columnInfo (id : ColumnId) : BuildM ColumnInfo := do
  liftM ((← get).columns.get id)

def dataType (e : Scalar) : BuildM DataType := do
  liftM ((← get).columns.dataType e)

/-- The column of a table that was scanned under an alias. -/
def column (relation name : String) : BuildM ColumnId := do
  match (← get).columns.find? relation name with
  | some id => pure id
  | none => throw (.argument ("Unknown column: " ++ relation ++ "." ++ name))

/-- Registers new columns with the names and types of known ones. -/
def copyColumns (columns : List ColumnId) : BuildM (List ColumnId) :=
  columns.mapM (fun c => do
    let info ← columnInfo c
    addComputed info.name info.dataType)

/-- Makes the rows of a query available under a new number. -/
def registerCte (q : Query) : BuildM CteId :=
  modifyGet (fun s =>
    (s.nextCte, { s with nextCte := s.nextCte + 1, ctes := s.ctes.set s.nextCte q.columns }))

end Session

namespace Query

def ofNode (op : LogicalOp) (inputs : List Query) (columns : List ColumnId) : Query :=
  ⟨.ofLogical op (inputs.map Query.expr), columns⟩

/-- Scans the given columns of a table. The partition key is registered even if it is not scanned. -/
def scanColumns (t : Table) (relation : String) (names : List String) : BuildM Query := do
  let register (c : TableColumn) : BuildM ColumnId :=
    Session.addColumn ⟨c.name, c.dataType, some ⟨t.name, relation⟩⟩
  let columns ← names.mapM (fun name =>
    match t.column? name with
    | some c => register c
    | none =>
      throw (.argument ("Column does not exist. Column: " ++ name ++ ". Table: " ++ t.name)))
  let partitionColumn ← match t.partitionKey with
    | none => pure none
    | some key =>
      match t.column? key with
      | some c => some <$> register c
      | none => throw (.catalog ("Unknown partition key " ++ key ++ " of table " ++ t.name))
  let scanId ← modifyGet (fun s => (s.nextScan, { s with nextScan := s.nextScan + 1 }))
  pure (ofNode (.get ⟨t.name, relation, columns, scanId, partitionColumn⟩) [] columns)

def scan (t : Table) (relation : String) : BuildM Query :=
  scanColumns t relation (t.columns.map TableColumn.name)

def select (q : Query) (filter : Scalar) : Query := ofNode (.select filter) [q] q.columns

/-- Computes expressions. A column is passed on, any other expression becomes a new column. -/
def project (q : Query) (exprs : List Scalar) : BuildM Query := do
  let assignments ← exprs.mapM (fun e =>
    match e with
    | .column id => pure (id, e)
    | e => do
      let type ← Session.dataType e
      let id ← Session.addComputed "?column?" type
      pure (id, e))
  pure (ofNode (.project assignments) [q] (assignments.map Prod.fst))

/-- The columns of a join of two inputs. -/
def joinColumns (type : JoinType) (left right : List ColumnId) : List ColumnId :=
  if type.isSemiOrAnti then left else left ++ right

def join (left right : Query) (type : JoinType) (on : Scalar) : Query :=
  ofNode (.join type on) [left, right] (joinColumns type left.columns right.columns)

/-- An inner join of any number of queries. -/
def naryJoin (first : Query) (others : List Query) (on : Scalar) : Query :=
  ofNode (.naryJoin on) (first :: others) ((first :: others).flatMap Query.columns)

def apply (left right : Query) (type : ApplyType) (on : Scalar) : Query :=
  ofNode (.apply type on) [left, right] (joinColumns type.joinType left.columns right.columns)

/-- Groups rows. Every aggregate becomes a new column, named after its function. -/
def aggregate (q : Query) (groupBy : List ColumnId) (aggregates : List AggregateCall) :
    BuildM Query := do
  match groupBy.find? (fun c => !decide (c ∈ q.columns)) with
  | some c =>
    throw (.argument ("Aggregate: Grouping column is not produced by the input: " ++ toString c))
  | none => pure ()
  let assignments ← aggregates.mapM (fun a => do
    let argType ← match a.args with
      | [] => pure .int64
      | arg :: _ => Session.dataType arg
    let id ← Session.addComputed (toString a.func) (a.func.returnType argType)
    pure (id, a))
  pure (ofNode (.aggregate ⟨groupBy, assignments, .single⟩) [q]
    (groupBy ++ assignments.map Prod.fst))

def limit (q : Query) (l : RowLimit) : BuildM Query :=
  if l.ordering.within (.ofList q.columns) then pure (ofNode (.limit l) [q] q.columns)
  else
    throw (.argument ("Limit: Ordering " ++ toString l.ordering
      ++ " references columns not produced by the input"))

/-- Refuses to concatenate queries with different numbers of columns. -/
def checkWidth (first q : Query) : Except PlanError Unit :=
  if q.columns.length = first.columns.length then .ok ()
  else
    .error (.argument ("UnionAll: Inputs produce different number of columns: "
      ++ toString first.columns.length ++ " and " ++ toString q.columns.length))

/-- Concatenates queries with equally many columns; the result has new columns. -/
def unionAll (first : Query) (others : List Query) : BuildM Query := do
  let output ← Session.copyColumns first.columns
  let inputs := first :: others
  pure (ofNode (.unionAll ⟨output, inputs.map Query.columns⟩) inputs output)

/-- The type of the values at a place of some rows: that of the first value that is not `NULL`. -/
def placeType (rows : List (List Value)) (place : Nat) : DataType :=
  ((rows.filterMap (·[place]?)).map Value.dataType).find? (fun t => !decide (t = .null)) |>.getD .null

/-- A table of constants with columns `column1`, `column2` and so on. -/
def values (rows : List (List Value)) : BuildM Query := do
  let width := (rows.head?.map List.length).getD 0
  if rows.any (fun row => !decide (row.length = width)) then
    throw (.argument "Values: All rows must have the same number of values")
  let columns ← (List.range width).mapM (fun place =>
    Session.addComputed ("column" ++ toString (place + 1)) (placeType rows place))
  pure (ofNode (.values ⟨columns, rows⟩) [] columns)

/-- Writes the rows of a query to a table. Inserted rows have a value for every column. -/
def dml (q : Query) (kind : DmlKind) (t : Table) : BuildM Query :=
  if kind = .insert ∧ q.columns.length ≠ t.columns.length then
    throw (.argument ("Dml: Expected " ++ toString t.columns.length
      ++ " columns but the input produces " ++ toString q.columns.length ++ ". Table: " ++ t.name))
  else pure (ofNode (.dml kind t.name q.columns) [q] [])

/-- Reads a registered common table expression; the result has new columns. -/
def cteConsumer (cte : CteId) : BuildM Query := do
  match (← get).ctes.get? cte with
  | none => throw (.argument ("Unknown CTE: " ++ toString cte))
  | some producerColumns =>
    let columns ← Session.copyColumns producerColumns
    pure (ofNode (.cteConsumer ⟨cte, columns, producerColumns⟩) [] columns)

/-- Lets a query read the rows of a producer. -/
def cteAnchor (producer : Query) (cte : CteId) (body : Query) : Query :=
  ofNode (.cteAnchor cte) [producer, body] body.columns

end Query

/-- The place where steps are chained: a query, or nothing yet. Steps that add an operator above
others need a query, steps that start one need an empty place. -/
structure Builder where
  current : Option Query

namespace Builder

def empty : Builder := ⟨none⟩

instance : Inhabited Builder := ⟨empty⟩

def query (b : Builder) : BuildM Query :=
  match b.current with
  | some q => pure q
  | none => throw (.argument "No input operator")

/-- Refuses to start a query on top of another one. -/
def checkEmpty (b : Builder) (what : String) : BuildM Unit :=
  match b.current with
  | some _ => throw (.argument ("Adding " ++ what ++ " on top of another operator is not allowed"))
  | none => pure ()

def ofQuery (q : Query) : Builder := ⟨some q⟩

/-- Scans the given columns of a table. -/
def getColumns (c : Catalog) (b : Builder) (table relation : String) (names : List String) :
    BuildM Builder := do
  b.checkEmpty "a scan"
  let t ← liftM (c.require table)
  ofQuery <$> Query.scanColumns t relation names

/-- Scans all columns of a table. -/
def get (c : Catalog) (b : Builder) (table relation : String) : BuildM Builder := do
  let t ← liftM (c.require table)
  b.getColumns c table relation (t.columns.map TableColumn.name)

def select (b : Builder) (filter : Scalar) : BuildM Builder := do
  return ofQuery ((← b.query).select filter)

def project (b : Builder) (exprs : List Scalar) : BuildM Builder := do
  ofQuery <$> (← b.query).project exprs

def join (b right : Builder) (type : JoinType) (on : Scalar) : BuildM Builder := do
  let l ← b.query
  let r ← right.query
  return ofQuery (l.join r type on)

def naryJoin (b : Builder) (others : List Builder) (on : Scalar) : BuildM Builder := do
  let first ← b.query
  let others ← others.mapM query
  return ofQuery (first.naryJoin others on)

def apply (b right : Builder) (type : ApplyType) (on : Scalar) : BuildM Builder := do
  let l ← b.query
  let r ← right.query
  return ofQuery (l.apply r type on)

def aggregate (b : Builder) (groupBy : List ColumnId) (aggregates : List AggregateCall) :
    BuildM Builder := do
  ofQuery <$> (← b.query).aggregate groupBy aggregates

def limit (b : Builder) (l : RowLimit) : BuildM Builder := do
  ofQuery <$> (← b.query).limit l

/-- Inputs are looked at one by one: the first that is missing or too wide is the error. -/
def unionAll (b : Builder) (others : List Builder) : BuildM Builder := do
  let first ← b.query
  let others ← others.mapM (fun o => do
    let q ← o.query
    liftM (first.checkWidth q)
    pure q)
  ofQuery <$> first.unionAll others

def values (b : Builder) (rows : List (List Value)) : BuildM Builder := do
  b.checkEmpty "values"
  ofQuery <$> Query.values rows

def dml (c : Catalog) (b : Builder) (kind : DmlKind) (table : String) : BuildM Builder := do
  let q ← b.query
  let t ← liftM (c.require table)
  ofQuery <$> q.dml kind t

def registerCte (b : Builder) : BuildM CteId := do
  Session.registerCte (← b.query)

def cteConsumer (b : Builder) (cte : CteId) : BuildM Builder := do
  b.checkEmpty "a CTE consumer"
  ofQuery <$> Query.cteConsumer cte

def cteAnchor (b : Builder) (cte : CteId) (body : Builder) : BuildM Builder := do
  let producer ← b.query
  let body ← body.query
  return ofQuery (producer.cteAnchor cte body)

def columns (b : Builder) : BuildM (List ColumnId) := do
  return (← b.query).columns

def build (b : Builder) : BuildM Expr := do
  return (← b.query).expr

end Builder
end Cascade
