import Cascade.Exchange.Catalog
import Cascade.Exchange.Plan
/-!
Scripts: queries built step by step from documents. A step calls one operation of the query builder
on a variable and stores its result in a variable. Columns that a step registers stay registered,
also if the step fails.
-/

namespace Cascade

/-- The catalog of a script, its session and its variables. -/
structure Script where
  catalog : Catalog
  session : Session
  vars : Variables

namespace Script

def start (c : Catalog) : Script := ⟨c, .empty, []⟩

/-- The builder that a variable stands for; null stands for an empty one. -/
def builder (p : Script) (x : Json) : Decoded Builder :=
  match x with
  | .null => pure .empty
  | x => do
    let name ← Decode.text x
    match p.vars.get? name with
    | some (.builder b) => pure b
    | _ => badInput

/-- A grouping column: its number, or its relation and its name. -/
def groupColumn (p : Script) (x : Json) : Decoded ColumnId :=
  match x with
  | .arr [relation, name] => Decode.namedColumn (some p.session.columns) relation name
  | x => Decode.nat x

/-- The operation of a step that makes a new query from the query `b`. -/
def operation (p : Script) (b : Builder) (x : Json) : Decoded (BuildM Builder) := do
  let columns := some p.session.columns
  let scalar (name : String) : Decoded Scalar := Decode.scalar columns (x.field name)
  match ← Decode.text (x.field "do") with
  | "get" =>
    let table ← Decode.text (x.field "table")
    let relation ← Decode.text (x.field "alias")
    match ← Decode.optional (Decode.listOf Decode.text) (x.field "columns") with
    | none => pure (b.get p.catalog table relation)
    | some columns => pure (b.getColumns p.catalog table relation columns)
  | "select" => return b.select (← scalar "filter")
  | "project" => return b.project (← Decode.listOf (Decode.scalar columns) (x.field "exprs"))
  | "join" =>
    let right ← p.builder (x.field "right")
    let type ← Decode.joinType (x.field "type")
    let on ← scalar "on"
    pure (b.join right type on)
  | "nary_join" =>
    let others ← Decode.listOf p.builder (x.field "others")
    let on ← scalar "on"
    pure (b.naryJoin others on)
  | "apply" =>
    let right ← p.builder (x.field "right")
    let type ← Decode.applyType (x.field "type")
    let on ← scalar "on"
    pure (b.apply right type on)
  | "aggregate" =>
    let groupBy ← Decode.listOf p.groupColumn (x.field "group_by")
    let aggregates ← Decode.listOf (Decode.aggregateCall columns) (x.field "aggregates")
    pure (b.aggregate groupBy aggregates)
  | "limit" => return b.limit (← Decode.rowLimit x)
  | "union_all" => return b.unionAll (← Decode.listOf p.builder (x.field "others"))
  | "values" => return b.values (← Decode.rows (x.field "rows"))
  | "dml" =>
    let kind ← Decode.dmlKind (x.field "kind")
    let table ← Decode.text (x.field "table")
    pure (b.dml p.catalog kind table)
  | "cte_consumer" => return b.cteConsumer (← Decode.nat (x.field "cte"))
  | "cte_anchor" =>
    let cte ← Decode.nat (x.field "cte")
    let right ← p.builder (x.field "right")
    pure (b.cteAnchor cte right)
  | _ => badInput

end Script

/-- Steps of a script. A failure keeps what happened before it. -/
abbrev ScriptM := ExceptT Failure (StateM Script)

instance : MonadLift Decoded ScriptM := ⟨fun x => ExceptT.mk (pure x)⟩

namespace Script

/-- Runs an operation in the session of the script. -/
def runBuild {α : Type} (x : BuildM α) : ScriptM α := do
  let p ← get
  let (r, session) := x.run p.session
  set { p with session }
  fromPlanner r

def setVar (name : String) (v : Variable) : ScriptM Unit :=
  modify (fun p => { p with vars := p.vars.set name v })

/-- Runs one step; the result says what it made. -/
def step (x : Json) : ScriptM Json := do
  let p ← get
  let columns := some p.session.columns
  let name : String ← Decode.orElse "it" Decode.text (x.field "set")
  match ← (Decode.text (x.field "do") : Decoded String) with
  | "expr" =>
    let e : Expr ← Decode.expr p.vars columns (x.field "expr")
    setVar name (.expr e)
    pure (.obj [])
  | "register_cte" =>
    let b : Builder ← p.builder (x.field "in")
    let cte ← runBuild b.registerCte
    pure (.obj [("cte", Encode.nat cte)])
  | "column" =>
    let _ : Builder ← p.builder (x.field "in")
    let id : ColumnId ← Decode.namedColumn columns (x.field "alias") (x.field "name")
    pure (.obj [("column", Encode.nat id)])
  | "build" =>
    let b : Builder ← p.builder (x.field "in")
    let e ← runBuild b.build
    pure (.obj [("expr", Encode.expr e), ("text", Encode.text e)])
  | _ =>
    let b : Builder ← p.builder (x.field "in")
    let operation : BuildM Builder ← p.operation b x
    let (b, output) ← runBuild do
      let b ← operation
      pure (b, ← b.columns)
    setVar name (.builder b)
    pure (.obj [("columns", Encode.list Encode.nat output)])

/-- Runs steps up to the first that fails. -/
def steps : List Json → ScriptM Unit
  | [] => pure ()
  | x :: xs => do
    let _ ← step x
    steps xs

/-- Runs all steps; every one has an answer. -/
def stepAnswers (p : Script) : List Json → List Json × Script
  | [] => ([], p)
  | x :: xs =>
    let (r, p) := (step x).run p
    let (rest, p) := p.stepAnswers xs
    (Encode.answer r :: rest, p)

/-- The script after the steps of a document, in the catalog of the document. -/
def ofDocument (x : Json) : Decoded Script := do
  let c ← Decode.catalog (x.field "catalog")
  let l ← Decode.items (x.field "steps")
  let (r, p) := (steps l).run (start c)
  r.map (fun _ => p)

end Script

end Cascade
