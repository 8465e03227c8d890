import Cascade.Exchange.Scalar
import Cascade.Schema.Catalog
/-!
Tables, indexes and catalogs in the exchange format.
-/

namespace Cascade

namespace Decode

def placement (x : Json) : Decoded Placement :=
  match x with
  | .obj _ =>
    match x.field "hashed" with
    | .arr l => Placement.hashed <$> l.mapM text
    | _ => badInput
  | x => oneOf [("Random", .random), ("Replicated", .replicated), ("Coordinator", .coordinator)] x

def draftColumn (d : TableDraft) (x : Json) : Decoded TableDraft := do
  match ← items x with
  | [name, type] => do
    let name ← text name
    let type ← dataType type
    pure (d.addColumn name type true)
  | [name, type, nullable] => do
    let name ← text name
    let type ← dataType type
    let nullable ← bool nullable
    pure (d.addColumn name type nullable)
  | _ => badInput

def columnStatistics (x : Json) : Decoded (String × Float × Float) := do
  match ← items x with
  | [name, distinct, nulls] => do
    let name ← text name
    let distinct ← float distinct
    let nulls ← float nulls
    pure (name, distinct, nulls)
  | _ => badInput

def table (x : Json) : Decoded Table := do
  let name ← text (x.field "name")
  let d ← (← items (x.field "columns")).foldlM draftColumn { name := name }
  let placement ← orElse Placement.random placement (x.field "distribution")
  let partitionKey ← optional text (x.field "partition_by")
  let primaryKey ← listOf text (x.field "primary_key")
  let rowCount ← optional nat (x.field "rows")
  let stats ← listOf columnStatistics (x.field "stats")
  fromPlanner { d with placement, partitionKey, primaryKey, rowCount, columnStatistics := stats }.build

def index (t : Table) (x : Json) : Decoded Index := do
  let name ← text (x.field "name")
  let columns ← listOf text (x.field "columns")
  let unique ← flag (x.field "unique")
  fromPlanner (IndexDraft.mk t name columns unique).build

def catalog (x : Json) : Decoded Catalog := do
  let c ← (← items (x.field "tables")).foldlM (fun (c : Catalog) t => do
    let t ← table t
    fromPlanner (c.addTable t)) .empty
  (← items (x.field "indexes")).foldlM (fun (c : Catalog) i => do
    let name ← text (i.field "table")
    match c.table? name with
    | none => badInput
    | some t => do
      let i ← index t i
      fromPlanner (c.addIndex i)) c

end Decode

namespace Encode

def table (t : Table) : Json :=
  let column (c : TableColumn) : Json :=
    let stats := (t.statistics.bind (fun s => s.columns.get? c.name)).map
      (fun s => (s.distinctCount, s.nullFraction))
    .obj [("name", .str c.name), ("table", .str c.table), ("type", text c.dataType),
      ("nullable", .bool c.nullable), ("position", optional nat (t.columnPosition? c.name)),
      ("stats", optional (pair float float) stats)]
  let placement :=
    match t.placement with
    | .hashed keys => .obj [("hashed", list Json.str keys)]
    | .random => .str "Random"
    | .replicated => .str "Replicated"
    | .coordinator => .str "Coordinator"
  .obj [("name", .str t.name), ("columns", list column t.columns), ("distribution", placement),
    ("partition_by", optional Json.str t.partitionKey), ("primary_key", list Json.str t.primaryKey),
    ("rows", optional nat (t.statistics.map TableStatistics.rowCount))]

def index (i : Index) : Json :=
  .obj [("name", .str i.name), ("table", .str i.table), ("unique", .bool i.unique),
    ("columns", list (fun (c : TableColumn) => .str c.name) i.columns)]

def columnInfo (id : ColumnId) (c : ColumnInfo) : Json :=
  .obj [("id", nat id), ("name", .str c.name), ("type", text c.dataType),
    ("table", optional (fun (o : ColumnOrigin) => .str o.table) c.origin),
    ("alias", optional (fun (o : ColumnOrigin) => .str o.relation) c.origin)]

end Encode

end Cascade
