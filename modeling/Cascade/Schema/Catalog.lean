import Cascade.Schema.Table

/-!
The catalog: the tables and indexes a query can refer to, and a cache of look-ups that answers the
same question the same way for as long as it lives.
-/

namespace Cascade

/-- The objects of a database, by name. -/
structure Catalog where
  tables : Lookup String Table
  indexes : Lookup String Index

namespace PlanError

def missingTable (name : String) : PlanError := .catalog ("Table does not exist. Table: " ++ name)

end PlanError

namespace Catalog

def empty : Catalog := ⟨∅, ∅⟩

instance : Inhabited Catalog := ⟨empty⟩

def table? (c : Catalog) (name : String) : Option Table := c.tables.get? name

def index? (c : Catalog) (name : String) : Option Index := c.indexes.get? name

def indexesOf (c : Catalog) (table : String) : List Index :=
  (c.indexes.valueList.filter (fun i => decide (i.table = table))).mergeSort
    (fun a b => (compare a.name b.name).isLE)

/-- The statistics of a table, if it has any. -/
def statistics? (c : Catalog) (table : String) : Option TableStatistics :=
  (c.table? table).bind Table.statistics

/-- A table that has to exist. -/
def require (c : Catalog) (name : String) : Except PlanError Table :=
  match c.table? name with
  | some t => .ok t
  | none => .error (.missingTable name)

/-- Adds a table under a name that is still free. -/
def addTable (c : Catalog) (t : Table) : Except PlanError Catalog :=
  if c.tables.contains t.name then
    .error (.argument ("Table already exists. Table: " ++ t.name))
  else .ok { c with tables := c.tables.set t.name t }

/-- Adds an index of a table that exists, under a name that is still free. -/
def addIndex (c : Catalog) (i : Index) : Except PlanError Catalog :=
  if !c.tables.contains i.table then
    .error (.argument ("Table does not exist. Table: " ++ i.table ++ " index: " ++ i.name))
  else if c.indexes.contains i.name then
    .error (.argument ("Index already exists. Index: " ++ i.name))
  else .ok { c with indexes := c.indexes.set i.name i }

/-- Removes a table together with its indexes. -/
def removeTable (c : Catalog) (name : String) : Except PlanError Catalog :=
  if c.tables.contains name then
    .ok { tables := c.tables.erase name, indexes := c.indexes.filter (fun _ i => !decide (i.table = name)) }
  else .error (.argument ("Table does not exist. Table: " ++ name))

end Catalog

/-- Remembered answers of a catalog, also those that something does not exist. -/
structure CatalogCache where
  tables : Lookup String (Option Table)
  indexes : Lookup String (Option Index)
  tableIndexes : Lookup String (List Index)

namespace CatalogCache

def empty : CatalogCache := ⟨∅, ∅, ∅⟩

/-- The remembered answer, or the fresh one together with the memory of it. -/
def lookupThrough {α : Type} (memory : Lookup String α) (name : String) (fresh : α) : α × Lookup String α :=
  match memory.get? name with
  | some answer => (answer, memory)
  | none => (fresh, memory.set name fresh)

def table? (k : CatalogCache) (c : Catalog) (name : String) : Option Table × CatalogCache :=
  let (answer, tables) := lookupThrough k.tables name (c.table? name)
  (answer, { k with tables })

def index? (k : CatalogCache) (c : Catalog) (name : String) : Option Index × CatalogCache :=
  let (answer, indexes) := lookupThrough k.indexes name (c.index? name)
  (answer, { k with indexes })

def indexesOf (k : CatalogCache) (c : Catalog) (table : String) : List Index × CatalogCache :=
  let (answer, tableIndexes) := lookupThrough k.tableIndexes table (c.indexesOf table)
  (answer, { k with tableIndexes })

def statistics? (k : CatalogCache) (c : Catalog) (table : String) :
    Option TableStatistics × CatalogCache :=
  let (answer, k) := k.table? c table
  (answer.bind Table.statistics, k)

def require (k : CatalogCache) (c : Catalog) (name : String) : Except PlanError Table × CatalogCache :=
  let (answer, k) := k.table? c name
  match answer with
  | some t => (.ok t, k)
  | none => (.error (.missingTable name), k)

end CatalogCache
end Cascade
