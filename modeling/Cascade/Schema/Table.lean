import Cascade.Collection.Lookup
import Cascade.Decimal
import Cascade.Error
import Cascade.Scalar.Value

/-!
Tables and indexes of the schema. Both are made from a draft, which is checked as a whole.
-/

namespace Cascade

/-- How the rows of a table are stored across the segments of a cluster. -/
inductive Placement
  /-- by the hash of some columns -/
  | hashed (columns : List String)
  | random
  /-- every segment holds a copy -/
  | replicated
  /-- on the coordinator only -/
  | coordinator
  deriving DecidableEq, Repr

structure TableColumn where
  name : String
  table : String
  dataType : DataType
  nullable : Bool
  deriving DecidableEq, Repr

/-- Statistics of one column: its distinct values and the share of its nulls. -/
structure ColumnStatistics where
  distinctCount : Float
  nullFraction : Float

structure TableStatistics where
  rowCount : Nat
  columns : Lookup String ColumnStatistics

structure Table where
  name : String
  columns : List TableColumn
  placement : Placement
  partitionKey : Option String
  /-- empty if the table has no primary key -/
  primaryKey : List String
  statistics : Option TableStatistics

namespace Table

def column? (t : Table) (name : String) : Option TableColumn :=
  t.columns.find? (fun c => decide (c.name = name))

def columnPosition? (t : Table) (name : String) : Option Nat :=
  t.columns.findIdx? (fun c => decide (c.name = name))

end Table

/-- Statistics are accepted if the count is not negative and the fraction lies between 0 and 1. -/
def ColumnStatistics.checked (distinctCount nullFraction : Float) :
    Except PlanError ColumnStatistics :=
  if distinctCount < 0.0 || !(0.0 ≤ nullFraction && nullFraction ≤ 1.0) then
    .error (.catalog ("Invalid column statistics. distinct_count: " ++ Decimal.shortest distinctCount
      ++ " null_fraction: " ++ Decimal.shortest nullFraction))
  else .ok ⟨distinctCount, nullFraction⟩

/-- A table as it is declared, before any check. -/
structure TableDraft where
  name : String
  columns : List TableColumn := []
  placement : Placement := .random
  partitionKey : Option String := none
  primaryKey : List String := []
  rowCount : Option Nat := none
  columnStatistics : List (String × Float × Float) := []

namespace TableDraft

/-- Adds a column after the others. -/
def addColumn (d : TableDraft) (name : String) (type : DataType) (nullable : Bool) : TableDraft :=
  { d with columns := d.columns ++ [⟨name, d.name, type, nullable⟩] }

/-- The first column name that is declared a second time. -/
def repeatedColumn? (seen : List String) : List TableColumn → Option String
  | [] => none
  | c :: rest => if c.name ∈ seen then some c.name else repeatedColumn? (c.name :: seen) rest

/-- Refuses a name that is no column of the table; `usage` says what it was named as. -/
def checkColumn (d : TableDraft) (usage name : String) : Except PlanError Unit :=
  if name ∈ d.columns.map TableColumn.name then .ok ()
  else .error (.argument (usage ++ " column does not exist. Column: " ++ name ++ " table: " ++ d.name))

def checkPlacement (d : TableDraft) : Except PlanError Unit :=
  match d.placement with
  | .hashed columns =>
    if columns.isEmpty then .error (.argument "Hash distribution requires at least one column")
    else columns.forM (d.checkColumn "Distribution")
  | _ => .ok ()

/-- Collects the declared column statistics; a later entry of a column replaces an earlier one. -/
def gatherStatistics (d : TableDraft) :
    List (String × Float × Float) → Lookup String ColumnStatistics →
      Except PlanError (Lookup String ColumnStatistics)
  | [], acc => .ok acc
  | (name, distinctCount, nullFraction) :: rest, acc => do
    d.checkColumn "Statistics" name
    let s ← ColumnStatistics.checked distinctCount nullFraction
    gatherStatistics d rest (acc.set name s)

def buildStatistics (d : TableDraft) : Except PlanError (Option TableStatistics) :=
  match d.rowCount with
  | some rowCount => do
    let columns ← d.gatherStatistics d.columnStatistics ∅
    pure (some ⟨rowCount, columns⟩)
  | none =>
    if d.columnStatistics.isEmpty then .ok none
    else .error (.argument "Column statistics require row count statistics")

/-- The declared table, if every name it uses is one of its columns. -/
def build (d : TableDraft) : Except PlanError Table := do
  if d.columns.isEmpty then .error (.argument "No columns has been specified")
  match repeatedColumn? [] d.columns with
  | some name =>
    .error (.argument ("Column already exists. Column: " ++ name ++ " table: " ++ d.name))
  | none => pure ()
  d.checkPlacement
  d.partitionKey.forM (d.checkColumn "Partition key")
  d.primaryKey.forM (d.checkColumn "Primary key")
  let statistics ← d.buildStatistics
  pure ⟨d.name, d.columns, d.placement, d.partitionKey, d.primaryKey, statistics⟩

end TableDraft

/-- An index; its entries are sorted by its columns in ascending order. -/
structure Index where
  name : String
  table : String
  columns : List TableColumn
  unique : Bool

/-- An index as it is declared on a table. -/
structure IndexDraft where
  table : Table
  name : String
  columns : List String
  unique : Bool

/-- The declared index, if its columns are columns of its table. -/
def IndexDraft.build (d : IndexDraft) : Except PlanError Index := do
  if d.columns.isEmpty then .error (.argument "No columns have been specified")
  let columns ← d.columns.mapM (fun name =>
    match d.table.column? name with
    | some c => .ok c
    | none =>
      .error (.argument ("Column does not exist. Table: " ++ d.table.name ++ ", column: " ++ name)))
  pure ⟨d.name, d.table.name, columns, d.unique⟩

end Cascade
