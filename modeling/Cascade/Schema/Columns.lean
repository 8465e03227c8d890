import Cascade.Error
import Cascade.Scalar.Expr

/-!
The columns of a query. Columns are numbered from one in the order they are registered; a column of a
table is registered once per relation of the table.
-/

namespace Cascade

/-- Where a column that is read from a table comes from. -/
structure ColumnOrigin where
  table : String
  relation : String
  deriving DecidableEq, Repr

/-- What is known of a column of a query. A column without origin is computed by an operator. -/
structure ColumnInfo where
  name : String
  dataType : DataType
  origin : Option ColumnOrigin
  deriving DecidableEq, Repr

/-- The registered columns; column `i` stands at place `i - 1`. -/
structure Columns where
  entries : Array ColumnInfo
  deriving Repr

namespace PlanError

def unknownColumnId (id : ColumnId) : PlanError := .argument ("Unknown column id: " ++ toString id)

end PlanError

namespace Columns

def empty : Columns := ⟨#[]⟩

instance : Inhabited Columns := ⟨empty⟩

def size (cs : Columns) : Nat := cs.entries.size

/-- Whether an entry is the named column of the table known under an alias. -/
def isNamed (relation name : String) (c : ColumnInfo) : Bool :=
  decide (c.origin.map ColumnOrigin.relation = some relation) && decide (c.name = name)

/-- The column with a given name of the table known under an alias. -/
def find? (cs : Columns) (relation name : String) : Option ColumnId :=
  (cs.entries.findIdx? (isNamed relation name)).map (· + 1)

/-- Appends a column, whatever is registered already. -/
def append (cs : Columns) (c : ColumnInfo) : ColumnId × Columns :=
  (cs.size + 1, ⟨cs.entries.push c⟩)

/-- Registers a column. A table's column that is known under the same alias and name keeps its
number; every other column gets a new one. -/
def add (cs : Columns) (c : ColumnInfo) : ColumnId × Columns :=
  match c.origin with
  | none => cs.append c
  | some origin =>
    match cs.find? origin.relation c.name with
    | some id => (id, cs)
    | none => cs.append c

/-- The column with a given number. -/
def get (cs : Columns) (id : ColumnId) : Except PlanError ColumnInfo :=
  if id = 0 then .error (.unknownColumnId id)
  else
    match cs.entries[id - 1]? with
    | some c => .ok c
    | none => .error (.unknownColumnId id)

end Columns
end Cascade
