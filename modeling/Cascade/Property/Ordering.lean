import Cascade.Scalar.Expr

/-!
Orderings of rows: a list of columns, each ascending or descending, compared from the first on.
-/

namespace Cascade

/-- The column at the place in `target` at which `source` has the given column. -/
def mappedColumn? (source target : List ColumnId) (c : ColumnId) : Option ColumnId :=
  (source.findIdx? (fun s => decide (s = c))).bind (fun p => target[p]?)

/-- A column rows are sorted by. -/
structure OrderColumn where
  column : ColumnId
  descending : Bool
  deriving DecidableEq, Repr

instance : ToString OrderColumn where
  toString c := (if c.descending then "-" else "+") ++ toString c.column

/-- How rows are sorted; the empty ordering says nothing. -/
structure OrderSpec where
  columns : List OrderColumn
  deriving DecidableEq, Repr

namespace OrderSpec

def none : OrderSpec := ⟨[]⟩

instance : Inhabited OrderSpec := ⟨none⟩

/-- Every column ascending. -/
def ascending (columns : List ColumnId) : OrderSpec := ⟨columns.map (⟨·, false⟩)⟩

def isEmpty (o : OrderSpec) : Bool := o.columns.isEmpty

/-- Whether the first ordering is a beginning of the second. -/
def isBeginningOf (o other : OrderSpec) : Bool := o.columns.isPrefixOf other.columns

/-- Whether rows sorted in this ordering are also sorted as required. -/
def satisfies (o required : OrderSpec) : Bool := required.isBeginningOf o

def columnSet (o : OrderSpec) : ColumnSet := .ofList (o.columns.map OrderColumn.column)

def within (o : OrderSpec) (columns : ColumnSet) : Bool :=
  o.columns.all (fun c => decide (c.column ∈ columns))

/-- The longest beginning that consists of the given columns. -/
def keepWhile (o : OrderSpec) (columns : ColumnSet) : OrderSpec :=
  ⟨o.columns.takeWhile (fun c => decide (c.column ∈ columns))⟩

/-- Replaces the columns of `source` by those at the same places in `target`. -/
def mapped (o : OrderSpec) (source target : List ColumnId) : OrderSpec :=
  ⟨o.columns.map (fun c => { c with column := (mappedColumn? source target c.column).getD c.column })⟩

instance : ToString OrderSpec := ⟨fun o => Text.bracketed o.columns⟩

end OrderSpec
end Cascade
