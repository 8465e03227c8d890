import Cascade.Collection.SortedMap
import Cascade.Cost.Params
import Cascade.Scalar.Expr

/-!
Estimated statistics of the rows of an expression.
-/

namespace Cascade

/-- An estimate of the number of rows, never less than one, and of the distinct values of some
columns, each between one and the number of rows. -/
structure Statistics where
  rowCount : Float
  distinct : SortedMap ColumnId Float

namespace Statistics

/-- The number of rows of a table without statistics. -/
def unknownRowCount : Float := 1000.0

def ofRowCount (rows : Float) : Statistics := ⟨Float.larger rows 1.0, ∅⟩

instance : Inhabited Statistics := ⟨ofRowCount 1.0⟩

/-- Brings an estimate of distinct values between one and a number of rows. -/
def clamped (rows d : Float) : Float := Float.larger (Float.smaller d rows) 1.0

/-- The estimated number of distinct values of a column, if there is an estimate. -/
def distinct? (s : Statistics) (c : ColumnId) : Option Float := s.distinct.get? c

/-- The estimated number of distinct values of a column; unless it is known every row is different. -/
def distinctOrRows (s : Statistics) (c : ColumnId) : Float :=
  clamped s.rowCount ((s.distinct? c).getD s.rowCount)

def setDistinct (s : Statistics) (c : ColumnId) (d : Float) : Statistics :=
  { s with distinct := s.distinct.insert c (clamped s.rowCount d) }

def setAllDistinct (s : Statistics) (l : List (ColumnId × Float)) : Statistics :=
  l.foldl (fun s e => s.setDistinct e.1 e.2) s

end Statistics
end Cascade
