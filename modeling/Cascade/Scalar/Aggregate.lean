import Cascade.Scalar.Predicate

/-!
Aggregate functions and their calls.
-/

namespace Cascade

/-- Functions over the rows of a group. -/
inductive AggregateFunction
  | count
  | sum
  | min
  | max
  | avg
  deriving DecidableEq, Repr

namespace AggregateFunction

/-- The type of the result for an argument of a given type. -/
def returnType : AggregateFunction → DataType → DataType
  | count, _ => .int64
  | sum, t => if t.isNumeric then .int64 else t
  | avg, t => if t.isNumeric then .int64 else t
  | _, t => t

/-- The function that combines partial results; none if the function needs all rows at once. -/
def combiner? : AggregateFunction → Option AggregateFunction
  | count => some sum
  | sum => some sum
  | min => some min
  | max => some max
  | avg => none

/-- Whether the result is never `NULL`. -/
def isNotNull : AggregateFunction → Bool
  | count => true
  | _ => false

instance : ToString AggregateFunction where
  toString
    | count => "count"
    | sum => "sum"
    | min => "min"
    | max => "max"
    | avg => "avg"

end AggregateFunction

structure AggregateCall where
  func : AggregateFunction
  args : List Scalar
  distinct : Bool
  deriving DecidableEq, Repr

namespace AggregateCall

/-- The columns the arguments mention. -/
def columns (a : AggregateCall) : ColumnSet := Scalar.argColumns a.args

/-- Whether partial results over parts of the rows can be combined. -/
def isSplittable (a : AggregateCall) : Bool := !a.distinct && a.func.combiner?.isSome

instance : ToString AggregateCall where
  toString a :=
    toString a.func ++ "(" ++ (if a.distinct then "DISTINCT " else "") ++ Text.commaList a.args ++ ")"

end AggregateCall
end Cascade
