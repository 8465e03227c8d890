import Cascade.Algebra.Builder
import Cascade.Exchange.Basic
/-!
Scalars and aggregate calls in the exchange format. A scalar is an array that starts with its
operator; while a query is built, a scalar may also name a column (`name`) or ask for the
conjunction of a list (`conj`).
-/

namespace Cascade

namespace DataType

def exchangeNames : List (String × DataType) :=
  [("Null", .null), ("Bool", .bool), ("Int32", .int32), ("Int64", .int64), ("String", .string)]

end DataType

namespace BinaryOp

def exchangeNames : List (String × BinaryOp) :=
  [("and", .and), ("or", .or), ("eq", .eq), ("ne", .notEq), ("lt", .lt), ("le", .ltEq), ("gt", .gt),
    ("ge", .gtEq)]

/-- The names of operators that are spelled out. -/
def longNames : List (String × BinaryOp) :=
  [("And", .and), ("Or", .or), ("Eq", .eq), ("NotEq", .notEq), ("Lt", .lt), ("LtEq", .ltEq), ("Gt", .gt),
    ("GtEq", .gtEq)]

end BinaryOp

namespace AggregateFunction

def exchangeNames : List (String × AggregateFunction) :=
  [("Count", .count), ("Sum", .sum), ("Min", .min), ("Max", .max), ("Avg", .avg)]

end AggregateFunction

namespace Decode

def dataType : Json → Decoded DataType := oneOf DataType.exchangeNames

/-- A literal; an integer that does not fit 32 bits is cut to them. -/
def value (x : Json) : Decoded Value :=
  match x with
  | .arr [.str "null"] => pure .null
  | .arr [.str "bool", b] => Value.bool <$> bool b
  | .arr [.str "i32", n] => do return .int32 (Int32.ofInt (← long n))
  | .arr [.str "i64", n] => do return .int64 (Int64.ofInt (← long n))
  | .arr [.str "str", s] => Value.string <$> text s
  | _ => badInput

/-- The column of a name among the columns of a query. -/
def namedColumn (columns : Option Columns) (relation name : Json) : Decoded ColumnId := do
  let relation ← text relation
  let name ← text name
  let columns ← present columns
  fromPlanner ((Session.column relation name).run { Session.empty with columns }).1

mutual

/-- A scalar. Names of columns are looked up in `columns`, if there are any. -/
def scalar (columns : Option Columns) : Json → Decoded Scalar
  | .arr [.str "col", n] => Scalar.column <$> nat n
  | .arr [.str "not", e] => Scalar.not <$> scalar columns e
  | .arr [.str "isnull", e] => Scalar.isNull <$> scalar columns e
  | .arr [.str "cast", e, t] => do
    let e ← scalar columns e
    let t ← dataType t
    pure (.cast e t)
  | .arr [.str "fn", name, .arr args] => do
    let name ← text name
    let args ← scalars columns args
    pure (.call name args)
  | .arr [.str "fn", name, .null] => do
    let name ← text name
    pure (.call name [])
  | .arr [.str "name", relation, name] => Scalar.column <$> namedColumn columns relation name
  | .arr [.str "conj", .arr l] => Scalar.conjunction <$> scalars columns l
  | .arr [.str "conj", .null] => pure (Scalar.conjunction [])
  | .arr [.str op, l, r] => do
    let op ← oneOf BinaryOp.exchangeNames (.str op)
    let l ← scalar columns l
    let r ← scalar columns r
    pure (.binary l op r)
  | x => Scalar.literal <$> value x

def scalars (columns : Option Columns) : List Json → Decoded (List Scalar)
  | [] => pure []
  | x :: xs => do
    let e ← scalar columns x
    let es ← scalars columns xs
    pure (e :: es)

end

def aggregateFunction : Json → Decoded AggregateFunction := oneOf AggregateFunction.exchangeNames

def aggregateCall (columns : Option Columns) (x : Json) : Decoded AggregateCall := do
  let func ← aggregateFunction (x.field "func")
  let args ← listOf (scalar columns) (x.field "args")
  let distinct ← flag (x.field "distinct")
  pure ⟨func, args, distinct⟩

end Decode

namespace Encode

def dataType (t : DataType) : Json := .str (nameIn DataType.exchangeNames t)

def value : Value → Json
  | .null => .arr [.str "null"]
  | .bool b => .arr [.str "bool", .bool b]
  | .int32 n => .arr [.str "i32", .num (toString n.toInt)]
  | .int64 n => .arr [.str "i64", .num (toString n.toInt)]
  | .string s => .arr [.str "str", .str s]

mutual

def scalar : Scalar → Json
  | .column id => .arr [.str "col", nat id]
  | .literal v => value v
  | .binary l op r => .arr [.str (nameIn BinaryOp.exchangeNames op), scalar l, scalar r]
  | .not e => .arr [.str "not", scalar e]
  | .isNull e => .arr [.str "isnull", scalar e]
  | .cast e t => .arr [.str "cast", scalar e, dataType t]
  | .call name args => .arr [.str "fn", .str name, .arr (scalars args)]

def scalars : List Scalar → List Json
  | [] => []
  | e :: es => scalar e :: scalars es

end

def aggregateCall (a : AggregateCall) : Json :=
  .obj [("func", .str (nameIn AggregateFunction.exchangeNames a.func)), ("args", .arr (scalars a.args)),
    ("distinct", .bool a.distinct)]

end Encode

end Cascade
