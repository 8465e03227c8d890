import Cascade.Scalar.Order

/-!
Predicates as conjunctions: their conjuncts, their normal form, the columns they mention and the
columns they keep from being `NULL`.
-/

namespace Cascade.Scalar

mutual

/-- The columns an expression mentions. -/
def columns : Scalar → ColumnSet
  | .column id => .singleton id
  | .literal _ => ∅
  | .binary lhs _ rhs => lhs.columns ∪ rhs.columns
  | .not arg => arg.columns
  | .isNull arg => arg.columns
  | .cast arg _ => arg.columns
  | .call _ args => argColumns args

/-- The columns a list of arguments mentions. -/
def argColumns : List Scalar → ColumnSet
  | [] => ∅
  | arg :: args => arg.columns ∪ argColumns args

end

mutual

/-- Renames the columns of an expression. -/
def mapColumns (f : ColumnId → ColumnId) : Scalar → Scalar
  | .column id => .column (f id)
  | .literal value => .literal value
  | .binary lhs op rhs => .binary (lhs.mapColumns f) op (rhs.mapColumns f)
  | .not arg => .not (arg.mapColumns f)
  | .isNull arg => .isNull (arg.mapColumns f)
  | .cast arg type => .cast (arg.mapColumns f) type
  | .call name args => .call name (mapArgColumns f args)

/-- Renames the columns of arguments. -/
def mapArgColumns (f : ColumnId → ColumnId) : List Scalar → List Scalar
  | [] => []
  | arg :: args => arg.mapColumns f :: mapArgColumns f args

end

/-- The conjuncts of a predicate from left to right; the literal `true` has none. -/
def conjuncts : Scalar → List Scalar
  | .binary lhs .and rhs => lhs.conjuncts ++ rhs.conjuncts
  | e => if e.isTrue then [] else [e]

/-- Joins predicates with `AND` from the left, leaving out the literal `true`. -/
def conjunction (es : List Scalar) : Scalar :=
  match es.filter (fun e => !e.isTrue) with
  | [] => .true
  | e :: rest => rest.foldl Scalar.and e

/-- A comparison or disjunction with its operands in order; a comparison is commuted with them. -/
def orderOperands (lhs : Scalar) (op : BinaryOp) (rhs : Scalar) : Scalar :=
  if rhs.compare lhs = .lt then .binary rhs op.commute lhs else .binary lhs op rhs

mutual

/-- The normal form of an expression: at every depth the conjuncts of a conjunction are in order and
without repetition, and the operands of comparisons and disjunctions are in order. -/
def normalize : Scalar → Scalar
  | .binary lhs .and rhs =>
    conjunction (SortedSet.ofList (lhs.normalize.conjuncts ++ rhs.normalize.conjuncts)).toList
  | .binary lhs op rhs => orderOperands lhs.normalize op rhs.normalize
  | .not arg => .not arg.normalize
  | .isNull arg => .isNull arg.normalize
  | .cast arg type => .cast arg.normalize type
  | .call name args => .call name (normalizeArgs args)
  | .column id => .column id
  | .literal value => .literal value

/-- The normal forms of arguments. -/
def normalizeArgs : List Scalar → List Scalar
  | [] => []
  | arg :: args => arg.normalize :: normalizeArgs args

end

/-- The column an expression passes on unchanged or through casts: the expression is `NULL` whenever
that column is. -/
def strictColumns : Scalar → ColumnSet
  | .column id => .singleton id
  | .cast arg _ => arg.strictColumns
  | _ => ∅

/-- Columns that are not `NULL` in any row for which this predicate is true. -/
def nullRejectingColumns : Scalar → ColumnSet
  | .binary lhs .and rhs => lhs.nullRejectingColumns ∪ rhs.nullRejectingColumns
  | .binary lhs .or rhs => lhs.nullRejectingColumns ∩ rhs.nullRejectingColumns
  | .binary lhs _ rhs => lhs.strictColumns ∪ rhs.strictColumns
  | .not (.isNull arg) => arg.strictColumns
  | _ => ∅

/-- The normal forms of the conjuncts of a predicate. -/
def normalConjuncts (e : Scalar) : SortedSet Scalar := .ofList (e.conjuncts.map normalize)

end Cascade.Scalar
