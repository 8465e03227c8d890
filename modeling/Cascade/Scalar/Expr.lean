import Cascade.Collection.SortedSet
import Cascade.Scalar.Value
import Cascade.Text.Quoted

/-!
Scalar expressions: immutable trees over columns and literals, carried by relational operators.
-/

namespace Cascade

open Std

/-- Identifies a column within a query. -/
abbrev ColumnId := Nat

abbrev ColumnSet := SortedSet ColumnId

/-- Operators with two operands. -/
inductive BinaryOp
  | and
  | or
  | eq
  | notEq
  | lt
  | ltEq
  | gt
  | gtEq
  deriving DecidableEq, Repr

namespace BinaryOp

/-- Every binary operator yields a truth value. -/
def returnType (_ : BinaryOp) : DataType := .bool

def isComparison : BinaryOp → Bool
  | and | or => false
  | _ => true

/-- The operator that gives the same result when its operands are swapped. -/
def commute : BinaryOp → BinaryOp
  | lt => gt
  | ltEq => gtEq
  | gt => lt
  | gtEq => ltEq
  | op => op

instance : ToString BinaryOp where
  toString
    | and => "AND"
    | or => "OR"
    | eq => "="
    | notEq => "!="
    | lt => "<"
    | ltEq => "<="
    | gt => ">"
    | gtEq => ">="

theorem ctorIdx_inj (a b : BinaryOp) (h : a.ctorIdx = b.ctorIdx) : a = b := by
  cases a <;> cases b <;> first | rfl | cases h

/-- Operators are ordered as they are listed. -/
instance : Ord BinaryOp := ⟨fun a b => compare a.ctorIdx b.ctorIdx⟩

instance : TransOrd BinaryOp := transCmp_of_key BinaryOp.ctorIdx

instance : LawfulEqOrd BinaryOp := lawfulEqCmp_of_key BinaryOp.ctorIdx ctorIdx_inj

@[simp] theorem commute_commute (op : BinaryOp) : op.commute.commute = op := by cases op <;> rfl

theorem commute_eq_and (op : BinaryOp) : op.commute = and ↔ op = and := by cases op <;> decide

end BinaryOp

/-- A scalar expression. -/
inductive Scalar
  | column (id : ColumnId)
  | literal (value : Value)
  | binary (lhs : Scalar) (op : BinaryOp) (rhs : Scalar)
  | not (arg : Scalar)
  | isNull (arg : Scalar)
  | cast (arg : Scalar) (type : DataType)
  | call (name : String) (args : List Scalar)
  deriving Repr

namespace Scalar

instance : Inhabited Scalar := ⟨.literal .null⟩

/-- The literal that holds in every row. -/
def true : Scalar := .literal (.bool Bool.true)

def isTrue : Scalar → Bool
  | .literal (.bool b) => b
  | _ => false

def and (lhs rhs : Scalar) : Scalar := .binary lhs .and rhs

/-- If this is an equality of two columns, those columns. -/
def columnEquality? : Scalar → Option (ColumnId × ColumnId)
  | .binary (.column l) .eq (.column r) => some (l, r)
  | _ => none

/-- If this compares a column with a literal: the column, the operator with the column as its left
operand, and the literal. -/
def columnComparison? : Scalar → Option (ColumnId × BinaryOp × Value)
  | .binary (.column c) op (.literal v) => if op.isComparison then some (c, op, v) else none
  | .binary (.literal v) op (.column c) => if op.isComparison then some (c, op.commute, v) else none
  | _ => none

mutual

/-- The text of an expression as an operand of `parent`: `AND` and `OR` are put in parentheses below
a different operator. -/
def textUnder (parent : Option BinaryOp) : Scalar → String
  | .column id => "col:" ++ toString id
  | .literal value => toString value
  | .binary lhs op rhs =>
    let inner := lhs.textUnder (some op) ++ " " ++ toString op ++ " " ++ rhs.textUnder (some op)
    if parent.any (fun p => !op.isComparison && !decide (op = p)) then "(" ++ inner ++ ")" else inner
  | .not arg => "NOT " ++ arg.textUnder none
  | .isNull arg => arg.textUnder none ++ " IS NULL"
  | .cast arg type => "CAST(" ++ arg.textUnder none ++ " AS " ++ toString type ++ ")"
  | .call name args => name ++ "(" ++ ", ".intercalate (argTexts args) ++ ")"

/-- The texts of arguments. -/
def argTexts : List Scalar → List String
  | [] => []
  | arg :: args => arg.textUnder none :: argTexts args

end

def text (e : Scalar) : String := e.textUnder none

instance : ToString Scalar := ⟨text⟩

end Scalar
end Cascade
