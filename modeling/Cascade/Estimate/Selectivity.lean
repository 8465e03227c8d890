import Cascade.Cost.Params
import Cascade.Scalar.Predicate

/-!
Selectivities: the share of rows for which a predicate is estimated to be true. Conjuncts are assumed
to be correlated, so the most selective one counts in full and every further one less.
-/

namespace Cascade

/-- What an estimate of selectivity rests on. -/
structure SelectivityModel where
  params : CostParams
  /-- the number of distinct values of a column, where it is known -/
  distinct : ColumnId → Option Float

namespace SelectivityModel

def ofComparison (m : SelectivityModel) (c : ColumnId) (op : BinaryOp) (v : Value) : Float :=
  if v.isNull then 0.0
  else
    match op, m.distinct c with
    | .eq, some d => 1.0 / d
    | .notEq, some d => 1.0 - 1.0 / d
    | .eq, none => m.params.defaultSelectivity
    | .notEq, none => 1.0 - m.params.defaultSelectivity
    | _, _ => 1.0 / 3.0

def ofEquality (m : SelectivityModel) (l r : ColumnId) : Float :=
  match m.distinct l, m.distinct r with
  | some l, some r => 1.0 / Float.larger l r
  | some d, none => 1.0 / d
  | none, some d => 1.0 / d
  | none, none => m.params.defaultSelectivity

/-- The selectivity of a predicate without connectives. -/
def ofAtom (m : SelectivityModel) (e : Scalar) : Float :=
  match e.columnEquality? with
  | some (l, r) => m.ofEquality l r
  | none =>
    match e.columnComparison? with
    | some (c, op, v) => m.ofComparison c op v
    | none => m.params.defaultSelectivity

/-- Puts a number at its place in a list that is sorted from large to small, after its equals. -/
def insertDescending (x : Float) : List Float → List Float
  | [] => [x]
  | y :: rest => if x < y then y :: insertDescending x rest else x :: y :: rest

def sortAscending (l : List Float) : List Float :=
  (l.foldl (fun acc x => insertDescending x acc) []).reverse

/-- The selectivity of a conjunction, from those of its conjuncts. -/
def combine (m : SelectivityModel) (conjuncts : List Float) : Float :=
  let damped := (sortAscending conjuncts).zipIdx.foldl
    (fun acc s => acc * Float.pow s.1 (Float.power m.params.selectivityDamping s.2)) 1.0
  Float.smaller (Float.larger damped 0.0) 1.0

/-- The selectivities of the conjuncts of a predicate. -/
def conjunctSelectivities (m : SelectivityModel) : Scalar → List Float
  | .binary lhs .and rhs => m.conjunctSelectivities lhs ++ m.conjunctSelectivities rhs
  | .binary lhs .or rhs =>
    let l := m.combine (m.conjunctSelectivities lhs)
    let r := m.combine (m.conjunctSelectivities rhs)
    [l + r - l * r]
  | .not arg => [1.0 - m.combine (m.conjunctSelectivities arg)]
  | e => if e.isTrue then [] else [m.ofAtom e]

def selectivity (m : SelectivityModel) (e : Scalar) : Float := m.combine (m.conjunctSelectivities e)

end SelectivityModel
end Cascade
