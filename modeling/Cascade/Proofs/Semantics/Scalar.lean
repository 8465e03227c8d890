import Mathlib.Logic.Basic
import Cascade.Scalar.Predicate

/-!
The values of scalar expressions. Truth has three values: a comparison with `NULL` is neither true nor
false, and `AND`, `OR` and `NOT` answer only what does not depend on an unknown operand.
-/

namespace Cascade

/-- A truth value; none if it is unknown. -/
abbrev Truth := Option Bool

namespace Truth

def and : Truth → Truth → Truth
  | some false, _ => some false
  | _, some false => some false
  | some true, some true => some true
  | _, _ => none

def or : Truth → Truth → Truth
  | some true, _ => some true
  | _, some true => some true
  | some false, some false => some false
  | _, _ => none

def not (t : Truth) : Truth := t.map (fun b => !b)

theorem and_eq_true (s t : Truth) : and s t = some true ↔ s = some true ∧ t = some true := by
  rcases s with _ | (_ | _) <;> rcases t with _ | (_ | _) <;> simp [and]

theorem or_eq_true (s t : Truth) : or s t = some true ↔ s = some true ∨ t = some true := by
  rcases s with _ | (_ | _) <;> rcases t with _ | (_ | _) <;> simp [or]

end Truth

namespace Value

def ofTruth : Truth → Value
  | some b => .bool b
  | none => .null

/-- What a value says as a condition. -/
def truth : Value → Truth
  | bool b => some b
  | _ => none

@[simp] theorem truth_ofTruth (t : Truth) : (ofTruth t).truth = t := by cases t <;> rfl

/-- Integers of different widths are compared as wide ones. -/
def widen : Value → Value
  | int32 n => .int64 n.toInt64
  | v => v

end Value

/-- Whether a comparison accepts the order its operands are in. -/
def BinaryOp.accepts : BinaryOp → Ordering → Bool
  | eq, o => o = .eq
  | notEq, o => o ≠ .eq
  | lt, o => o = .lt
  | ltEq, o => o ≠ .gt
  | gt, o => o = .gt
  | gtEq, o => o ≠ .lt
  | _, _ => false

/-- The answer of a comparison. -/
def BinaryOp.compare (op : BinaryOp) (a b : Value) : Truth :=
  if a.isNull || b.isNull then none else some (op.accepts (Ord.compare a.widen b.widen))

namespace Value

/-- Equality as comparisons see it: nothing is equal to `NULL`. -/
def equals (a b : Value) : Bool := BinaryOp.eq.compare a b = some true

theorem equals_iff (a b : Value) : a.equals b = true ↔ a ≠ .null ∧ b ≠ .null ∧ a.widen = b.widen := by
  have heq : Ord.compare a.widen b.widen = .eq ↔ a.widen = b.widen := compare_eq_iff _ _
  cases a <;> cases b <;> simp_all [equals, BinaryOp.compare, BinaryOp.accepts, isNull]

theorem equals_comm (a b : Value) : a.equals b = b.equals a := by
  rw [Bool.eq_iff_iff, equals_iff, equals_iff, eq_comm (a := a.widen)]
  constructor
  · rintro ⟨ha, hb, h⟩
    exact ⟨hb, ha, h⟩
  · rintro ⟨hb, ha, h⟩
    exact ⟨ha, hb, h⟩

@[simp] theorem equals_null (a : Value) : a.equals .null = false := by
  rw [← Bool.not_eq_true, equals_iff]
  simp

end Value

/-- What scalar expressions leave open: the functions called by name, and casts. -/
structure Functions where
  call : String → List Value → Value
  cast : DataType → Value → Value

/-- The values columns have where an expression is evaluated. -/
abbrev Binding := ColumnId → Value

namespace Scalar

variable (F : Functions) (b : Binding)

mutual

def eval : Scalar → Value
  | .column id => b id
  | .literal value => value
  | .binary lhs .and rhs => .ofTruth (lhs.eval.truth.and rhs.eval.truth)
  | .binary lhs .or rhs => .ofTruth (lhs.eval.truth.or rhs.eval.truth)
  | .binary lhs op rhs => .ofTruth (op.compare lhs.eval rhs.eval)
  | .not arg => .ofTruth arg.eval.truth.not
  | .isNull arg => .bool arg.eval.isNull
  | .cast arg type => F.cast type arg.eval
  | .call name args => F.call name (evalArgs args)

def evalArgs : List Scalar → List Value
  | [] => []
  | arg :: args => arg.eval :: evalArgs args

end

/-- The answer of a condition. -/
def truth (e : Scalar) : Truth := (e.eval F b).truth

/-- A condition holds if it is true: neither false nor unknown. -/
def holds (e : Scalar) : Bool := e.truth F b = some Bool.true

variable {F b}

theorem holds_iff {e : Scalar} : e.holds F b = Bool.true ↔ e.truth F b = some Bool.true := by simp [holds]

theorem truth_and (lhs rhs : Scalar) :
    (binary lhs .and rhs).truth F b = (lhs.truth F b).and (rhs.truth F b) := by
  simp only [truth, eval, Value.truth_ofTruth]

theorem holds_and (lhs rhs : Scalar) :
    (binary lhs .and rhs).holds F b = Bool.true ↔ lhs.holds F b = Bool.true ∧ rhs.holds F b = Bool.true := by
  simp only [holds_iff, truth_and, Truth.and_eq_true]

theorem holds_of_isTrue {e : Scalar} (h : e.isTrue = Bool.true) : e.holds F b = Bool.true := by
  unfold isTrue at h
  split at h
  · subst h
    simp [holds, truth, eval, Value.truth]
  · cases h

/-- A condition holds just if all its conjuncts do. -/
theorem holds_iff_conjuncts (e : Scalar) :
    e.holds F b = Bool.true ↔ ∀ c ∈ e.conjuncts, c.holds F b = Bool.true := by
  fun_induction conjuncts e with
  | case1 lhs rhs ihl ihr => simp only [holds_and, ihl, ihr, List.forall_mem_append]
  | case2 e _ htrue => simp [holds_of_isTrue htrue]
  | case3 e _ _ => simp

theorem holds_columnEquality {e : Scalar} {l r : ColumnId} (h : e.columnEquality? = some (l, r)) :
    e.holds F b = (b l).equals (b r) := by
  unfold columnEquality? at h
  split at h
  · cases h
    simp [holds, truth, eval, Value.equals]
  · cases h

end Scalar
end Cascade
