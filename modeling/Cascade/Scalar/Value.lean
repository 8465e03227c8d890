import Cascade.Collection.Order
import Cascade.Text.Quoted

/-!
Data types and the values of literals, each with its total order and its text.
-/

namespace Cascade

open Std

/-- Types of columns and scalar expressions. -/
inductive DataType
  | null
  | bool
  | int32
  | int64
  | string
  deriving DecidableEq, Repr

namespace DataType

/-- Whether values of this type can be summed. -/
def isNumeric : DataType → Bool
  | int32 | int64 => true
  | _ => false

instance : ToString DataType where
  toString
    | null => "null"
    | bool => "bool"
    | int32 => "int32"
    | int64 => "int64"
    | string => "string"

theorem ctorIdx_inj (a b : DataType) (h : a.ctorIdx = b.ctorIdx) : a = b := by
  cases a <;> cases b <;> first | rfl | cases h

/-- Types are ordered as they are listed. -/
instance : Ord DataType := ⟨fun a b => compare a.ctorIdx b.ctorIdx⟩

instance : TransOrd DataType := transCmp_of_key DataType.ctorIdx

instance : LawfulEqOrd DataType := lawfulEqCmp_of_key DataType.ctorIdx ctorIdx_inj

end DataType

/-- The value of a literal. -/
inductive Value
  | null
  | bool (b : Bool)
  | int32 (n : Int32)
  | int64 (n : Int64)
  | string (s : String)
  deriving DecidableEq, Repr

namespace Value

def dataType : Value → DataType
  | null => .null
  | bool _ => .bool
  | int32 _ => .int32
  | int64 _ => .int64
  | string _ => .string

def isNull : Value → Bool
  | null => true
  | _ => false

instance : ToString Value where
  toString
    | null => "NULL"
    | bool b => if b then "true" else "false"
    | int32 n => toString n.toInt
    | int64 n => toString n.toInt
    | string s => "'" ++ s ++ "'"

/-- A value written with its type, strings between quotes. -/
def constructorText : Value → String
  | null => "Null"
  | bool b => "Bool(" ++ (if b then "true" else "false") ++ ")"
  | int32 n => "Int32(" ++ toString n.toInt ++ ")"
  | int64 n => "Int64(" ++ toString n.toInt ++ ")"
  | string s => "String(" ++ Text.quoted s ++ ")"

/-- Values are ordered by type first and then within their type. -/
protected def compare : Value → Value → Ordering
  | null, null => .eq
  | bool a, bool b => compare a b
  | int32 a, int32 b => compare a b
  | int64 a, int64 b => compare a b
  | string a, string b => compare a b
  | a, b => compare a.dataType b.dataType

instance : Ord Value := ⟨Value.compare⟩

theorem compare_of_ne {a b : Value} (h : a.dataType ≠ b.dataType) :
    Value.compare a b = compare a.dataType b.dataType := by
  cases a <;> cases b <;> first | rfl | exact absurd rfl h

theorem compare_eq_iff (a b : Value) : Value.compare a b = .eq ↔ a = b := by
  by_cases h : a.dataType = b.dataType
  · cases a <;> cases b <;> first | (simp [Value.compare]; done) | cases h
  · rw [compare_of_ne h]
    constructor
    · intro e
      exact absurd (LawfulEqCmp.eq_of_compare e) h
    · intro e
      exact absurd (congrArg dataType e) h

theorem compare_swap (a b : Value) : Value.compare a b = (Value.compare b a).swap := by
  by_cases h : a.dataType = b.dataType
  · cases a <;> cases b <;> first | rfl | (simp only [Value.compare]; exact OrientedCmp.eq_swap)
  · rw [compare_of_ne h, compare_of_ne (Ne.symm h)]
    exact OrientedCmp.eq_swap

/-- A smaller value has a smaller type or the same one. -/
theorem dataType_le_of_lt {a b : Value} (h : Value.compare a b = .lt) :
    a.dataType.ctorIdx < b.dataType.ctorIdx ∨ a.dataType = b.dataType := by
  by_cases e : a.dataType = b.dataType
  · exact .inr e
  · rw [compare_of_ne e] at h
    exact .inl (Nat.compare_eq_lt.1 h)

theorem lt_of_dataType_lt {a b : Value} (h : a.dataType.ctorIdx < b.dataType.ctorIdx) :
    Value.compare a b = .lt := by
  rw [compare_of_ne (fun e => by rw [e] at h; omega)]
  exact Nat.compare_eq_lt.2 h

theorem compare_lt_trans (a b c : Value) (hab : Value.compare a b = .lt)
    (hbc : Value.compare b c = .lt) : Value.compare a c = .lt := by
  rcases dataType_le_of_lt hab with h | h
  · rcases dataType_le_of_lt hbc with h' | h'
    · exact lt_of_dataType_lt (by omega)
    · exact lt_of_dataType_lt (h' ▸ h)
  · rcases dataType_le_of_lt hbc with h' | h'
    · exact lt_of_dataType_lt (h ▸ h')
    · cases a <;> cases b <;> cases c <;> first
        | (simp only [Value.compare] at hab hbc ⊢; exact TransCmp.lt_trans hab hbc)
        | (cases h; done)
        | (cases h'; done)
        | cases hab

instance : TransOrd Value := transCmp_of_lt_trans compare_swap compare_eq_iff compare_lt_trans

instance : LawfulEqOrd Value := lawfulEqCmp_of_eq_iff compare_eq_iff

end Value
end Cascade
