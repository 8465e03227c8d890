import Cascade.Scalar.Expr

/-!
Classes of columns known to be equal in every row: the equivalence closure of a list of pairs.
-/

namespace Cascade

/-- Disjoint sets of at least two columns each, in order, whose members are equal in every row. -/
structure EquivalenceClasses where
  classes : List ColumnSet
  deriving DecidableEq

namespace EquivalenceClasses

def none : EquivalenceClasses := ⟨[]⟩

instance : Inhabited EquivalenceClasses := ⟨none⟩

/-- Adds a pair of equal columns. If both have a class, the later one is removed and becomes part of the earlier one;
if one of them has a class, the other column joins it; otherwise they are a new class. -/
def link (classes : List ColumnSet) (pair : ColumnId × ColumnId) : List ColumnSet :=
  let (l, r) := pair
  if l = r then classes
  else
    match classes.findIdx? (fun c => decide (l ∈ c)), classes.findIdx? (fun c => decide (r ∈ c)) with
    | some i, some j =>
      if i = j then classes
      else
        let other := classes.getD (max i j) ∅
        (classes.eraseIdx (max i j)).modify (min i j) (· ∪ other)
    | some i, .none => classes.modify i (·.insert r)
    | .none, some j => classes.modify j (·.insert l)
    | .none, .none => classes ++ [.ofList [l, r]]

/-- The classes generated by pairs of equal columns, in order. -/
def ofPairs (pairs : List (ColumnId × ColumnId)) : EquivalenceClasses :=
  ⟨(pairs.foldl link []).mergeSort (fun a b => (compare a b).isLE)⟩

/-- Whether two columns are known to be equal; a column always equals itself. -/
def areEquivalent (e : EquivalenceClasses) (l r : ColumnId) : Bool :=
  decide (l = r) || e.classes.any (fun c => decide (l ∈ c) && decide (r ∈ c))

def isEmpty (e : EquivalenceClasses) : Bool := e.classes.isEmpty

end EquivalenceClasses
end Cascade
