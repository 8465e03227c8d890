import Cascade.Collection.SortedMap
import Cascade.Property.Equivalence
import Cascade.Scalar.Predicate

/-!
Logical properties: what holds of the rows of an expression however they are computed.
-/

namespace Cascade

/-- Identifies a scan of a table within a query. -/
abbrev ScanId := Nat

/-- Identifies a common table expression within a query. -/
abbrev CteId := Nat

/-- The most rows an expression can produce. Bounds are 64-bit counts: one that does not fit is no
bound. -/
inductive MaxCardinality
  | bounded (n : Nat)
  | unbounded
  deriving DecidableEq, Repr

namespace MaxCardinality

/-- The number of different 64-bit counts. -/
def countLimit : Nat := Nat.pow 2 64

/-- A count, if it fits. -/
def ofCount (n : Nat) : MaxCardinality := if n < countLimit then bounded n else unbounded

def atMostOne : MaxCardinality → Bool
  | bounded n => decide (n ≤ 1)
  | unbounded => false

/-- The bound of a product; without rows on one side there are none at all. -/
def multiply : MaxCardinality → MaxCardinality → MaxCardinality
  | bounded 0, _ => bounded 0
  | _, bounded 0 => bounded 0
  | bounded l, bounded r => ofCount (l * r)
  | _, _ => unbounded

/-- The bound of a concatenation. -/
def add : MaxCardinality → MaxCardinality → MaxCardinality
  | bounded l, bounded r => ofCount (l + r)
  | _, _ => unbounded

/-- The tighter of two bounds. -/
def min : MaxCardinality → MaxCardinality → MaxCardinality
  | bounded l, bounded r => bounded (Nat.min l r)
  | bounded n, unbounded => bounded n
  | unbounded, bounded n => bounded n
  | unbounded, unbounded => unbounded

/-- The bound of an input whose missing rows are replaced by a row of nulls. -/
def atLeastOne : MaxCardinality → MaxCardinality
  | bounded 0 => bounded 1
  | c => c

instance : ToString MaxCardinality where
  toString
    | bounded n => toString n
    | unbounded => "unbounded"

end MaxCardinality

/-- Sets of columns on which no two rows agree. -/
abbrev KeySet := SortedSet ColumnSet

namespace KeySet

/-- The unions of a key of one side and a key of the other: keys of a product. -/
def combine (left right : KeySet) : KeySet :=
  .ofList (left.toList.flatMap (fun l => right.toList.map (fun r => l ∪ r)))

/-- The keys that contain no other key. -/
def minimize (keys : KeySet) : KeySet :=
  keys.filter (fun key =>
    !keys.toList.any (fun other => !decide (other = key) && other.subset key))

end KeySet

/-- Properties shared by all equivalent expressions. -/
structure LogicalProperties where
  /-- the columns produced -/
  output : ColumnSet
  /-- produced columns that are never `NULL` -/
  notNull : ColumnSet
  /-- minimal keys; an expression with at most one row has the empty key -/
  keys : KeySet
  /-- produced columns with equal values -/
  equivalences : EquivalenceClasses
  maxCardinality : MaxCardinality
  /-- columns referenced but not produced -/
  outerRefs : ColumnSet
  /-- normal forms of predicates that hold for every row -/
  constraint : SortedSet Scalar
  /-- the aliases of the tables read -/
  relations : SortedSet String
  /-- the partitioned tables read: their scans with the columns of the partition keys -/
  partitionConsumers : SortedMap ScanId ColumnId
  deriving DecidableEq

namespace LogicalProperties

/-- An expression without rows and columns. -/
def empty : LogicalProperties where
  output := ∅
  notNull := ∅
  keys := ∅
  equivalences := .none
  maxCardinality := .bounded 0
  outerRefs := ∅
  constraint := ∅
  relations := ∅
  partitionConsumers := ∅

instance : Inhabited LogicalProperties := ⟨empty⟩

def hasOuterRefs (p : LogicalProperties) : Bool := !p.outerRefs.isEmpty

instance : ToString LogicalProperties where
  toString p :=
    let part (name : String) (s : ColumnSet) : String :=
      if s.isEmpty then "" else " " ++ name ++ "=" ++ Text.bracketed s.toList
    let keys : String :=
      if p.keys.isEmpty then ""
      else " keys=" ++ Text.bracketed (p.keys.toList.map (fun k => Text.bracketed k.toList))
    "cols=" ++ Text.bracketed p.output.toList ++ part "not_null" p.notNull ++ keys
      ++ part "outer_refs" p.outerRefs ++ " max_card=" ++ toString p.maxCardinality

end LogicalProperties
end Cascade
