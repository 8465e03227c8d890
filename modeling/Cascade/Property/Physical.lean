import Cascade.Property.Distribution
import Cascade.Property.Logical

/-!
Physical properties: what an operator asks of its inputs and what a plan provides. They cover the
order and distribution of rows, whether rows can be read again, the selection of partitions, and the
common table expressions that may be read.
-/

namespace Cascade

/-- Whether the output of an operator can be read again without computing it again. -/
inductive Rewindability
  | notRewindable
  | rewindable
  deriving DecidableEq, Repr

namespace Rewindability

instance : Inhabited Rewindability := ⟨notRewindable⟩

/-- Anything will do where rereading is not required. -/
def satisfies (derived : Rewindability) : Rewindability → Bool
  | notRewindable => true
  | rewindable => decide (derived = rewindable)

def isRewindable (r : Rewindability) : Bool := decide (r = rewindable)

instance : ToString Rewindability where
  toString
    | notRewindable => "not-rewindable"
    | rewindable => "rewindable"

end Rewindability

/-- Partition selection required of an input. -/
structure PartitionRequirement where
  /-- dynamic scans that may remain unresolved, as something above resolves them -/
  allowedUnresolved : SortedSet ScanId
  /-- dynamic scans whose partitions are to be selected by the values of a column -/
  propagators : SortedMap ScanId ColumnId
  deriving DecidableEq

/-- Partition selection provided by a plan. -/
structure PartitionInfo where
  /-- dynamic scans no selector has resolved -/
  unresolved : SortedSet ScanId
  /-- dynamic scans whose partitions the plan selects -/
  propagated : SortedSet ScanId
  deriving DecidableEq

namespace PartitionRequirement

def none : PartitionRequirement := ⟨∅, ∅⟩

instance : Inhabited PartitionRequirement := ⟨none⟩

def isEmpty (r : PartitionRequirement) : Bool := r.allowedUnresolved.isEmpty && r.propagators.isEmpty

/-- The part of the requirement that concerns an input: the scans it reads and the propagators whose
column it produces. -/
def restrict (r : PartitionRequirement) (input : LogicalProperties) : PartitionRequirement where
  allowedUnresolved := r.allowedUnresolved.filter (fun s => input.partitionConsumers.contains s)
  propagators := r.propagators.filter (fun _ c => decide (c ∈ input.output))

instance : ToString PartitionRequirement where
  toString r :=
    let pair (e : ScanId × ColumnId) : String := toString e.1 ++ ":" ++ toString e.2
    "unresolved=" ++ Text.bracketed r.allowedUnresolved.toList ++
      if r.propagators.isEmpty then ""
      else " propagators=" ++ Text.bracketed (r.propagators.entries.map pair)

end PartitionRequirement

namespace PartitionInfo

def none : PartitionInfo := ⟨∅, ∅⟩

instance : Inhabited PartitionInfo := ⟨none⟩

def isEmpty (i : PartitionInfo) : Bool := i.unresolved.isEmpty && i.propagated.isEmpty

/-- What several inputs provide together. -/
def unionAll (inputs : List PartitionInfo) : PartitionInfo :=
  inputs.foldl (fun acc i => ⟨acc.unresolved ∪ i.unresolved, acc.propagated ∪ i.propagated⟩) none

/-- Whether every unresolved scan is allowed and every propagator is there. -/
def satisfies (i : PartitionInfo) (r : PartitionRequirement) : Bool :=
  i.unresolved.subset r.allowedUnresolved && r.propagators.keys.subset i.propagated

instance : ToString PartitionInfo where
  toString i :=
    "unresolved=" ++ Text.bracketed i.unresolved.toList
      ++ " propagated=" ++ Text.bracketed i.propagated.toList

end PartitionInfo

/-- The common table expressions that may be read, each with the distribution of its rows. -/
structure CteRequirement where
  producers : SortedMap CteId Distribution
  deriving DecidableEq

namespace CteRequirement

def none : CteRequirement := ⟨∅⟩

instance : Inhabited CteRequirement := ⟨none⟩

def isEmpty (r : CteRequirement) : Bool := r.producers.isEmpty

/-- Also allows reading one more. -/
def withProducer (r : CteRequirement) (cte : CteId) (d : Distribution) : CteRequirement :=
  ⟨r.producers.insert cte d⟩

/-- Whether everything read may be read. -/
def allows (r : CteRequirement) (consumers : SortedSet CteId) : Bool :=
  consumers.toList.all (fun c => r.producers.contains c)

instance : ToString CteRequirement where
  toString r :=
    Text.bracketed (r.producers.entries.map (fun e => toString e.1 ++ ":" ++ toString e.2))

end CteRequirement

/-- Physical properties asked of a plan. -/
structure Required where
  ordering : OrderSpec
  distribution : RequiredDistribution
  rewindability : Rewindability
  partition : PartitionRequirement
  cte : CteRequirement
  deriving DecidableEq

namespace Required

/-- Nothing is asked. -/
def none : Required := ⟨.none, .any, .notRewindable, .none, .none⟩

instance : Inhabited Required := ⟨none⟩

def isNone (r : Required) : Bool := decide (r = none)

def withoutOrdering (r : Required) : Required := { r with ordering := .none }

instance : ToString Required where
  toString r :=
    let part (present : Bool) (text : String) : List String := if present then [text] else []
    let parts := part (!r.ordering.isEmpty) ("ordering=" ++ toString r.ordering)
      ++ part (!r.distribution.isAny) ("distribution=" ++ toString r.distribution)
      ++ part r.rewindability.isRewindable (toString r.rewindability)
      ++ part (!r.partition.isEmpty) ("partitions=[" ++ toString r.partition ++ "]")
      ++ part (!r.cte.isEmpty) ("cte=" ++ toString r.cte)
    "\x7b" ++ " ".intercalate parts ++ "\x7d"

end Required

/-- Physical properties provided by a plan. -/
structure Derived where
  ordering : OrderSpec
  distribution : Distribution
  rewindability : Rewindability
  partition : PartitionInfo
  cteConsumers : SortedSet CteId
  deriving DecidableEq

namespace Derived

/-- An unordered plan with a given distribution. -/
def ofDistribution (d : Distribution) : Derived := ⟨.none, d, .notRewindable, .none, ∅⟩

instance : Inhabited Derived := ⟨ofDistribution .random⟩

/-- Whether every requirement is met. -/
def satisfies (d : Derived) (r : Required) (e : EquivalenceClasses) (subset : Bool) : Bool :=
  d.ordering.satisfies r.ordering
    && d.distribution.satisfies r.distribution e subset
    && d.rewindability.satisfies r.rewindability
    && d.partition.satisfies r.partition
    && r.cte.allows d.cteConsumers

instance : ToString Derived where
  toString d :=
    let part (present : Bool) (text : String) : String := if present then " " ++ text else ""
    "\x7b" ++ "distribution=" ++ toString d.distribution
      ++ part (!d.ordering.isEmpty) ("ordering=" ++ toString d.ordering)
      ++ part d.rewindability.isRewindable (toString d.rewindability)
      ++ part (!d.partition.isEmpty) ("partitions=[" ++ toString d.partition ++ "]")
      ++ part (!d.cteConsumers.isEmpty) ("cte_consumers=" ++ Text.bracketed d.cteConsumers.toList)
      ++ "\x7d"

end Derived
end Cascade
