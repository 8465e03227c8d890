import Cascade.Estimate.Statistics
import Cascade.Exchange.Scalar
import Cascade.Property.Physical
/-!
Orderings, distributions, required, derived and logical properties and statistics in the exchange
format. A sort column is its number behind a sign, `+` for ascending.
-/

namespace Cascade

namespace Decode

def orderColumn (x : Json) : Decoded OrderColumn := do
  match (← text x).toList with
  | '+' :: l =>
    match digits? l with
    | some n => pure ⟨n, false⟩
    | none => badInput
  | '-' :: l =>
    match digits? l with
    | some n => pure ⟨n, true⟩
    | none => badInput
  | _ => badInput

def ordering (x : Json) : Decoded OrderSpec := do
  return ⟨← listOf orderColumn x⟩

def distribution (x : Json) : Decoded Distribution :=
  match x with
  | .str _ =>
    oneOf [("Any", .any), ("Singleton", .singleton), ("StrictSingleton", .strictSingleton),
      ("Replicated", .replicated), ("Random", .random), ("NonSingleton", .nonSingleton),
      ("Universal", .universal)] x
  | .obj _ =>
    match x.field "hashed" with
    | .arr l => Distribution.hashed <$> l.mapM nat
    | _ => badInput
  | _ => badInput

def requiredDistribution (x : Json) : Decoded RequiredDistribution :=
  match x with
  | .null => pure .any
  | x => do
    let spec ← distribution (x.field "spec")
    let exact ← flag (x.field "exact")
    pure ⟨spec, if exact then .exact else .satisfy⟩

def partitionRequirement (x : Json) : Decoded PartitionRequirement := do
  let allowed ← listOf nat (x.field "allowed_unresolved")
  let propagators ← listOf (pair nat nat) (x.field "propagators")
  pure ⟨.ofList allowed, .ofList propagators⟩

def rewindability (x : Json) : Decoded Rewindability := do
  return if ← flag x then .rewindable else .notRewindable

def required (x : Json) : Decoded Required :=
  match x with
  | .null => pure .none
  | x => do
    let ordering ← ordering (x.field "ordering")
    let distribution ← requiredDistribution (x.field "distribution")
    let rewindability ← rewindability (x.field "rewindable")
    let partition ← partitionRequirement x
    let cte ← listOf (pair nat Decode.distribution) (x.field "cte")
    pure
      { ordering, distribution, rewindability, partition
        cte := cte.foldl (fun r e => r.withProducer e.1 e.2) .none }

def derived (x : Json) : Decoded Derived := do
  let ordering ← ordering (x.field "ordering")
  let distribution ← orElse Distribution.random Decode.distribution (x.field "distribution")
  let rewindability ← rewindability (x.field "rewindable")
  let unresolved ← listOf nat (x.field "unresolved")
  let propagated ← listOf nat (x.field "propagated")
  let consumers ← listOf nat (x.field "cte_consumers")
  pure ⟨ordering, distribution, rewindability, ⟨.ofList unresolved, .ofList propagated⟩, .ofList consumers⟩

def columnSet (x : Json) : Decoded ColumnSet := do
  return .ofList (← listOf nat x)

def maxCardinality (x : Json) : Decoded MaxCardinality :=
  match x with
  | .null => pure .unbounded
  | x => MaxCardinality.bounded <$> nat x

def logicalProperties (x : Json) : Decoded LogicalProperties := do
  let output ← columnSet (x.field "output")
  let notNull ← columnSet (x.field "not_null")
  let keys ← listOf columnSet (x.field "keys")
  let equivalences ← listOf (pair nat nat) (x.field "equivalences")
  let maxCardinality ← maxCardinality (x.field "max_card")
  let outerRefs ← columnSet (x.field "outer_refs")
  let constraint ← listOf (scalar none) (x.field "constraint")
  let relations ← listOf text (x.field "relations")
  let consumers ← listOf (pair nat nat) (x.field "partition_consumers")
  pure
    { output, notNull
      keys := .ofList keys
      equivalences := .ofPairs equivalences
      maxCardinality, outerRefs
      constraint := .ofList constraint
      relations := .ofList relations
      partitionConsumers := .ofList consumers }

def statistics (x : Json) : Decoded Statistics := do
  let rows ← float (x.field "rows")
  let distinct ← listOf (pair nat float) (x.field "distinct")
  pure ((Statistics.ofRowCount rows).setAllDistinct distinct)

end Decode

namespace Encode

def ordering (o : OrderSpec) : Json := list text o.columns

def distribution : Distribution → Json
  | .hashed columns => .obj [("hashed", list nat columns)]
  | d => text d

def requiredDistribution (r : RequiredDistribution) : Json :=
  .obj [("spec", distribution r.spec), ("exact", .bool (decide (r.matching = .exact)))]

def partitionRequirement (r : PartitionRequirement) : List (String × Json) :=
  [("allowed_unresolved", list nat r.allowedUnresolved.toList),
    ("propagators", list (pair nat nat) r.propagators.entries)]

def required (r : Required) : Json :=
  .obj ([("ordering", ordering r.ordering), ("distribution", requiredDistribution r.distribution),
    ("rewindable", .bool r.rewindability.isRewindable),
    ("cte", list (pair nat distribution) r.cte.producers.entries), ("display", text r)]
    ++ partitionRequirement r.partition)

def derived (d : Derived) : Json :=
  .obj [("ordering", ordering d.ordering), ("distribution", distribution d.distribution),
    ("rewindable", .bool d.rewindability.isRewindable),
    ("unresolved", list nat d.partition.unresolved.toList),
    ("propagated", list nat d.partition.propagated.toList),
    ("cte_consumers", list nat d.cteConsumers.toList), ("display", text d)]

def columnSet (s : ColumnSet) : Json := list nat s.toList

def logicalProperties (p : LogicalProperties) : Json :=
  .obj [("output", columnSet p.output), ("not_null", columnSet p.notNull),
    ("keys", list columnSet p.keys.toList),
    ("equivalence_classes", list columnSet p.equivalences.classes),
    ("max_card", text p.maxCardinality), ("outer_refs", columnSet p.outerRefs),
    ("has_outer_refs", .bool p.hasOuterRefs), ("constraint", list scalar p.constraint.toList),
    ("relations", list Json.str p.relations.toList),
    ("partition_consumers", list (pair nat nat) p.partitionConsumers.entries), ("display", text p)]

def statistics (s : Statistics) : Json :=
  .obj [("rows", float s.rowCount), ("distinct", list (pair nat float) s.distinct.entries)]

end Encode

end Cascade
