import Cascade.Algebra.Operator
import Cascade.Property.Physical

/-!
Physical properties of operators. An operator can be computed in one of several ways, its requests
(`PhysicalOp.requestCount`); a request says what each input has to provide, given what is asked of
the operator and what the inputs before it provide (`PhysicalOp.requiredInput`). What the operator
then provides itself is `PhysicalOp.derived`.
-/

namespace Cascade

/-- Where an operator stands: what is asked of it, and the logical properties of its group and of its
inputs. -/
structure Position where
  required : Required
  logical : LogicalProperties
  inputs : List LogicalProperties

namespace Position

/-- What every input is asked for: the partition selection that concerns it and the common table
expressions it may read. -/
def baseRequirement (p : Position) (input : LogicalProperties) : Required :=
  { Required.none with
    partition := p.required.partition.restrict input
    cte := p.required.cte }

/-- Asks an input for the same ordering and the same distribution, where wanted; none if the input
lacks one of their columns. -/
def passThrough (p : Position) (input : LogicalProperties) (ordering distribution : Bool) :
    Option Required :=
  if ordering && !p.required.ordering.within input.output then none
  else if distribution && !p.required.distribution.spec.within input.output then none
  else
    some
      { p.baseRequirement input with
        rewindability := p.required.rewindability
        ordering := if ordering then p.required.ordering else .none
        distribution := if distribution then p.required.distribution else .any }

/-- The required ordering, if the outer input of a join that keeps its order can provide it. -/
def outerOrdering (p : Position) (outer : LogicalProperties) : OrderSpec :=
  if p.required.ordering.within outer.output then p.required.ordering else .none

end Position

namespace HashJoin

/-- The right keys at the places of the left keys that equal the given columns. -/
def matchingKeys? (j : HashJoin) (e : EquivalenceClasses) (columns : List ColumnId) :
    Option (List ColumnId) :=
  columns.mapM (fun c =>
    (j.leftKeys.findIdx? (fun k => e.areEquivalent k c)).bind (fun place => j.rightKeys[place]?))

/-- The distribution of the left input: by its keys, any with a copy of the right input on every
segment, or on a single node. A right outer join must not see a right row more than once, so its
right input is never copied. -/
def outerDistribution (j : HashJoin) (request : Nat) : Option RequiredDistribution :=
  match request with
  | 0 => if j.leftKeys.isEmpty then none else some (.hashed j.leftKeys)
  | 1 => if j.type = .rightOuter then none else some .any
  | 2 => some .singleton
  | _ => none

/-- The distribution of the right input that goes with that of the left one. -/
def innerDistribution (j : HashJoin) (e : EquivalenceClasses) (request : Nat) (outer : Distribution) :
    Option RequiredDistribution :=
  if request ≤ 1 ∧ j.type = .leftAntiSemiNotIn ∧ !outer.isSingleton then some .mandatoryReplicated
  else
    match request with
    | 0 =>
      match outer with
      | .hashed columns => some (.exactHashed ((j.matchingKeys? e columns).getD j.rightKeys))
      | d =>
        if d.isSingleton then some .singleton
        else if j.type = .rightOuter then none
        else some .replicated
    | 1 =>
      if j.type = .rightOuter then none
      else if outer.isSingleton then some .singleton
      else some .replicated
    | 2 => some .singleton
    | _ => none

/-- What a request asks of an input. The left input selects the partitions of the listed scans, so
the right one may leave them unresolved. -/
def requiredInput (j : HashJoin) (p : Position) (request child : Nat) (optimized : List Derived) :
    Option Required := do
  let outer ← p.inputs[0]?
  let inner ← p.inputs[1]?
  if child = 0 then
    let distribution ← j.outerDistribution request
    let base := p.baseRequirement outer
    some
      { base with
        distribution
        partition :=
          { base.partition with propagators := base.partition.propagators.insertAll j.partitionScans } }
  else
    let provided ← optimized.head?
    let distribution ← j.innerDistribution outer.equivalences request provided.distribution
    let base := p.baseRequirement inner
    some
      { base with
        distribution
        partition :=
          { base.partition with
            allowedUnresolved := base.partition.allowedUnresolved.insertAll (j.partitionScans.map Prod.fst) } }

end HashJoin

/-- The distribution of an input of a nested loop join. Below an outer input on a single node the
inner one is brought there too. -/
def nestedLoopDistribution (type : JoinType) (request child : Nat) (optimized : List Derived) :
    Option RequiredDistribution :=
  match request, child with
  | 0, 0 => some .any
  | 0, _ =>
    if optimized.head?.any (fun d => d.distribution.isSingleton) then some .singleton
    else if type = .leftAntiSemiNotIn then some .mandatoryReplicated
    else some .replicated
  | 1, _ => some .singleton
  | _, _ => none

namespace IndexJoin

/-- The distribution of the outer input: its rows are moved to where the table has the rows they
match, or, in an inner join, everywhere. -/
def outerDistribution (j : IndexJoin) (request : Nat) : Option RequiredDistribution :=
  match request, j.distribution with
  | 0, .replicated => some .any
  | 0, .universal => some .any
  | 0, .hashed columns =>
    (columns.mapM (fun c =>
      (j.innerKeys.findIdx? (fun k => decide (k = c))).bind (fun place => j.outerKeys[place]?))).map
        .exactHashed
  | 0, d => if d.isSingleton then some .singleton else none
  | 1, .hashed _ => if j.type = .inner then some .replicated else none
  | 1, .random => if j.type = .inner then some .replicated else none
  | _, _ => none

end IndexJoin

namespace Aggregation

/-- Whether complete groups are formed by grouping columns, so that equal ones have to meet. -/
def gathersGroups (a : Aggregation) : Bool := !decide (a.stage = .localStage) && !a.groupBy.isEmpty

def inputDistribution (a : Aggregation) (request : Nat) : Option RequiredDistribution :=
  match request with
  | 0 =>
    if a.stage = .localStage then some .any
    else if a.groupBy.isEmpty then some .singleton
    else some (.hashed a.groupBy)
  | 1 => some .singleton
  | _ => none

end Aggregation

/-- The distribution of the rows a table is about to store, place by place if it is hashed. -/
def storedDistribution (d : Distribution) : RequiredDistribution :=
  match d with
  | .hashed _ => ⟨d, .exact⟩
  | d => ⟨d, .satisfy⟩

namespace PhysicalOp

/-- The number of ways to ask the inputs. Enforcers are not asked for on their own. -/
def requestCount : PhysicalOp → Nat
  | filter _ | computeScalar _ | hashJoin _ => 3
  | nestedLoopJoin _ _ | indexNestedLoopJoin _ | append _ => 2
  | hashAggregate a | streamAggregate a => if a.gathersGroups then 2 else 1
  | sort _ | motion _ | spool | partitionSelector _ _ => 0
  | _ => 1

/-- What an operator that keeps the rows of its input in place asks of it: everything asked of
itself, or less, which is then left to enforcers above. -/
def unaryInput (p : Position) (input : LogicalProperties) (request : Nat) : Option Required :=
  match request with
  | 0 => p.passThrough input true true
  | 1 => if p.required.ordering.isEmpty then none else p.passThrough input false true
  | 2 => if p.required.distribution.isAny then none else p.passThrough input false false
  | _ => none

/-- What a request asks of an input, given what the inputs before it provide; none if the request
cannot be met. -/
def requiredInput (op : PhysicalOp) (p : Position) (request child : Nat) (optimized : List Derived) :
    Option Required := do
  let input ← p.inputs[child]?
  let base := p.baseRequirement input
  match op with
  | filter _ => unaryInput p input request
  | computeScalar _ => unaryInput p input request
  | hashJoin j => j.requiredInput p request child optimized
  | nestedLoopJoin type _ =>
    let distribution ← nestedLoopDistribution type request child optimized
    some
      (if child = 0 then { base with distribution, ordering := p.outerOrdering input }
      else { base with distribution, rewindability := .rewindable })
  | indexNestedLoopJoin j =>
    let distribution ← j.outerDistribution request
    some { base with distribution, ordering := p.outerOrdering input }
  | hashAggregate a =>
    let distribution ← a.inputDistribution request
    some { base with distribution }
  | streamAggregate a =>
    let distribution ← a.inputDistribution request
    some { base with distribution, ordering := .ascending a.groupBy }
  | limit l => some { base with distribution := .singleton, ordering := l.ordering }
  | append _ =>
    match request with
    | 0 => some { base with distribution := .nonSingleton }
    | 1 => some { base with distribution := .singleton }
    | _ => none
  | dml _ _ _ distribution => some { base with distribution := storedDistribution distribution }
  | sequence cte =>
    if child = 0 then some base
    else
      let producer ← optimized.head?
      let required ← p.passThrough input true true
      some { required with cte := p.required.cte.withProducer cte producer.distribution }
  | tableScan _ | indexScan _ | constTableGet _ | cteScan _ | sort _ | motion _ | spool
  | partitionSelector _ _ => none

end PhysicalOp

namespace Derived

/-- What an operator without inputs provides: its rows are there to be read again. -/
def ofSource (d : Distribution) : Derived := { ofDistribution d with rewindability := .rewindable }

/-- Adds a scan whose partitions nothing has selected yet. -/
def leaveUnresolved (d : Derived) (dynamic : Bool) (scan : ScanId) : Derived :=
  if dynamic then
    { d with partition := { d.partition with unresolved := d.partition.unresolved.insert scan } }
  else d

/-- What several inputs provide together, under a given distribution. -/
def gathered (d : Distribution) (inputs : List Derived) : Derived :=
  { ofDistribution d with
    partition := .unionAll (inputs.map Derived.partition)
    cteConsumers := inputs.foldl (fun acc i => acc ∪ i.cteConsumers) ∅ }

/-- A join keeps the distribution of its outer input, unless that can be produced anywhere. -/
def ofJoin (inputs : List Derived) : Derived :=
  let outer : Distribution := (inputs[0]?.map Derived.distribution).getD .random
  let distribution : Distribution :=
    match outer, inputs[1]? with
    | .universal, some inner => inner.distribution
    | d, _ => d
  gathered distribution inputs

/-- The listed scans that the outer input selects partitions for are resolved. Unmatched outer rows
of a right outer join are padded, so only the distribution of its inner input holds. -/
def ofHashJoin (j : HashJoin) (inputs : List Derived) : Derived :=
  let d := ofJoin inputs
  let distribution : Distribution :=
    match j.type, inputs[1]? with
    | .rightOuter, some inner => inner.distribution
    | _, _ => d.distribution
  let propagated : SortedSet ScanId := (inputs.head?.map (fun o => o.partition.propagated)).getD ∅
  let resolved := (SortedSet.ofList (j.partitionScans.map Prod.fst)) ∩ propagated
  { d with
    distribution
    partition := ⟨d.partition.unresolved \ resolved, d.partition.propagated \ resolved⟩ }

def ofAppend (u : Concatenation) (inputs : List Derived) : Derived :=
  let distribution : Distribution :=
    if !inputs.isEmpty && inputs.all (fun i => i.distribution.isSingleton) then .singleton
    else
      match inputs with
      | [input] => input.distribution.mapped (u.inputColumns.head?.getD []) u.output
      | _ => .random
  gathered distribution inputs

/-- The distribution of the producer under the names of the reader. A reader without a producer
provides what no requirement accepts. -/
def ofCteScan (r : CteRead) (available : CteRequirement) : Derived :=
  let distribution : Distribution :=
    match available.producers.get? r.cte with
    | some d => d.mapped r.producerColumns r.columns
    | none => .random
  { ofSource distribution with cteConsumers := .singleton r.cte }

/-- What is read below the input that reads a common table expression is no longer open; what its
producer reads still is. -/
def ofSequence (cte : CteId) : List Derived → Derived
  | [] => default
  | [producer] => producer
  | producer :: body :: _ =>
    { body with
      cteConsumers := body.cteConsumers.erase cte ∪ producer.cteConsumers
      partition := .unionAll [producer.partition, body.partition] }

/-- Computed columns rename what the input provides. -/
def ofComputeScalar (assignments : List Assignment) (output : ColumnSet) (input : Derived) : Derived :=
  let renamed := assignments.filterMap (fun a =>
    match a.2 with
    | .column c => some (c, a.1)
    | _ => none)
  let source := renamed.map Prod.fst
  let target := renamed.map Prod.snd
  { input with
    ordering := (input.ordering.mapped source target).keepWhile output
    distribution := input.distribution.mapped source target }

/-- Moving rows destroys their order, unless sorted streams are merged. -/
def ofMotion (kind : MotionKind) (input : Derived) : Derived :=
  let moved (distribution : Distribution) (ordering : OrderSpec) : Derived :=
    { input with distribution, ordering, rewindability := .notRewindable }
  match kind with
  | .gather => moved .strictSingleton .none
  | .gatherMerge ordering => moved .strictSingleton ordering
  | .broadcast => moved .replicated .none
  | .redistribute columns => moved (.hashed columns) .none
  | .random => moved .random .none

def ofPartitionSelector (scan : ScanId) (column : Option ColumnId) (input : Derived) : Derived :=
  { input with
    partition :=
      if column.isSome then
        { input.partition with propagated := input.partition.propagated.insert scan }
      else { input.partition with unresolved := input.partition.unresolved.erase scan } }

end Derived

namespace PhysicalOp

/-- What an operator provides, given what its inputs provide. -/
def derived (op : PhysicalOp) (p : Position) (inputs : List Derived) : Derived :=
  let first : Derived := inputs.head?.getD default
  match op with
  | tableScan s => (Derived.ofSource s.distribution).leaveUnresolved s.dynamic s.scanId
  | indexScan s =>
    { (Derived.ofSource s.distribution).leaveUnresolved s.dynamic s.scanId with ordering := s.ordering }
  | constTableGet _ => .ofSource .universal
  | cteScan r => .ofCteScan r p.required.cte
  | filter _ => first
  | computeScalar l => .ofComputeScalar l p.logical.output first
  | hashJoin j => .ofHashJoin j inputs
  | nestedLoopJoin _ _ => { Derived.ofJoin inputs with ordering := first.ordering }
  | indexNestedLoopJoin j =>
    { first with
      distribution := if first.distribution = .replicated then j.distribution else first.distribution
      rewindability := .notRewindable }
  | hashAggregate _ => { first with ordering := .none, rewindability := .rewindable }
  | streamAggregate a => { first with ordering := first.ordering.keepWhile (.ofList a.groupBy) }
  | limit _ => first
  | append u => .ofAppend u inputs
  | dml _ _ _ distribution =>
    { Derived.ofDistribution distribution with
      partition := first.partition
      cteConsumers := first.cteConsumers }
  | sequence cte => .ofSequence cte inputs
  | sort ordering => { first with ordering, rewindability := .rewindable }
  | motion kind => .ofMotion kind first
  | spool => { first with rewindability := .rewindable }
  | partitionSelector scan column => .ofPartitionSelector scan column first

end PhysicalOp
end Cascade
