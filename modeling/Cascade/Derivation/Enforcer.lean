import Cascade.Derivation.Physical

/-!
Enforcers turn what a plan provides into what is asked of it. They are placed above the plan in a
fixed order: partition selectors, a motion, a sort and a spool. A motion destroys the order of its
input, so the sort comes after it.
-/

namespace Cascade

/-- What it takes to have one property. -/
inductive Enforcement
  /-- the plan has the property -/
  | notNeeded
  /-- an operator above the plan provides it -/
  | enforce (op : PhysicalOp)
  /-- no operator above the plan provides it -/
  | prohibited
  deriving DecidableEq

namespace Derived

/-- Rows that exist in several copies, which a move between segments would count more than once. -/
def isDuplicated (d : Derived) : Bool :=
  decide (d.distribution = .replicated) || decide (d.distribution = .universal)

/-- The motion that provides the required distribution. -/
def enforceDistribution (d : Derived) (required : Required) (e : EquivalenceClasses) (subset : Bool) :
    Enforcement :=
  if d.distribution.satisfies required.distribution e subset then .notNeeded
  else
    let move (kind : MotionKind) : Enforcement := .enforce (.motion kind)
    let gather : Enforcement :=
      if !required.ordering.isEmpty && d.ordering.satisfies required.ordering then
        move (.gatherMerge required.ordering)
      else move .gather
    let spread (kind : MotionKind) : Enforcement := if d.isDuplicated then .prohibited else move kind
    match required.distribution.spec with
    | .any => .notNeeded
    | .singleton | .strictSingleton => gather
    | .replicated => move .broadcast
    | .hashed columns => spread (.redistribute columns)
    | .random | .nonSingleton => spread .random
    | .universal => .prohibited

/-- The sort that provides the required ordering. -/
def enforceOrdering (d : Derived) (required : Required) : Enforcement :=
  if d.ordering.satisfies required.ordering then .notNeeded else .enforce (.sort required.ordering)

/-- The selectors that resolve scans which must not stay unresolved and that propagate the required
selections; none if the column of a propagator is missing. -/
def partitionSelectors? (d : Derived) (required : Required) (output : ColumnSet) :
    Option (List PhysicalOp) :=
  let static := d.partition.unresolved \ required.partition.allowedUnresolved
  let missing := required.partition.propagators.entries.filter
    (fun e => !decide (e.1 ∈ d.partition.propagated))
  if missing.all (fun e => decide (e.2 ∈ output)) then
    some (static.toList.map (fun s => .partitionSelector s none)
      ++ missing.map (fun e => .partitionSelector e.1 (some e.2)))
  else none

end Derived

/-- Enforcers above a plan, from the lowest to the highest, and what the highest provides. -/
structure Enforced where
  ops : List PhysicalOp
  derived : Derived

namespace Enforced

/-- Puts an operator above the others. -/
def push (x : Enforced) (p : Position) (op : PhysicalOp) : Enforced :=
  ⟨x.ops ++ [op], op.derived p [x.derived]⟩

/-- Puts an operator above the others if it is needed. -/
def apply (x : Enforced) (p : Position) : Enforcement → Option Enforced
  | .notNeeded => some x
  | .enforce op => some (x.push p op)
  | .prohibited => none

end Enforced

/-- The enforcers that turn what a plan provides into what its position requires. Nothing provides a
missing common table expression. -/
def Position.enforce? (p : Position) (derived : Derived) (subset : Bool) : Option Enforced := do
  if !p.required.cte.allows derived.cteConsumers then none
  let selectors ← derived.partitionSelectors? p.required p.logical.output
  let x := selectors.foldl (fun (x : Enforced) op => x.push p op) ⟨[], derived⟩
  let x ← x.apply p (x.derived.enforceDistribution p.required p.logical.equivalences subset)
  let x ← x.apply p (x.derived.enforceOrdering p.required)
  let x :=
    if x.derived.rewindability.satisfies p.required.rewindability then x else x.push p .spool
  if x.derived.satisfies p.required p.logical.equivalences subset then some x else none

end Cascade
