import Cascade.Rule.Exploration
import Cascade.Rule.Implementation

/-!
The rule behind each name, and the rules worth applying to an expression.
-/

namespace Cascade

variable {σ κ : Type}

/-- The rule with a given name. -/
def RuleId.rule : RuleId → Rule σ κ
  | joinCommutativity => Rule.joinCommutativity
  | joinAssociativity => Rule.joinAssociativity
  | expandNAryJoin => Rule.expandNAryJoin
  | pushSelectIntoJoin => Rule.pushSelectIntoJoin
  | semiJoinToInnerJoin => Rule.semiJoinToInnerJoin
  | applyToJoin => Rule.applyToJoin
  | splitAggregate => Rule.splitAggregate
  | leftJoinToRightJoin => Rule.leftJoinToRightJoin
  | getToTableScan => Rule.getToTableScan
  | selectToIndexScan => Rule.selectToIndexScan
  | selectToDynamicIndexScan => Rule.selectToDynamicIndexScan
  | selectToFilter => Rule.selectToFilter
  | projectToComputeScalar => Rule.projectToComputeScalar
  | joinToHashJoin => Rule.joinToHashJoin
  | joinToNestedLoopJoin => Rule.joinToNestedLoopJoin
  | joinToIndexNestedLoopJoin => Rule.joinToIndexNestedLoopJoin
  | aggregateToHashAggregate => Rule.aggregateToHashAggregate
  | aggregateToStreamAggregate => Rule.aggregateToStreamAggregate
  | implementLimit => Rule.implementLimit
  | unionAllToAppend => Rule.unionAllToAppend
  | valuesToConstTableGet => Rule.valuesToConstTableGet
  | implementDml => Rule.implementDml
  | cteAnchorToSequence => Rule.cteAnchorToSequence
  | cteConsumerToCteScan => Rule.cteConsumerToCteScan

namespace Rule

/-- The alternatives of a rule for every binding of its pattern to an expression, in order. -/
def alternatives (r : Rule σ κ) (ctx : RuleContext σ κ) (e : ExprId) : RuleM (List Expr) := do
  let bindings ← liftM (ctx.memo.bindings e r.pattern ctx.config.maxBindings)
  let results ← bindings.mapM (r.transform ctx)
  pure results.flatten

end Rule

namespace RuleContext

/-- The rules of one kind that are enabled, were not applied yet and are worth applying to an
expression: in the given order, those of low promise before those of high promise. -/
def candidates (ctx : RuleContext σ κ) (enabled : RuleSet) (order : List RuleId) (exploration : Bool)
    (e : MemoExpr) : List RuleId :=
  match e.op.logical? with
  | none => []
  | some op =>
    let promises (r : RuleId) : Promise :=
      let rule : Rule σ κ := r.rule
      if rule.pattern.matchesRoot op then rule.promise ctx op else .none
    let remaining := order.filter (fun r =>
      decide (r.isExploration = exploration) && decide (r ∈ enabled) && !decide (r ∈ e.applied))
    remaining.filter (fun r => decide (promises r = .low)) ++ remaining.filter (fun r => decide (promises r = .high))

end RuleContext
end Cascade
