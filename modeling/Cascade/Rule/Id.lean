import Cascade.Collection.SortedSet
import Cascade.Error
import Cascade.Text.Quoted

/-!
Names of the rules that produce alternatives. Exploration rules produce equivalent logical
expressions, implementation rules physical ones.
-/

namespace Cascade

open Std

inductive RuleId
  | joinCommutativity
  | joinAssociativity
  | expandNAryJoin
  | pushSelectIntoJoin
  | semiJoinToInnerJoin
  | applyToJoin
  | splitAggregate
  | leftJoinToRightJoin
  | getToTableScan
  | selectToIndexScan
  | selectToDynamicIndexScan
  | selectToFilter
  | projectToComputeScalar
  | joinToHashJoin
  | joinToNestedLoopJoin
  | joinToIndexNestedLoopJoin
  | aggregateToHashAggregate
  | aggregateToStreamAggregate
  | implementLimit
  | unionAllToAppend
  | valuesToConstTableGet
  | implementDml
  | cteAnchorToSequence
  | cteConsumerToCteScan
  deriving DecidableEq, Repr

namespace RuleId

/-- All rules in order. -/
def all : List RuleId :=
  [joinCommutativity, joinAssociativity, expandNAryJoin, pushSelectIntoJoin, semiJoinToInnerJoin,
    applyToJoin, splitAggregate, leftJoinToRightJoin, getToTableScan, selectToIndexScan,
    selectToDynamicIndexScan, selectToFilter, projectToComputeScalar, joinToHashJoin,
    joinToNestedLoopJoin, joinToIndexNestedLoopJoin, aggregateToHashAggregate,
    aggregateToStreamAggregate, implementLimit, unionAllToAppend, valuesToConstTableGet,
    implementDml, cteAnchorToSequence, cteConsumerToCteScan]

/-- The list names every rule. -/
theorem mem_all (r : RuleId) : r ∈ all := by cases r <;> decide

theorem nodup_all : all.Nodup := by decide

def name : RuleId → String
  | joinCommutativity => "JoinCommutativity"
  | joinAssociativity => "JoinAssociativity"
  | expandNAryJoin => "ExpandNAryJoin"
  | pushSelectIntoJoin => "PushSelectIntoJoin"
  | semiJoinToInnerJoin => "SemiJoinToInnerJoin"
  | applyToJoin => "ApplyToJoin"
  | splitAggregate => "SplitAggregate"
  | leftJoinToRightJoin => "LeftJoinToRightJoin"
  | getToTableScan => "GetToTableScan"
  | selectToIndexScan => "SelectToIndexScan"
  | selectToDynamicIndexScan => "SelectToDynamicIndexScan"
  | selectToFilter => "SelectToFilter"
  | projectToComputeScalar => "ProjectToComputeScalar"
  | joinToHashJoin => "JoinToHashJoin"
  | joinToNestedLoopJoin => "JoinToNestedLoopJoin"
  | joinToIndexNestedLoopJoin => "JoinToIndexNestedLoopJoin"
  | aggregateToHashAggregate => "AggregateToHashAggregate"
  | aggregateToStreamAggregate => "AggregateToStreamAggregate"
  | implementLimit => "ImplementLimit"
  | unionAllToAppend => "UnionAllToAppend"
  | valuesToConstTableGet => "ValuesToConstTableGet"
  | implementDml => "ImplementDml"
  | cteAnchorToSequence => "CteAnchorToSequence"
  | cteConsumerToCteScan => "CteConsumerToCteScan"

instance : ToString RuleId := ⟨name⟩

/-- Whether the rule produces logical expressions. -/
def isExploration : RuleId → Bool
  | joinCommutativity | joinAssociativity | expandNAryJoin | pushSelectIntoJoin
  | semiJoinToInnerJoin | applyToJoin | splitAggregate | leftJoinToRightJoin => true
  | _ => false

theorem ctorIdx_inj (a b : RuleId) (h : a.ctorIdx = b.ctorIdx) : a = b := by
  cases a <;> cases b <;> first | rfl | cases h

/-- Rules are ordered as they are listed. -/
instance : Ord RuleId := ⟨fun a b => compare a.ctorIdx b.ctorIdx⟩

instance : TransOrd RuleId := transCmp_of_key RuleId.ctorIdx

instance : LawfulEqOrd RuleId := lawfulEqCmp_of_key RuleId.ctorIdx ctorIdx_inj

/-- Whether two names agree up to the case of letters of the ASCII alphabet. -/
def sameName (a b : String) : Bool := decide (a.toList.map Char.toLower = b.toList.map Char.toLower)

/-- The rule with a given name in any case. -/
def ofName (name : String) : Except PlanError RuleId :=
  match all.find? (fun r => sameName r.name name) with
  | some r => .ok r
  | none => .error (.argument ("Unknown xform: " ++ name))

end RuleId

abbrev RuleSet := SortedSet RuleId

namespace RuleSet

def all : RuleSet := .ofList RuleId.all

def exploration : RuleSet := .ofList (RuleId.all.filter RuleId.isExploration)

def implementation : RuleSet := .ofList (RuleId.all.filter (fun r => !r.isExploration))

/-- The rules with the given names; the first unknown name is the error. -/
def ofNames (names : List String) : Except PlanError RuleSet :=
  (names.mapM RuleId.ofName).map .ofList

instance : ToString RuleSet := ⟨fun s => Text.bracketed s.toList⟩

end RuleSet
end Cascade
