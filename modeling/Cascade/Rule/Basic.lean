import Cascade.Config
import Cascade.Hint
import Cascade.Rule.Binding

/-!
Rules. A rule has a pattern; for an expression that matches it says how promising it is to be
applied, and for every binding it lists alternatives.
-/

namespace Cascade

/-- How promising a rule is. Rules of high promise are applied first, those without none are not
applied. -/
inductive Promise
  | none
  | low
  | high
  deriving DecidableEq, Repr

instance : ToString Promise where
  toString
    | .none => "None"
    | .low => "Low"
    | .high => "High"

/-- What a rule can look at. -/
structure RuleContext (σ κ : Type) where
  memo : Memo σ κ
  /-- the group of the expression the rule is applied to -/
  group : GroupId
  catalog : Catalog
  config : Config
  hints : Hints
  source : Columns → PropertySource σ

/-- Rules can register columns. -/
abbrev RuleM := ExceptT PlanError (StateM Columns)

structure Rule (σ κ : Type) where
  pattern : Pattern
  promise : RuleContext σ κ → LogicalOp → Promise
  transform : RuleContext σ κ → Expr → RuleM (List Expr)

namespace RuleContext

variable {σ κ : Type}

def logical (c : RuleContext σ κ) : LogicalProperties := ((c.memo.group? c.group).map Group.logical).getD default

def properties (c : RuleContext σ κ) (e : Expr) : RuleM LogicalProperties := do
  let columns ← get
  liftM (c.memo.derive (c.source columns) e)

/-- The columns an expression produces. -/
def output (c : RuleContext σ κ) (e : Expr) : RuleM ColumnSet := do
  return (← c.properties e).output

/-- Whether the join order of the tables of the group is explored. -/
def reordersJoins (c : RuleContext σ κ) : Bool :=
  decide (c.logical.relations.size ≤ c.config.joinOrderThreshold)

end RuleContext

namespace Rule

variable {σ κ : Type}

/-- A rule that applies wherever its pattern matches. -/
def always : RuleContext σ κ → LogicalOp → Promise := fun _ _ => .low

end Rule
end Cascade
