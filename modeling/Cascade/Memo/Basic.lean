import Cascade.Algebra.Display
import Cascade.Collection.Lookup
import Cascade.Derivation.Logical
import Cascade.Memo.Context
import Cascade.Memo.Links
import Cascade.Rule.Id

/-!
The memo: groups of equivalent expressions. An expression is an operator over groups, so two
expressions are duplicates if they have the same operator and the same groups as inputs
(`ExprKey`). Groups that turn out to be equivalent are linked: the smaller one stands for both.
-/

namespace Cascade

/-- A group of equivalent expressions; `σ` is the type of its statistics. -/
structure Group (σ : Type) where
  /-- its expressions in the order they came -/
  members : List ExprId
  logical : LogicalProperties
  statistics : σ
  explored : Bool
  implemented : Bool
  /-- the requirements it was optimized for -/
  optimized : List Required
  /-- the best known context for each requirement -/
  winners : Lookup Required ContextId

/-- An operator over groups. -/
structure MemoExpr where
  /-- the group the expression is recorded under -/
  group : GroupId
  op : Operator
  inputs : List GroupId
  /-- the rules that were applied to it -/
  applied : RuleSet
  explored : Bool
  implemented : Bool
  /-- the requirements it was optimized for -/
  optimized : List Required
  /-- set once a merge has made it a duplicate -/
  removed : Bool

/-- What identifies an expression. -/
structure ExprKey where
  op : Operator
  inputs : List GroupId
  deriving DecidableEq

namespace MemoExpr

def key (e : MemoExpr) : ExprKey := ⟨e.op, e.inputs⟩

/-- The expression over references to its input groups. -/
def toExpr (e : MemoExpr) : Expr := .node e.op (e.inputs.map Expr.group)

end MemoExpr

/-- Where properties and statistics of operators come from. -/
structure PropertySource (σ : Type) where
  logical : LogicalOp → List LogicalProperties → Option LogicalProperties →
    Except PlanError LogicalProperties
  statistics : LogicalOp → List (LogicalProperties × σ) → Option σ → Except PlanError σ

/-- Groups of equivalent expressions, with the best known plans of each; `κ` is the type of costs. -/
structure Memo (σ κ : Type) where
  groups : List (Group σ)
  links : Links
  exprs : List MemoExpr
  /-- the expression with each key -/
  index : Lookup ExprKey ExprId
  contexts : ContextStore κ
  cteProducers : Lookup CteId GroupId
  /-- whether the properties of every logical alternative are compared with those of its group -/
  verify : Bool
  /-- how many expressions there may be -/
  limit : Option Nat

namespace PlanError

def unknownGroup (g : GroupId) : PlanError := .internal ("Unknown group: " ++ toString g)

def unknownExpr (e : ExprId) : PlanError := .internal ("Unknown expression: " ++ toString e)

/-- An expression is nested more deeply than `maxDepth`. -/
def tooDeep (maxDepth : Nat) : PlanError :=
  .internal ("Expression tree is too deep. Max depth: " ++ toString maxDepth)

end PlanError

namespace Memo

variable {σ κ : Type}

/-- How deep an expression can be nested. -/
def maxDepth : Nat := 256

def empty (verify : Bool) (limit : Option Nat) : Memo σ κ := ⟨[], .empty, [], ∅, .empty, ∅, verify, limit⟩

/-- The group that stands for a group. -/
def find (m : Memo σ κ) (g : GroupId) : GroupId := ⟨m.links.find g.index⟩

/-- The group that stands for a known group. -/
def checkedFind (m : Memo σ κ) (g : GroupId) : Except PlanError GroupId :=
  if g.index < m.groups.length then .ok (m.find g) else .error (.unknownGroup g)

/-- The content of a group, or of the group that stands for it. -/
def group? (m : Memo σ κ) (g : GroupId) : Option (Group σ) := m.groups[(m.find g).index]?

def group (m : Memo σ κ) (g : GroupId) : Except PlanError (Group σ) :=
  match m.group? g with
  | some x => .ok x
  | none => .error (.unknownGroup g)

def expr? (m : Memo σ κ) (e : ExprId) : Option MemoExpr := m.exprs[e.index]?

def expr (m : Memo σ κ) (e : ExprId) : Except PlanError MemoExpr :=
  match m.expr? e with
  | some x => .ok x
  | none => .error (.unknownExpr e)

/-- The members of a group with their content. -/
def members (m : Memo σ κ) (g : GroupId) : List (ExprId × MemoExpr) :=
  match m.group? g with
  | some x => x.members.filterMap (fun e => (m.expr? e).map (fun c => (e, c)))
  | none => []

/-- The groups that stand for themselves. -/
def groupIds (m : Memo σ κ) : List GroupId := m.links.roots.map GroupId.mk

def groupCount (m : Memo σ κ) : Nat := m.links.roots.length

/-- The number of expressions, also of those that were removed as duplicates. -/
def exprCount (m : Memo σ κ) : Nat := m.exprs.length

/-- The group that produces a common table expression. -/
def cteProducer? (m : Memo σ κ) (cte : CteId) : Option GroupId := (m.cteProducers.get? cte).map m.find

/-- The group whose rows an operator reads besides its inputs. -/
def producerOf? (m : Memo σ κ) : LogicalOp → Option GroupId
  | .cteConsumer r => m.cteProducer? r.cte
  | _ => none

/-- The best known context of a group for a requirement. -/
def winner? (m : Memo σ κ) (g : GroupId) (r : Required) : Option (ContextId × CostContext κ) := do
  let x ← m.group? g
  let id ← x.winners.get? r
  let slot ← m.contexts.slots[id.index]?
  let c ← slot.context
  some (id, c)

def modifyGroup (m : Memo σ κ) (g : GroupId) (f : Group σ → Group σ) : Memo σ κ :=
  { m with groups := m.groups.modify g.index f }

def modifyExpr (m : Memo σ κ) (e : ExprId) (f : MemoExpr → MemoExpr) : Memo σ κ :=
  { m with exprs := m.exprs.modify e.index f }

/-- Adds a requirement to a list without repetition. -/
def addRequirement (r : Required) (l : List Required) : List Required := if r ∈ l then l else l ++ [r]

/-- Records that a rule was applied to an expression. -/
def markApplied (m : Memo σ κ) (e : ExprId) (r : RuleId) : Memo σ κ :=
  m.modifyExpr e (fun x => { x with applied := x.applied.insert r })

def wasApplied (m : Memo σ κ) (e : ExprId) (r : RuleId) : Bool :=
  (m.expr? e).any (fun x => decide (r ∈ x.applied))

def markExprExplored (m : Memo σ κ) (e : ExprId) : Memo σ κ :=
  m.modifyExpr e (fun x => { x with explored := true })

def markExprImplemented (m : Memo σ κ) (e : ExprId) : Memo σ κ :=
  m.modifyExpr e (fun x => { x with implemented := true })

def markExprOptimized (m : Memo σ κ) (e : ExprId) (r : Required) : Memo σ κ :=
  m.modifyExpr e (fun x => { x with optimized := addRequirement r x.optimized })

def markGroupExplored (m : Memo σ κ) (g : GroupId) : Memo σ κ :=
  m.modifyGroup (m.find g) (fun x => { x with explored := true })

def markGroupImplemented (m : Memo σ κ) (g : GroupId) : Memo σ κ :=
  m.modifyGroup (m.find g) (fun x => { x with implemented := true })

def markGroupOptimized (m : Memo σ κ) (g : GroupId) (r : Required) : Memo σ κ :=
  m.modifyGroup (m.find g) (fun x => { x with optimized := addRequirement r x.optimized })

/-- Forgets what was explored, implemented and optimized, so that another stage looks at everything
again. Applied rules and winners are kept. -/
def resetSearch (m : Memo σ κ) : Memo σ κ :=
  { m with
    groups := m.groups.map (fun x => { x with explored := false, implemented := false, optimized := [] })
    exprs := m.exprs.map (fun x => { x with explored := false, implemented := false, optimized := [] }) }

mutual

/-- The logical properties an expression would have. -/
def derive (m : Memo σ κ) (source : PropertySource σ) : Expr → Except PlanError LogicalProperties
  | .group g => do
    let g ← m.checkedFind g
    return (← m.group g).logical
  | .node (.logical op) inputs => do
    let inputs ← m.deriveAll source inputs
    source.logical op inputs ((m.producerOf? op).bind m.group? |>.map Group.logical)
  | .node (.physical op) _ =>
    .error (.argument (toString op ++ ": Can not derive logical properties"))

def deriveAll (m : Memo σ κ) (source : PropertySource σ) :
    List Expr → Except PlanError (List LogicalProperties)
  | [] => .ok []
  | e :: es => do
    let p ← m.derive source e
    let ps ← m.deriveAll source es
    return p :: ps

end

def memberText (m : Memo σ κ) (e : MemoExpr) : String :=
  toString e.op ++
    if e.inputs.isEmpty then "" else " inputs=" ++ Text.bracketed (e.inputs.map m.find)

/-- The groups that stand for themselves, the last one first, each with a line per member. -/
def text (m : Memo σ κ) : String :=
  String.join (m.groupIds.reverse.map (fun g =>
    toString g ++ " " ++ "\n   ".intercalate ((m.members g).map (fun x => m.memberText x.2)) ++ "\n"))

end Memo
end Cascade
