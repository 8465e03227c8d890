import Cascade.Cost.Basic
import Cascade.Exchange.Operator
import Cascade.Plan
/-!
Expressions and plans in the exchange format. An expression is the number of a group, the name of a
variable, or an operator with its inputs.
-/

namespace Cascade

/-- What a variable stands for: a query under construction or an expression. -/
inductive Variable
  | builder (b : Builder)
  | expr (e : Expr)

/-- The variables of a script by their names. -/
abbrev Variables := List (String × Variable)

namespace Variables

def get? (vars : Variables) (name : String) : Option Variable :=
  (vars.find? (fun e => decide (e.1 = name))).map Prod.snd

def set (vars : Variables) (name : String) (v : Variable) : Variables :=
  (name, v) :: vars.filter (fun e => !decide (e.1 = name))

end Variables

/-- Numbers of groups and expressions that a document may name. -/
def maxGroupNumber : Nat := 600

/-- Numbers of cost contexts that a document may name. -/
def maxContextNumber : Nat := 100

namespace Decode

/-- A number below `bound`. -/
def smallNat (bound : Nat) (x : Json) : Decoded Nat := do
  let n ← nat x
  if n < bound then pure n else badInput

def groupId (x : Json) : Decoded GroupId := do
  return ⟨← smallNat maxGroupNumber x⟩

/-- What a variable stands for as an expression: a query under construction is finished. -/
def variableExpr (vars : Variables) (name : String) : Decoded Expr := do
  match ← present (vars.get? name) with
  | .builder b => fromPlanner (b.build.run .empty).1
  | .expr e => pure e

def expr (vars : Variables) (columns : Option Columns) (x : Json) : Decoded Expr :=
  match x with
  | .num t => Expr.group <$> groupId (.num t)
  | .str name => variableExpr vars name
  | .obj fields => do
    let op ← operator columns ((Json.obj fields).field "op")
    match _inputs : ((Json.obj fields).field "inputs").items? with
    | none => badInput
    | some l => do
      let inputs ← l.attach.mapM (fun e => expr vars columns e.1)
      pure (.node op inputs)
  | _ => badInput
termination_by x
decreasing_by exact Json.sizeOf_lt_of_mem_field _inputs e.2

def physicalPlan (x : Json) : Decoded (Plan Cost) := do
  let op ← physicalOp none (x.field "op")
  match _inputs : (x.field "inputs").items? with
  | none => badInput
  | some l => do
    let inputs ← l.attach.mapM (fun p => physicalPlan p.1)
    let cost ← orElse 0.0 float (x.field "cost")
    let derived ← derived (x.field "derived")
    pure (.node op inputs (.ofFloat cost) derived)
termination_by x
decreasing_by exact Json.sizeOf_lt_of_mem_field _inputs p.2

end Decode

namespace Encode

def groupId (g : GroupId) : Json := nat g.index

mutual

def expr : Expr → Json
  | .group g => groupId g
  | .node op inputs => .obj [("op", operator op), ("inputs", .arr (exprs inputs))]

def exprs : List Expr → List Json
  | [] => []
  | e :: es => expr e :: exprs es

end

mutual

def physicalPlan : Plan Cost → Json
  | .node op inputs cost d =>
    .obj [("op", physicalOp op), ("inputs", .arr (physicalPlans inputs)), ("cost", float cost.value),
      ("derived", derived d)]

def physicalPlans : List (Plan Cost) → List Json
  | [] => []
  | p :: ps => physicalPlan p :: physicalPlans ps

end

end Encode

end Cascade
