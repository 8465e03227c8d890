import Cascade.Memo.Basic
import Cascade.Plan

/-!
Plans of cost contexts. The inputs of a plan are those its contexts were made with, whatever is the
best plan of their groups by now.
-/

namespace Cascade.Memo

variable {σ κ : Type}

/-- The plan of a context, at most so many levels deep. -/
def planAt (m : Memo σ κ) : Nat → ContextId → Except PlanError (Plan κ)
  | 0, _ => .error (.internal ("Plan is too deep. Max depth: " ++ toString maxDepth))
  | levels + 1, id => do
    let c ← m.contexts.get id
    let e ← m.expr c.expr
    match e.op.physical? with
    | none =>
      throw (.internal ("Cost context " ++ toString id ++ " refers to a logical expression "
        ++ toString c.expr))
    | some op =>
      let inputs ← c.inputs.mapM (m.planAt levels)
      pure (c.enforcers.foldl (fun p x => .node x.op [p] x.cost x.derived)
        (.node op inputs c.exprCost c.exprDerived))

def plan (m : Memo σ κ) (id : ContextId) : Except PlanError (Plan κ) := m.planAt (maxDepth + 1) id

end Cascade.Memo
