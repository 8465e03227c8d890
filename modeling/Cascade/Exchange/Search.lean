import Cascade.Derivation.Enforcer
import Cascade.Exchange.Plan
import Cascade.Memo.Insert
import Cascade.Search.Default
/-!
Results of the memo and of a search in the exchange format: cost contexts, insertions, enforcers and
plans with what the search did to find them.
-/

namespace Cascade

namespace Decode

def contextId (x : Json) : Decoded ContextId := do
  return ⟨← smallNat maxContextNumber x⟩

def exprId (x : Json) : Decoded ExprId := do
  return ⟨← smallNat maxGroupNumber x⟩

def inputEstimate (x : Json) : Decoded InputEstimate := do
  let logical ← logicalProperties (x.field "logical")
  let stats ← statistics (x.field "stats")
  pure ⟨logical, stats⟩

end Decode

namespace Encode

def exprId (e : ExprId) : Json := nat e.index

def costContext (id : ContextId) (c : CostContext Cost) : Json :=
  .obj [("id", text id), ("expr", exprId c.expr), ("cost", float c.cost.value), ("rank", nat c.rank),
    ("request", nat c.request), ("expr_cost", float c.exprCost.value), ("derived", derived c.derived),
    ("enforcers", list (fun (e : EnforcerStep Cost) => text e.op) c.enforcers),
    ("inputs", list text c.inputs)]

/-- Where an insertion put an expression. -/
def placed (p : Memo.Placed) : List (String × Json) :=
  [("group", groupId p.group), ("expr", optional exprId p.expr)]

def enforcement : Enforcement → Json
  | .notNeeded => .str "NotNeeded"
  | .prohibited => .str "Prohibited"
  | .enforce op => physicalOp op

/-- What a search did. -/
def searchStats (o : Optimized Cost) : Json :=
  .obj [("stages", nat o.stats.stages), ("groups", nat o.groups), ("exprs", nat o.exprs),
    ("xforms", nat o.stats.ruleApplications), ("alternatives", nat o.stats.alternatives),
    ("pruned", nat o.stats.pruned), ("discarded", nat o.discarded),
    ("jobs", .obj (o.stats.jobs.entries.map (fun e => (e.1, nat e.2)))),
    ("total_jobs", nat o.stats.totalJobs)]

/-- A plan, its cost, how many motions it has and what the search did. -/
def optimized (o : Optimized Cost) : Json :=
  .obj [("text", text o.plan), ("plan", physicalPlan o.plan), ("cost", float o.cost.value),
    ("cost_text", text o.cost), ("nodes", nat o.plan.size),
    ("motions", nat (o.plan.ops.filter PhysicalOp.isMotion).length),
    ("has_enforcer", .bool (o.plan.any PhysicalOp.isEnforcer)), ("stats", searchStats o)]

end Encode

end Cascade
