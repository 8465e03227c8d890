import Cascade.Memo.Basic

/-!
Winners: the best known context of a group for each requirement.
-/

namespace Cascade.Memo

variable {σ κ : Type}

/-- Refuses a context of an unknown expression, or with inputs that do not fit or are gone. -/
def checkContext (m : Memo σ κ) (c : CostContext κ) : Except PlanError MemoExpr := do
  let e ← m.expr c.expr
  if e.inputs.length ≠ c.inputs.length then
    throw (.internal ("Cost context of expression " ++ toString c.expr ++ " has "
      ++ toString c.inputs.length ++ " inputs but the expression has " ++ toString e.inputs.length
      ++ " inputs"))
  c.inputs.forM (fun i => (m.contexts.get i).map (fun _ => ()))
  pure e

/-- Offers a context to its group. It becomes the winner if there is none or if it is better, and is
given up otherwise. The replaced winner is released. -/
def addContext [LT κ] [DecidableLT κ] (m : Memo σ κ) (c : CostContext κ) :
    Except PlanError (Option ContextId × Memo σ κ) := do
  let e ← m.checkContext c
  let g := m.find e.group
  if (m.winner? g c.required).any (fun w => !c.isBetterThan w.2) then
    pure (none, { m with contexts := m.contexts.discard })
  else
    let previous := (m.group? g).bind (fun x => x.winners.get? c.required)
    let (id, contexts) := m.contexts.add c
    let m := { m with contexts }.modifyGroup g (fun x => { x with winners := x.winners.set c.required id })
    match previous with
    | some p => pure (some id, { m with contexts := m.contexts.release p })
    | none => pure (some id, m)

/-- Keeps a context until it is unpinned. -/
def pin (m : Memo σ κ) (id : ContextId) : Except PlanError (Memo σ κ) := do
  let _ ← m.contexts.get id
  pure { m with contexts := m.contexts.retain id }

/-- Takes a pin back. -/
def unpin (m : Memo σ κ) (id : ContextId) : Memo σ κ := { m with contexts := m.contexts.release id }

end Cascade.Memo
