import Cascade.Memo.Basic
import Cascade.Rule.Pattern

/-!
Bindings: trees over the groups of a memo that match a pattern. Where the pattern names an operator
there is a binding for every matching member of the group, up to a limit.
-/

namespace Cascade.Memo

variable {σ κ : Type}

/-- A tree of the first logical members of groups. `path` holds the groups above; a member that would
lead back to one of them is passed over, and a group without any other member stays a reference. -/
def expandBelow (m : Memo σ κ) (path : List GroupId) (g : GroupId) : Nat → Except PlanError Expr
  | 0 => .error (.tooDeep maxDepth)
  | levels + 1 =>
    let g := m.find g
    let path := g :: path
    let isFinite (e : MemoExpr) : Bool :=
      e.op.isLogical && e.inputs.all (fun i => !decide (m.find i ∈ path))
    match (m.members g).find? (fun x => isFinite x.2) with
    | none => .ok (.group g)
    | some (_, e) => do
      let inputs ← e.inputs.mapM (fun i => m.expandBelow path i levels)
      pure (.node e.op inputs)

/-- A group as a tree. -/
def expand (m : Memo σ κ) (g : GroupId) : Except PlanError Expr := m.expandBelow [] g (maxDepth + 1)

/-- All ways to choose one element of every list, in order, at most `limit` at every step. -/
def cappedProduct {α : Type} (limit : Nat) (choices : List (List α)) : List (List α) :=
  choices.foldl
    (fun acc choice => (acc.flatMap (fun chosen => choice.map (fun c => chosen ++ [c]))).take limit)
    [[]]

mutual

/-- The bindings of a pattern to an expression. -/
def bindExpr (m : Memo σ κ) (limit : Nat) (id : ExprId) : Pattern → Except PlanError (List Expr)
  | .operator kind inputs => do
    let e ← m.expr id
    match e.op.logical? with
    | none => pure []
    | some op =>
      if !(Pattern.operator kind inputs).matchesRoot op then pure []
      else
        match ← m.bindInputs limit (Pattern.takesRest inputs) e.inputs inputs with
        | none => pure []
        | some choices => pure ((cappedProduct limit choices).map (Expr.ofLogical op))
  | _ => pure []

/-- The bindings of patterns to inputs, input by input; none if there is an input without one. With
`rest` the inputs after the last pattern are bound as groups. -/
def bindInputs (m : Memo σ κ) (limit : Nat) (rest : Bool) :
    List GroupId → List Pattern → Except PlanError (Option (List (List Expr)))
  | [], _ => pure (some [])
  | groups, [] => if rest then pure (some (groups.map (fun g => [.group (m.find g)]))) else pure none
  | g :: groups, p :: ps => do
    let g := m.find g
    let bound ← match p with
      | .leaf | .multiLeaf => pure [.group g]
      | .tree => do
        let tree ← m.expand g
        pure [tree]
      | .operator kind inputs => do
        let found ← (m.members g).foldlM (fun acc x =>
          if limit ≤ acc.length then pure acc
          else do
            let more ← m.bindExpr limit x.1 (.operator kind inputs)
            pure (acc ++ more)) []
        pure (found.take limit)
    if bound.isEmpty then pure none
    else
      match ← m.bindInputs limit rest groups ps with
      | none => pure none
      | some choices => pure (some (bound :: choices))

end

/-- The bindings of a pattern to an expression; the root of the pattern has to be an operator. -/
def bindings (m : Memo σ κ) (id : ExprId) (p : Pattern) (limit : Nat) : Except PlanError (List Expr) :=
  match p with
  | .operator kind inputs => m.bindExpr limit id (.operator kind inputs)
  | p => .error (.internal ("The root of a pattern must be an operator: " ++ toString p))

end Cascade.Memo
