import Cascade.Rule.Basic

/-!
Exploration rules: equivalent logical expressions. What a rule does to an expression is a function of
its own, which the rule then applies to the bindings of its pattern.
-/

namespace Cascade

variable {σ κ : Type}

namespace Expr

def join (type : JoinType) (on : Scalar) (left right : Expr) : Expr := ofLogical (.join type on) [left, right]

def select (filter : Scalar) (input : Expr) : Expr := ofLogical (.select filter) [input]

/-- Filters by conjuncts, if there are any. -/
def selectAll (conjuncts : List Scalar) (input : Expr) : Expr :=
  if conjuncts.isEmpty then input else select (Scalar.conjunction conjuncts) input

end Expr

namespace Rule

/-- The predicates that mention only the given columns, and the others. -/
def splitByColumns (columns : ColumnSet) (l : List Scalar) : List Scalar × List Scalar :=
  l.partition (fun e => e.columns.subset columns)

/-! Swapping the inputs of a join. -/

/-- The promise of a rule for joins of a type. -/
def joinPromise (type : JoinType) (p : Promise) : LogicalOp → Promise
  | .join t _ => if t = type then p else .none
  | _ => .none

/-- Inner joins are only reordered up to a number of tables. -/
def reorderPromise (c : RuleContext σ κ) (op : LogicalOp) : Promise :=
  if c.reordersJoins then joinPromise .inner .low op else .none

/-- Turns a join of one type around into a join of another. -/
def swapJoin (before after : JoinType) : Expr → List Expr
  | .node (.logical (.join type on)) [left, right] =>
    if type = before then [.join after on right left] else []
  | _ => []

def twoInputs : Pattern := .withLeaves .join 2

/-- `A ⋈ B` as `B ⋈ A`. -/
def joinCommutativity : Rule σ κ where
  pattern := twoInputs
  promise := reorderPromise
  transform _ e := pure (swapJoin .inner .inner e)

/-- `A ⟕ B` as `B ⟖ A`. -/
def leftJoinToRightJoin : Rule σ κ where
  pattern := twoInputs
  promise _ := joinPromise .leftOuter .low
  transform _ e := pure (swapJoin .leftOuter .rightOuter e)

/-! Regrouping inner joins. -/

/-- `(A ⋈ B) ⋈ C` as `A ⋈ (B ⋈ C)`: the lower join takes the conjuncts over `B` and `C`, the upper one
the others. Neither is left without a condition. -/
def regroup (bottomOn topOn : Scalar) (a b c : Expr) (bc : ColumnSet) : List Expr :=
  let (lower, upper) := splitByColumns bc (bottomOn.conjuncts ++ topOn.conjuncts)
  if lower.isEmpty || upper.isEmpty then []
  else [.join .inner (Scalar.conjunction upper) a (.join .inner (Scalar.conjunction lower) b c)]

def joinAssociativity : Rule σ κ where
  pattern := .operator .join [twoInputs, .leaf]
  promise := reorderPromise
  transform ctx
    | .node (.logical (.join .inner topOn)) [.node (.logical (.join .inner bottomOn)) [a, b], c] => do
      let bColumns ← ctx.output b
      let cColumns ← ctx.output c
      pure (regroup bottomOn topOn a b c (bColumns ∪ cColumns))
    | _ => pure []

/-! Joins of many inputs. -/

/-- Joins the remaining inputs one by one to a tree with the given columns. Every conjunct goes to the
lowest join that has its columns; what is left goes to the topmost one. -/
def leftDeep (ctx : RuleContext σ κ) (tree : Expr) (columns : ColumnSet) (conjuncts : List Scalar) :
    List Expr → RuleM Expr
  | [] => pure tree
  | [last] => do
    let _ ← ctx.output last
    pure (.join .inner (Scalar.conjunction conjuncts) tree last)
  | input :: rest => do
    let columns := columns ∪ (← ctx.output input)
    let (placed, remaining) := splitByColumns columns conjuncts
    leftDeep ctx (.join .inner (Scalar.conjunction placed) tree input) columns remaining rest

/-- A join of many inputs as a left-deep tree of joins in the order of the inputs. -/
def expandNAryJoin : Rule σ κ where
  pattern := .anyInputs .naryJoin
  promise _ _ := .high
  transform ctx
    | .node (.logical (.naryJoin on)) [only] => pure [.select (Scalar.conjunction on.conjuncts) only]
    | .node (.logical (.naryJoin on)) (first :: rest) => do
      let columns ← ctx.output first
      let tree ← leftDeep ctx first columns on.conjuncts rest
      pure [tree]
    | _ => pure []

/-! Filters above joins. -/

/-- Where the conjuncts of a filter above a join go. -/
structure FilterParts where
  left : List Scalar
  right : List Scalar
  join : List Scalar
  remaining : List Scalar

/-- A filter can be moved to an input whose rows the join preserves; an inner join takes conjuncts
over both inputs into its condition. -/
def splitFilter (type : JoinType) (left right : ColumnSet) (filter : Scalar) : FilterParts :=
  let pushesLeft : Bool := !decide (type = .rightOuter)
  let pushesRight : Bool := decide (type = .inner) || decide (type = .rightOuter)
  let toLeft (e : Scalar) : Bool := pushesLeft && e.columns.subset left
  let toRight (e : Scalar) : Bool := pushesRight && e.columns.subset right
  let toJoin (e : Scalar) : Bool := decide (type = .inner) && e.columns.subset (left ∪ right)
  let (leftPart, others) := filter.conjuncts.partition toLeft
  let (rightPart, others) := others.partition toRight
  let (joinPart, remaining) := others.partition toJoin
  ⟨leftPart, rightPart, joinPart, remaining⟩

/-- A filter above a join, moved below or into the join as far as possible. -/
def pushSelectIntoJoin : Rule σ κ where
  pattern := .operator .select [.operator .join [.tree, .tree]]
  promise _
    | .select filter => if filter.isTrue then .none else .high
    | _ => .none
  transform ctx
    | .node (.logical (.select filter)) [.node (.logical (.join type on)) [left, right]] => do
      let leftColumns ← ctx.output left
      let rightColumns ← ctx.output right
      let parts := splitFilter type leftColumns rightColumns filter
      if parts.left.isEmpty && parts.right.isEmpty && parts.join.isEmpty then pure []
      else
        let join := .join type (Scalar.conjunction (on.conjuncts ++ parts.join))
          (.selectAll parts.left left) (.selectAll parts.right right)
        pure [.selectAll parts.remaining join]
    | _ => pure []

/-! Semi joins. -/

/-- A semi join whose condition mentions only the left input, as an inner join with at most one row of
the right input. -/
def semiJoinToInnerJoin : Rule σ κ where
  pattern := twoInputs
  promise ctx
    | .join .leftSemi on =>
      if on.columns.toList.all (fun c => decide (c ∈ ctx.logical.output) || decide (c ∈ ctx.logical.outerRefs))
      then .high else .none
    | _ => .none
  transform ctx
    | .node (.logical (.join .leftSemi on)) [left, right] => do
      if (← ctx.properties right).maxCardinality = .bounded 0 then pure []
      else
        let oneRow := Expr.ofLogical (.limit ⟨0, some 1, .none⟩) [right]
        let columns := (← ctx.output left).toList
        pure [.ofLogical (.project (columns.map (fun c => (c, .column c)))) [.join .inner on left oneRow]]
    | _ => pure []

/-! Applies. -/

/-- The member of the group with an operator. -/
def memberWith? (ctx : RuleContext σ κ) (op : LogicalOp) : Option MemoExpr :=
  ((ctx.memo.members ctx.group).map Prod.snd).find? (fun e => decide (e.op = .logical op))

/-- An apply whose right input does not depend on the left one, as a join. -/
def applyToJoin : Rule σ κ where
  pattern := .withLeaves .apply 2
  promise ctx op :=
    match (memberWith? ctx op).map MemoExpr.inputs with
    | some [l, r] =>
      match ctx.memo.group? l, ctx.memo.group? r with
      | some left, some right =>
        if right.logical.outerRefs.disjoint left.logical.output then .high else .none
      | _, _ => .none
    | _ => .none
  transform ctx
    | .node (.logical (.apply type on)) [left, right] => do
      let leftColumns ← ctx.output left
      let rightProperties ← ctx.properties right
      if rightProperties.outerRefs.disjoint leftColumns then
        pure [.join type.joinType on left right]
      else pure []
    | _ => pure []

/-! Aggregation in two steps. -/

/-- Whether partial results are combined into results: there are aggregates, each of at most one
column and combinable. -/
def isSplittable (a : Aggregation) : Bool :=
  let isColumn : Scalar → Bool
    | .column _ => true
    | _ => false
  decide (a.stage = .single) && !a.aggregates.isEmpty &&
    a.aggregates.all (fun x =>
      x.2.isSplittable && decide (x.2.args.length ≤ 1) && x.2.args.all isColumn)

/-- The partial result of a call, in a new column, and the call that combines partial results. -/
def splitCall (call : AggregateCall) (combiner : AggregateFunction) :
    RuleM ((ColumnId × AggregateCall) × AggregateCall) := do
  let argType ← match call.args with
    | .column c :: _ => do
      let columns ← get
      liftM ((columns.get c).map ColumnInfo.dataType)
    | _ => pure .int64
  let partialColumn ← modifyGet (fun (columns : Columns) =>
    columns.add ⟨"partial_" ++ toString call.func, call.func.returnType argType, none⟩)
  pure ((partialColumn, call), ⟨combiner, [.column partialColumn], false⟩)

def splitCalls : List (ColumnId × AggregateCall) →
    RuleM (List (ColumnId × AggregateCall) × List (ColumnId × AggregateCall))
  | [] => pure ([], [])
  | (id, call) :: rest =>
    match call.func.combiner? with
    | none => splitCalls rest
    | some combiner => do
      let (partialCall, combined) ← splitCall call combiner
      let (partials, others) ← splitCalls rest
      pure (partialCall :: partials, (id, combined) :: others)

/-- An aggregation as partial results on every segment and their combination. -/
def splitAggregate : Rule σ κ where
  pattern := .withLeaves .aggregate 1
  promise _
    | .aggregate a => if isSplittable a then .low else .none
    | _ => .none
  transform _
    | .node (.logical (.aggregate a)) [input] => do
      if !isSplittable a then pure []
      else
        let (partials, combined) ← splitCalls a.aggregates
        let lower := Expr.ofLogical (.aggregate ⟨a.groupBy, partials, .localStage⟩) [input]
        pure [.ofLogical (.aggregate ⟨a.groupBy, combined, .globalStage⟩) [lower]]
    | _ => pure []

end Rule
end Cascade
