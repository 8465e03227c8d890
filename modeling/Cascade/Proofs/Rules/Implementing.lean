import Cascade.Proofs.Stateful
import Cascade.Rule.All

/-!
What implementation rules answer: physical operators that compute a logical one, with what they take over from it
(`Rule.implementation_of_run`).
-/

namespace Cascade

/-- The physical operators that rules give for a logical one. -/
inductive LogicalOp.Implementation : LogicalOp → PhysicalOp → Prop
  | tableScan {g : Get} {distribution : Distribution} : Implementation (.get g)
    (.tableScan ⟨g.table, g.relation, g.columns, g.scanId, g.partitionColumn.isSome, distribution⟩)
  | indexScan {filter : Scalar} {g : Get} {index : String} {columns : List ColumnId} {distribution : Distribution} :
    Implementation (.select filter) (.indexScan
      { table := g.table
        relation := g.relation
        index
        columns := g.columns
        condition := filter
        scanId := g.scanId
        dynamic := g.partitionColumn.isSome
        ordering := .ascending columns
        distribution })
  | filter {e : Scalar} : Implementation (.select e) (.filter e)
  | computeScalar {l : List Assignment} : Implementation (.project l) (.computeScalar l)
  | hashJoin {j : HashJoin} : Implementation (.join j.type j.on) (.hashJoin j)
  | nestedLoopJoin {type : JoinType} {on : Scalar} (h : type ≠ .rightOuter) :
    Implementation (.join type on) (.nestedLoopJoin type on)
  | indexNestedLoopJoin {j : IndexJoin} (h : j.type = .inner) : Implementation (.join j.type j.on) (.indexNestedLoopJoin j)
  | hashAggregate {a : Aggregation} : Implementation (.aggregate a) (.hashAggregate a)
  | streamAggregate {a : Aggregation} : Implementation (.aggregate a) (.streamAggregate a)
  | limit {l : RowLimit} : Implementation (.limit l) (.limit l)
  | append {u : Concatenation} : Implementation (.unionAll u) (.append u)
  | constTableGet {v : ConstantRows} : Implementation (.values v) (.constTableGet v)
  | dml {kind : DmlKind} {table : String} {columns : List ColumnId} {distribution : Distribution} :
    Implementation (.dml kind table columns) (.dml kind table columns distribution)
  | sequence {cte : CteId} : Implementation (.cteAnchor cte) (.sequence cte)
  | cteScan {r : CteRead} : Implementation (.cteConsumer r) (.cteScan r)

namespace Rule

variable {σ κ : Type}

/-- All alternatives are implementations of the operator a rule is applied to, over inputs of it. -/
def Implements (rule : Rule σ κ) : Prop :=
  ∀ ctx e columns, Yields (rule.transform ctx e) columns
    (fun l _ => ∀ x ∈ l, ∃ op p inputs, e.logicalOp? = some op ∧ op.Implementation p ∧ (∀ i ∈ inputs, i ∈ e.inputs) ∧
      x = .ofPhysical p inputs)
    (fun _ _ => True)

/-- The rule gives no alternative. -/
theorem yields_nothing {columns : Columns} {P : Expr → Prop} :
    Yields (pure [] : RuleM (List Expr)) columns (fun l _ => ∀ x ∈ l, P x) (fun _ _ => True) :=
  Yields.of_pure (List.forall_mem_nil P)

theorem implements_oneToOne (kind : LogicalKind) (inputs : Nat) {f : LogicalOp → Option PhysicalOp}
    (hf : ∀ {op p}, f op = some p → op.Implementation p) : (oneToOne kind inputs f : Rule σ κ).Implements := by
  intro ctx e columns
  unfold oneToOne
  dsimp only
  split
  · rename_i op inputs
    refine Yields.of_pure fun x hx => ?_
    obtain ⟨p, hp, rfl⟩ := List.mem_map.1 hx
    exact ⟨op, p, inputs, rfl, hf (Option.mem_toList.1 hp), fun _ => id, rfl⟩
  · exact yields_nothing

theorem implements_getToTableScan : (getToTableScan : Rule σ κ).Implements := by
  intro ctx e columns
  unfold getToTableScan
  dsimp only
  split
  · rename_i g inputs
    refine .bind_lift (fun t _ => .bind_get (.bind_lift (fun d _ => .of_pure fun x hx => ?_) fun _ _ => trivial))
      fun _ _ => trivial
    exact ⟨.get g, _, [], rfl, .tableScan, List.forall_mem_nil _, List.mem_singleton.1 hx⟩
  · exact yields_nothing

theorem implements_selectToIndex (dynamic : Bool) (promise : RuleContext σ κ → LogicalOp → Promise) :
    (selectToIndex dynamic promise).Implements := by
  intro ctx e columns
  unfold selectToIndex
  dsimp only
  split
  · rename_i filter g inputs
    unfold indexScans
    split
    · exact yields_nothing
    · rename_i hkind
      obtain rfl : g.partitionColumn.isSome = dynamic := Decidable.not_not.1 (not_or.1 hkind).1
      refine .bind_lift (fun t _ => .bind_get (.bind_lift (fun d _ => .bind_lift (fun indexes _ => ?_) ?_) ?_)) ?_
      · refine .of_pure fun x hx => ?_
        obtain ⟨index, -, rfl⟩ := List.mem_map.1 hx
        exact ⟨.select filter, _, [], rfl, .indexScan, List.forall_mem_nil _, rfl⟩
      all_goals exact fun _ _ => trivial
  · exact yields_nothing

theorem implements_joinToHashJoin : (joinToHashJoin : Rule σ κ).Implements := by
  intro ctx e columns
  unfold joinToHashJoin
  dsimp only
  split
  · rename_i type on left right
    refine (Yields.any _ _).bind fun l cs _ => (Yields.any _ _).bind fun r cs _ => ?_
    split
    · exact yields_nothing
    · refine .of_pure fun x hx => ?_
      exact ⟨.join type on, _, [left, right], rfl, .hashJoin (j := ⟨type, on, _, _, _⟩), fun _ => id, List.mem_singleton.1 hx⟩
  · exact yields_nothing

theorem implements_joinToNestedLoopJoin : (joinToNestedLoopJoin : Rule σ κ).Implements := by
  intro ctx e columns
  unfold joinToNestedLoopJoin
  dsimp only
  split
  · rename_i type on inputs
    split
    · exact yields_nothing
    · rename_i htype
      refine .of_pure fun x hx => ?_
      exact ⟨.join type on, _, inputs, rfl, .nestedLoopJoin htype, fun _ => id, List.mem_singleton.1 hx⟩
  · exact yields_nothing

theorem implements_joinToIndexNestedLoopJoin : (joinToIndexNestedLoopJoin : Rule σ κ).Implements := by
  intro ctx e columns
  unfold joinToIndexNestedLoopJoin
  dsimp only
  split
  · rename_i on outer g inputs
    split
    · exact yields_nothing
    · refine (Yields.any _ _).bind fun o cs _ => (Yields.any _ _).bind fun i cs _ => ?_
      split
      · exact yields_nothing
      · refine .bind_lift (fun t _ => .bind_get (.bind_lift (fun d _ => .bind_lift (fun indexes _ => ?_) ?_) ?_)) ?_
        · refine .of_pure fun x hx => ?_
          obtain ⟨index, -, rfl⟩ := List.mem_map.1 hx
          exact ⟨.join .inner on, _, [outer], rfl, .indexNestedLoopJoin (j := ⟨.inner, _, _, _, _, on, _, _, _⟩) rfl,
            List.forall_mem_singleton.2 (List.mem_cons_self ..), rfl⟩
        all_goals exact fun _ _ => trivial
  · exact yields_nothing

theorem implements_implementDml : (implementDml : Rule σ κ).Implements := by
  intro ctx e columns
  unfold implementDml
  dsimp only
  split
  · rename_i kind table written inputs
    refine .bind_lift (fun t _ => .of_pure fun x hx => ?_) fun _ _ => trivial
    exact ⟨.dml kind table written, _, inputs, rfl, .dml, fun _ => id, List.mem_singleton.1 hx⟩
  · exact yields_nothing

theorem implements_unionAllToAppend : (unionAllToAppend : Rule σ κ).Implements := by
  refine implements_oneToOne .unionAll 0 fun {op p} h => ?_
  split at h
  · cases h
    constructor
  · cases h

theorem implements_of_isExploration {r : RuleId} (hr : r.isExploration = false) : (r.rule : Rule σ κ).Implements := by
  cases r
  case getToTableScan => exact implements_getToTableScan
  case selectToIndexScan => exact implements_selectToIndex false _
  case selectToDynamicIndexScan => exact implements_selectToIndex true _
  case joinToHashJoin => exact implements_joinToHashJoin
  case joinToNestedLoopJoin => exact implements_joinToNestedLoopJoin
  case joinToIndexNestedLoopJoin => exact implements_joinToIndexNestedLoopJoin
  case unionAllToAppend => exact implements_unionAllToAppend
  case implementDml => exact implements_implementDml
  case selectToFilter | projectToComputeScalar | aggregateToHashAggregate | aggregateToStreamAggregate | implementLimit
      | valuesToConstTableGet | cteAnchorToSequence | cteConsumerToCteScan =>
    refine implements_oneToOne _ _ fun {op p} h => ?_
    split at h
    · cases h
      constructor
    · cases h
  all_goals cases hr

/-- What an implementation rule answers. -/
theorem implementation_of_run {r : RuleId} (hr : r.isExploration = false) {ctx : RuleContext σ κ} {e : Expr}
    {columns after : Columns} {alternatives : List Expr}
    (hrun : ((r.rule : Rule σ κ).transform ctx e).run columns = (.ok alternatives, after)) :
    ∀ x ∈ alternatives, ∃ op p inputs, e.logicalOp? = some op ∧ op.Implementation p ∧ (∀ i ∈ inputs, i ∈ e.inputs) ∧
      x = .ofPhysical p inputs :=
  (implements_of_isExploration hr ctx e columns).of_ok hrun

end Rule
end Cascade
