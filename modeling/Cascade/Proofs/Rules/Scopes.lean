import Cascade.Proofs.Properties.Bounds
import Cascade.Proofs.Properties.Outputs
import Cascade.Proofs.Rules.Alternatives
import Cascade.Proofs.Rules.Implementing

/-!
Rules keep columns in scope. An alternative that exploration finds for an expression in scope is in scope and produces the
same columns (`Rule.inScope_of_exploration`): joins are regrouped over the same inputs, and the operators that a rule
brings in name no columns, or those that the aggregation it takes apart has named. An implementation names columns that
the logical operator has named, or keys it has looked for among the columns of its inputs (`Rule.scoped_of_isExploration`).
-/

namespace Cascade

variable {σ κ : Type}

namespace Expr

variable {m : Memo σ κ} {on : Scalar} {l r e : Expr}

theorem InScope.join (type : JoinType) (on : Scalar) (hl : l.InScope m) (hr : r.InScope m) :
    (Expr.join type on l r).InScope m :=
  .logical (List.forall_mem_cons.2 ⟨hl, List.forall_mem_singleton.2 hr⟩) (LogicalOp.inScope_of_named rfl _)

theorem InScope.of_join {type : JoinType} (h : (Expr.join type on l r).InScope m) : l.InScope m ∧ r.InScope m := by
  obtain ⟨hl, hr⟩ := List.forall_mem_cons.1 h.inputs
  exact ⟨hl, List.forall_mem_singleton.1 hr⟩

theorem InScope.select (filter : Scalar) (h : e.InScope m) : (Expr.select filter e).InScope m :=
  .logical (List.forall_mem_singleton.2 h) (LogicalOp.inScope_of_named rfl _)

theorem outputOver_join (type : JoinType) (on : Scalar) (l r : Expr) :
    (Expr.join type on l r).outputOver m = type.columns (l.outputOver m) (r.outputOver m) := rfl

theorem outputOver_select (filter : Scalar) (e : Expr) : (Expr.select filter e).outputOver m = e.outputOver m := rfl

theorem outputOver_naryJoin (on : Scalar) (first : Expr) (others : List Expr) :
    (ofLogical (.naryJoin on) (first :: others)).outputOver m =
      (others.map (outputOver m)).foldl (· ∪ ·) (first.outputOver m) := by
  rw [outputOver_ofLogical]
  refine SortedSet.ext_mem fun x => ?_
  rw [LogicalOp.outputOf, SortedSet.mem_foldl_union, SortedSet.mem_foldl_union, List.map_cons,
    List.exists_mem_cons_iff]
  exact or_iff_right (SortedSet.not_mem_empty x)

theorem InScope.selectAll (conjuncts : List Scalar) (h : e.InScope m) : (Expr.selectAll conjuncts e).InScope m := by
  unfold Expr.selectAll
  split
  · exact h
  · exact h.select _

theorem outputOver_selectAll (conjuncts : List Scalar) (e : Expr) :
    (Expr.selectAll conjuncts e).outputOver m = e.outputOver m := by
  unfold Expr.selectAll
  split
  · rfl
  · exact outputOver_select _ e

end Expr

/-- The order in which joined inputs are combined is no matter. -/
theorem JoinType.columns_inner_assoc (a b c : ColumnSet) :
    inner.columns (inner.columns a b) c = inner.columns a (inner.columns b c) :=
  SortedSet.ext_mem fun x => by
    change x ∈ a ∪ b ∪ c ↔ x ∈ a ∪ (b ∪ c)
    simp only [SortedSet.mem_union, or_assoc]

namespace Rule

variable {ctx : RuleContext σ κ} {columns after : Columns} {e : Expr} {alternatives : List Expr}

theorem LeftDeep.inScope {produces : Expr → ColumnSet → Prop} {m : Memo σ κ} {tree x : Expr} {own : ColumnSet}
    {conjuncts : List Scalar} {inputs : List Expr} (h : LeftDeep produces tree own conjuncts inputs x)
    (htree : tree.InScope m) (hinputs : ∀ i ∈ inputs, i.InScope m) :
    x.InScope m ∧ x.outputOver m = (inputs.map (Expr.outputOver m)).foldl (· ∪ ·) (tree.outputOver m) := by
  -- on the inputs that are joined, from the lowest to the topmost
  induction h with
  | last tree columns conjuncts input => exact ⟨htree.join _ _ (List.forall_mem_singleton.1 hinputs), rfl⟩
  | step _ _ ih =>
    obtain ⟨hinput, hrest⟩ := List.forall_mem_cons.1 hinputs
    exact ih (htree.join _ _ hinput) hrest

section

variable {source : PropertySource σ} {c : Catalog} {cs : Columns}

/-- The rows of partial results are grouped by the same columns. -/
theorem inScope_splitAggregate {m : Memo σ κ} {a : Aggregation} {input : Expr}
    {partials combined : List (ColumnId × AggregateCall)} (h : (Expr.ofLogical (.aggregate a) [input]).InScope m) :
    (Expr.ofLogical (.aggregate ⟨a.groupBy, combined, .globalStage⟩)
      [.ofLogical (.aggregate ⟨a.groupBy, partials, .localStage⟩) [input]]).InScope m := by
  have hlower : (Expr.ofLogical (.aggregate ⟨a.groupBy, partials, .localStage⟩) [input]).InScope m :=
    .logical h.inputs h.inScope
  refine .logical (List.forall_mem_singleton.2 hlower) (LogicalOp.inScope_singleton.2 fun x hx => ?_)
  exact SortedSet.mem_ofList.2 (List.mem_append_left _ hx)

/-- An alternative that an exploration rule finds is in scope, and produces the columns of the expression. -/
theorem inScope_of_exploration {rule : RuleId} (hrule : rule.isExploration = true)
    (hsource : (ctx.source columns).logical = LogicalOp.properties c cs) (he : e.InScope ctx.memo)
    (hrun : ((rule.rule : Rule σ κ).transform ctx e).run columns = (.ok alternatives, after)) :
    ∀ x ∈ alternatives, x.InScope ctx.memo ∧ x.outputOver ctx.memo = e.outputOver ctx.memo := by
  intro x hx
  cases rule with
  | joinCommutativity =>
    obtain ⟨on, l, r, rfl, rfl⟩ := of_joinCommutativity hrun x hx
    exact ⟨he.of_join.2.join _ _ he.of_join.1, SortedSet.union_comm ..⟩
  | leftJoinToRightJoin =>
    obtain ⟨on, l, r, rfl, rfl⟩ := of_leftJoinToRightJoin hrun x hx
    exact ⟨he.of_join.2.join _ _ he.of_join.1, SortedSet.union_comm ..⟩
  | joinAssociativity =>
    obtain ⟨top, bottom, a, b, d, pb, pd, rfl, -, -, rfl⟩ := of_joinAssociativity hrun x hx
    obtain ⟨hab, hd⟩ := he.of_join
    exact ⟨hab.of_join.1.join _ _ (hab.of_join.2.join _ _ hd), (JoinType.columns_inner_assoc ..).symm⟩
  | expandNAryJoin =>
    rcases of_expandNAryJoin hrun x hx with ⟨on, only, rfl, rfl⟩ | ⟨on, first, next, rest, p, rfl, -, hdeep⟩
    · exact ⟨(List.forall_mem_singleton.1 he.inputs).select _, (Expr.outputOver_naryJoin on only []).symm⟩
    · obtain ⟨hfirst, hrest⟩ := List.forall_mem_cons.1 he.inputs
      obtain ⟨hx, houtput⟩ := hdeep.inScope hfirst hrest
      exact ⟨hx, houtput.trans (Expr.outputOver_naryJoin on first (next :: rest)).symm⟩
  | pushSelectIntoJoin =>
    obtain ⟨filter, type, on, l, r, pl, pr, rfl, -, -, rfl⟩ := of_pushSelectIntoJoin hrun x hx
    obtain ⟨hl, hr⟩ := (List.forall_mem_singleton.1 he.inputs).of_join
    refine ⟨((hl.selectAll _).join _ _ (hr.selectAll _)).selectAll _, ?_⟩
    rw [Expr.outputOver_selectAll, Expr.outputOver_join, Expr.outputOver_selectAll, Expr.outputOver_selectAll]
    rfl
  | semiJoinToInnerJoin =>
    obtain ⟨on, l, r, pl, rfl, hpl, rfl⟩ := of_semiJoinToInnerJoin hrun x hx
    obtain ⟨hl, hr⟩ := he.of_join
    have honeRow : (Expr.ofLogical (.limit ⟨0, some 1, .none⟩) [r]).InScope ctx.memo :=
      .logical (List.forall_mem_singleton.2 hr) (LogicalOp.inScope_of_named rfl _)
    refine ⟨.logical (List.forall_mem_singleton.2 (hl.join _ _ honeRow)) (LogicalOp.inScope_of_named rfl _), ?_⟩
    -- all columns of the left input are passed on
    change SortedSet.ofList ((pl.output.toList.map fun c => (c, Scalar.column c)).map Prod.fst) = l.outputOver ctx.memo
    rw [← Expr.output_of_derive hsource hpl, List.map_map]
    refine SortedSet.ext_mem fun c => ?_
    rw [SortedSet.mem_ofList, SortedSet.mem_def]
    simp
  | applyToJoin =>
    obtain ⟨type, on, l, r, pl, pr, rfl, -, -, -, rfl⟩ := of_applyToJoin hrun x hx
    obtain ⟨hl, hr⟩ := List.forall_mem_cons.1 he.inputs
    exact ⟨hl.join _ _ (List.forall_mem_singleton.1 hr), rfl⟩
  | splitAggregate =>
    obtain ⟨a, input, partials, combined, rfl, hcombined, rfl⟩ := of_splitAggregate hrun x hx
    refine ⟨inScope_splitAggregate he, ?_⟩
    change SortedSet.ofList (a.groupBy ++ combined.map Prod.fst) = _
    rw [hcombined]
    rfl
  | _ => cases hrule

end

/-! Implementations. -/

/-- The alternatives of an expression in scope are physical operators in scope, over inputs in scope. -/
def Scoped (rule : Rule σ κ) (ctx : RuleContext σ κ) : Prop :=
  ∀ e columns, e.InScope ctx.memo → Yields (rule.transform ctx e) columns
    (fun l _ => ∀ x ∈ l, ∃ op inputs, x = .ofPhysical op inputs ∧ (∀ i ∈ inputs, i.InScope ctx.memo) ∧
      op.InScope (inputs.map (Expr.outputOver ctx.memo))) (fun _ _ => True)

theorem scoped_oneToOne (kind : LogicalKind) (places : Nat) {f : LogicalOp → Option PhysicalOp}
    (hf : ∀ {op p}, f op = some p → ∀ i, ∀ c ∈ p.named i, c ∈ op.named) :
    (oneToOne kind places f : Rule σ κ).Scoped ctx := by
  intro e columns he
  unfold oneToOne
  dsimp only
  split
  · rename_i op inputs
    have he : (Expr.ofLogical op inputs).InScope ctx.memo := he
    refine Yields.of_pure fun x hx => ?_
    obtain ⟨p, hp, rfl⟩ := List.mem_map.1 hx
    exact ⟨p, inputs, rfl, he.inputs, PhysicalOp.inScope_of_subset (hf (Option.mem_toList.1 hp)) he.inScope⟩
  · exact yields_nothing

theorem scoped_unionAllToAppend : (unionAllToAppend : Rule σ κ).Scoped ctx := by
  refine scoped_oneToOne .unionAll 0 fun {op p} hp i c hc => ?_
  cases op <;> cases hp
  cases hc

theorem scoped_getToTableScan : (getToTableScan : Rule σ κ).Scoped ctx := by
  intro e columns _
  unfold getToTableScan
  dsimp only
  split
  · refine .bind_lift (fun t _ => .bind_get (.bind_lift (fun d _ => .of_pure fun x hx => ?_) fun _ _ => trivial))
      fun _ _ => trivial
    exact ⟨_, [], List.mem_singleton.1 hx, List.forall_mem_nil _, PhysicalOp.inScope_nil _⟩
  · exact yields_nothing

theorem scoped_selectToIndex (dynamic : Bool) (promise : RuleContext σ κ → LogicalOp → Promise) :
    (selectToIndex dynamic promise).Scoped ctx := by
  intro e columns _
  unfold selectToIndex
  dsimp only
  split
  · rename_i filter g _
    unfold indexScans
    split
    · exact yields_nothing
    · refine .bind_lift (fun t _ => .bind_get (.bind_lift (fun d _ => .bind_lift (fun indexes _ => ?_) ?_) ?_)) ?_
      · refine .of_pure fun x hx => ?_
        obtain ⟨index, -, rfl⟩ := List.mem_map.1 hx
        exact ⟨_, [], rfl, List.forall_mem_nil _, PhysicalOp.inScope_nil _⟩
      all_goals exact fun _ _ => trivial
  · exact yields_nothing

theorem mem_of_mem_joinKeys {on : Scalar} {left right : ColumnSet} {k : ColumnId × ColumnId}
    (h : k ∈ joinKeys on left right) : k.1 ∈ left ∧ k.2 ∈ right := (equates_of_mem_joinKeys h).2

/-- The keys of a join are columns of its inputs. -/
theorem inScope_hashJoin {type : JoinType} {on : Scalar} {left right : ColumnSet} {consumers : SortedMap ScanId ColumnId} :
    (PhysicalOp.hashJoin
      { type
        on
        leftKeys := (joinKeys on left right).map Prod.fst
        rightKeys := (joinKeys on left right).map Prod.snd
        partitionScans := eliminatedScans type (joinKeys on left right) consumers }).InScope [left, right] := by
  intro i columns hi c hc
  match i with
  | 0 =>
    cases hi
    rcases List.mem_append.1 hc with hc | hc
    · obtain ⟨k, hk, rfl⟩ := List.mem_map.1 hc
      exact (mem_of_mem_joinKeys hk).1
    · obtain ⟨⟨s, k⟩, hs, rfl⟩ := List.mem_map.1 hc
      obtain ⟨-, p, -, hk⟩ := key_of_mem_eliminatedScans hs
      exact (mem_of_mem_joinKeys hk).1
  | 1 =>
    cases hi
    obtain ⟨k, hk, rfl⟩ := List.mem_map.1 hc
    exact (mem_of_mem_joinKeys hk).2
  | i + 2 => cases hi

section

variable {c : Catalog} (hsource : ∀ cs, (ctx.source cs).logical = LogicalOp.properties c cs)

include hsource

theorem scoped_joinToHashJoin : (joinToHashJoin : Rule σ κ).Scoped ctx := by
  intro e columns he
  unfold joinToHashJoin
  dsimp only
  split
  · rename_i type on left right
    have he : (Expr.join type on left right).InScope ctx.memo := he
    refine (yields_output left).bind ?_
    rintro _ _ ⟨rfl, pl, hl, rfl⟩
    refine (yields_properties right).bind ?_
    rintro pr _ ⟨rfl, hr⟩
    split
    · exact yields_nothing
    · refine .of_pure fun x hx => ⟨_, [left, right], List.mem_singleton.1 hx, he.inputs, ?_⟩
      rw [Expr.output_of_derive (hsource _) hl, Expr.output_of_derive (hsource _) hr]
      exact inScope_hashJoin
  · exact yields_nothing

theorem scoped_joinToIndexNestedLoopJoin : (joinToIndexNestedLoopJoin : Rule σ κ).Scoped ctx := by
  intro e columns he
  unfold joinToIndexNestedLoopJoin
  dsimp only
  split
  · rename_i on outer g inputs
    have he : (Expr.join .inner on outer (.ofLogical (.get g) inputs)).InScope ctx.memo := he
    split
    · exact yields_nothing
    · refine (yields_output outer).bind ?_
      rintro _ _ ⟨rfl, po, ho, rfl⟩
      refine (Yields.any _ _).bind fun inner cs _ => ?_
      split
      · exact yields_nothing
      · refine .bind_lift (fun t _ => .bind_get (.bind_lift (fun d _ => .bind_lift (fun indexes _ => ?_) ?_) ?_)) ?_
        · refine .of_pure fun x hx => ?_
          obtain ⟨index, -, rfl⟩ := List.mem_map.1 hx
          refine ⟨_, [outer], rfl, List.forall_mem_singleton.2 he.of_join.1, fun i o hi k hk => ?_⟩
          obtain rfl : o = outer.outputOver ctx.memo := List.mem_singleton.1 (List.mem_of_getElem? hi)
          obtain ⟨key, hkey, rfl⟩ := List.mem_map.1 hk
          exact Expr.output_of_derive (hsource _) ho ▸ (mem_of_mem_joinKeys hkey).1
        all_goals exact fun _ _ => trivial
  · exact yields_nothing

end

theorem scoped_joinToNestedLoopJoin : (joinToNestedLoopJoin : Rule σ κ).Scoped ctx := by
  intro e columns he
  unfold joinToNestedLoopJoin
  dsimp only
  split
  · rename_i type on inputs
    have he : (Expr.ofLogical (.join type on) inputs).InScope ctx.memo := he
    split
    · exact yields_nothing
    · refine .of_pure fun x hx => ⟨_, inputs, List.mem_singleton.1 hx, he.inputs, ?_⟩
      exact PhysicalOp.inScope_of_subset (fun _ _ hc => by cases hc) he.inScope
  · exact yields_nothing

/-- Rows are distributed by columns that are written. -/
theorem mem_of_mem_writeDistribution {t : Table} {written hash : List ColumnId}
    (h : writeDistribution t written = .hashed hash) : ∀ c ∈ hash, c ∈ written := by
  unfold writeDistribution at h
  split at h
  · split at h
    · rename_i keys _ columns hcolumns
      cases h
      intro c hc
      obtain ⟨key, -, hkey⟩ := exists_of_mem_right (forall₂_of_mapM_some hcolumns) hc
      obtain ⟨place, -, hplace⟩ := Option.bind_eq_some_iff.1 hkey
      exact List.mem_of_getElem? hplace
    · cases h
  all_goals cases h

theorem scoped_implementDml : (implementDml : Rule σ κ).Scoped ctx := by
  intro e columns he
  unfold implementDml
  dsimp only
  split
  · rename_i kind table written inputs
    have he : (Expr.ofLogical (.dml kind table written) inputs).InScope ctx.memo := he
    refine .bind_lift (fun t _ => .of_pure fun x hx => ?_) fun _ _ => trivial
    refine ⟨_, inputs, List.mem_singleton.1 hx, he.inputs, PhysicalOp.inScope_of_subset (fun i c hc => ?_) he.inScope⟩
    cases hd : writeDistribution t written with
    | hashed hash =>
      rw [hd] at hc
      exact mem_of_mem_writeDistribution hd c hc
    | _ =>
      rw [hd] at hc
      cases hc
  · exact yields_nothing

/-- Every implementation rule keeps columns in scope. -/
theorem scoped_of_isExploration {rule : RuleId} (hrule : rule.isExploration = false) {c : Catalog}
    (hsource : ∀ cs, (ctx.source cs).logical = LogicalOp.properties c cs) : (rule.rule : Rule σ κ).Scoped ctx := by
  cases rule with
  | getToTableScan => exact scoped_getToTableScan
  | selectToIndexScan => exact scoped_selectToIndex false _
  | selectToDynamicIndexScan => exact scoped_selectToIndex true _
  | joinToHashJoin => exact scoped_joinToHashJoin hsource
  | joinToNestedLoopJoin => exact scoped_joinToNestedLoopJoin
  | joinToIndexNestedLoopJoin => exact scoped_joinToIndexNestedLoopJoin hsource
  | implementDml => exact scoped_implementDml
  | unionAllToAppend => exact scoped_unionAllToAppend
  | aggregateToHashAggregate | aggregateToStreamAggregate | implementLimit =>
    refine scoped_oneToOne _ _ fun {op p} hp i c hc => ?_
    cases op <;> cases hp
    exact hc
  | selectToFilter | projectToComputeScalar | valuesToConstTableGet | cteAnchorToSequence | cteConsumerToCteScan =>
    refine scoped_oneToOne _ _ fun {op p} hp i c hc => ?_
    cases op <;> cases hp
    cases hc
  | _ => cases hrule

end Rule
end Cascade
