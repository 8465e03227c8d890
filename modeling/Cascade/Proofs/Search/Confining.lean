import Cascade.Proofs.Properties.Outputs
import Cascade.Proofs.Search.Requirements

/-!
Requirements within the columns of a group. Whatever an operator in scope is asked for, it asks each of its inputs only
for orderings, hash columns and propagators over columns of that input (`PhysicalOp.within_requiredInput`): columns it
passes down are looked for in the input, and the others are columns it names. Enforcers refer to columns of the
requirement they are placed for (`Required.Enforcer.referred`).
-/

namespace Cascade

/-- A requirement refers only to these columns. -/
structure Required.Within (r : Required) (columns : ColumnSet) : Prop where
  ordering : ∀ c ∈ r.ordering.columns.map OrderColumn.column, c ∈ columns
  distribution : ∀ c ∈ r.distribution.spec.columns, c ∈ columns
  propagators : ∀ e ∈ r.partition.propagators.entries, e.2 ∈ columns

/-- The columns that an enforcer refers to. -/
def PhysicalOp.referred : PhysicalOp → List ColumnId
  | sort ordering => ordering.columns.map OrderColumn.column
  | motion (.gatherMerge ordering) => ordering.columns.map OrderColumn.column
  | motion (.redistribute columns) => columns
  | partitionSelector _ column => column.toList
  | _ => []

theorem OrderSpec.within_iff {o : OrderSpec} {columns : ColumnSet} :
    o.within columns = true ↔ ∀ c ∈ o.columns.map OrderColumn.column, c ∈ columns := by
  simp [within]

theorem Distribution.within_iff {d : Distribution} {columns : ColumnSet} :
    d.within columns = true ↔ ∀ c ∈ d.columns, c ∈ columns := by
  cases d <;> simp [within, Distribution.columns]

section

variable {p : Position} {input : LogicalProperties} {before : List Derived} {request child : Nat} {r : Required}
  {columns : ColumnSet}

theorem Position.within_baseRequirement (p : Position) (input : LogicalProperties) :
    (p.baseRequirement input).Within input.output where
  ordering := List.forall_mem_nil _
  distribution := List.forall_mem_nil _
  propagators _ he := of_decide_eq_true (List.mem_filter.1 he).2

theorem Required.Within.withDistribution (h : r.Within columns) {d : RequiredDistribution}
    (hd : ∀ c ∈ d.spec.columns, c ∈ columns) : Required.Within { r with distribution := d } columns :=
  { h with distribution := hd }

theorem Position.within_outerOrdering (p : Position) (input : LogicalProperties) :
    ∀ c ∈ (p.outerOrdering input).columns.map OrderColumn.column, c ∈ input.output := by
  unfold outerOrdering
  split
  · rename_i h
    exact OrderSpec.within_iff.1 h
  · exact List.forall_mem_nil _

/-- Only columns of the input are passed down. -/
theorem Position.within_passThrough {ordering distribution : Bool}
    (h : p.passThrough input ordering distribution = some r) : r.Within input.output := by
  have hbase := p.within_baseRequirement input
  unfold passThrough at h
  split at h
  · cases h
  · rename_i hordering
    split at h
    · cases h
    · rename_i hdistribution
      cases h
      refine { hbase with ordering := ?_, distribution := ?_ }
      · dsimp only
        split
        · rename_i hwanted
          exact OrderSpec.within_iff.1 (by simpa [hwanted] using hordering)
        · exact List.forall_mem_nil _
      · dsimp only
        split
        · rename_i hwanted
          exact Distribution.within_iff.1 (by simpa [hwanted] using hdistribution)
        · exact List.forall_mem_nil _

theorem PhysicalOp.within_unaryInput (h : unaryInput p input request = some r) : r.Within input.output := by
  unfold unaryInput at h
  split at h
  · exact Position.within_passThrough h
  · split at h
    · cases h
    · exact Position.within_passThrough h
  · split at h
    · cases h
    · exact Position.within_passThrough h
  · cases h

/-! Distributions that joins and aggregations ask for. -/

theorem HashJoin.columns_outerDistribution {j : HashJoin} {d : RequiredDistribution}
    (h : j.outerDistribution request = some d) : ∀ c ∈ d.spec.columns, c ∈ j.leftKeys := by
  unfold outerDistribution at h
  split at h
  · split at h <;> cases h
    exact fun _ hc => hc
  · split at h <;> cases h
    exact List.forall_mem_nil _
  · cases h
    exact List.forall_mem_nil _
  · cases h

theorem HashJoin.columns_innerDistribution {j : HashJoin} {e : EquivalenceClasses} {outer : Distribution}
    {d : RequiredDistribution} (h : j.innerDistribution e request outer = some d) :
    ∀ c ∈ d.spec.columns, c ∈ j.rightKeys := by
  unfold innerDistribution at h
  split at h
  · cases h
    exact List.forall_mem_nil _
  · split at h
    · split at h
      · rename_i columns _
        cases h
        change ∀ c ∈ (j.matchingKeys? e columns).getD j.rightKeys, c ∈ j.rightKeys
        cases hkeys : j.matchingKeys? e columns with
        | none => exact fun _ hc => hc
        | some keys =>
          intro c hc
          obtain ⟨k, -, hk⟩ := exists_of_mem_right (forall₂_of_mapM_some hkeys) hc
          exact mem_of_findIdx?_bind hk
      · repeat' split at h
        all_goals cases h
        all_goals exact List.forall_mem_nil _
    · repeat' split at h
      all_goals cases h
      all_goals exact List.forall_mem_nil _
    · cases h
      exact List.forall_mem_nil _
    · cases h

theorem IndexJoin.columns_outerDistribution {j : IndexJoin} {d : RequiredDistribution}
    (h : j.outerDistribution request = some d) : ∀ c ∈ d.spec.columns, c ∈ j.outerKeys := by
  unfold outerDistribution at h
  split at h
  · cases h
    exact List.forall_mem_nil _
  · cases h
    exact List.forall_mem_nil _
  · obtain ⟨keys, hkeys, rfl⟩ := Option.map_eq_some_iff.1 h
    intro c hc
    obtain ⟨k, -, hk⟩ := exists_of_mem_right (forall₂_of_mapM_some hkeys) hc
    exact mem_of_findIdx?_bind hk
  all_goals
    repeat' split at h
    all_goals cases h
    all_goals exact List.forall_mem_nil _

theorem Aggregation.columns_inputDistribution {a : Aggregation} {d : RequiredDistribution}
    (h : a.inputDistribution request = some d) : ∀ c ∈ d.spec.columns, c ∈ a.groupBy := by
  unfold inputDistribution at h
  split at h
  · repeat' split at h
    all_goals cases h
    · exact List.forall_mem_nil _
    · exact List.forall_mem_nil _
    · exact fun _ hc => hc
  · cases h
    exact List.forall_mem_nil _
  · cases h

theorem columns_nestedLoopDistribution {type : JoinType} {d : RequiredDistribution}
    (h : nestedLoopDistribution type request child before = some d) : d.spec.columns = [] := by
  unfold nestedLoopDistribution at h
  repeat' split at h
  all_goals cases h
  all_goals rfl

/-! Requests. -/

theorem HashJoin.within_requiredInput {j : HashJoin} {outer inner l : LogicalProperties}
    (hp : p.inputs = [outer, inner]) (hj : ∀ c ∈ (PhysicalOp.hashJoin j).named child, c ∈ l.output)
    (hl : p.inputs[child]? = some l) (hr : j.requiredInput p request child before = some r) : r.Within l.output := by
  obtain ⟨o, houter, hr⟩ := Option.bind_eq_some_iff.1 hr
  obtain ⟨i, hinner, hr⟩ := Option.bind_eq_some_iff.1 hr
  rw [hp] at hl houter hinner
  cases houter
  cases hinner
  match child with
  | 0 =>
    cases hl
    obtain ⟨d, hd, hr⟩ := Option.bind_eq_some_iff.1 hr
    cases hr
    have hbase := (p.within_baseRequirement outer).withDistribution fun c hc =>
      hj c (List.mem_append_left _ (HashJoin.columns_outerDistribution hd c hc))
    refine { hbase with propagators := fun e he => ?_ }
    rcases SortedMap.mem_entries_insertAll he with he | he
    · exact hbase.propagators e he
    · exact hj e.2 (List.mem_append_right _ (List.mem_map_of_mem he))
  | 1 =>
    cases hl
    obtain ⟨provided, -, hr⟩ := Option.bind_eq_some_iff.1 hr
    obtain ⟨d, hd, hr⟩ := Option.bind_eq_some_iff.1 hr
    cases hr
    have hbase := (p.within_baseRequirement inner).withDistribution fun c hc =>
      hj c (HashJoin.columns_innerDistribution hd c hc)
    exact { hbase with }
  | child + 2 => cases hl

/-- An operator in scope asks an input only for what concerns columns of that input, whatever is asked of itself. -/
theorem PhysicalOp.within_requiredInput {op : PhysicalOp} (hop : op.InScope (p.inputs.map LogicalProperties.output))
    (harity : ∀ n, op.arity = some n → p.inputs.length = n) {l : LogicalProperties} (hl : p.inputs[child]? = some l)
    (hr : op.requiredInput p request child before = some r) : r.Within l.output := by
  have hnamed : ∀ c ∈ op.named child, c ∈ l.output :=
    hop child l.output (by rw [List.getElem?_map, hl, Option.map_some])
  have hbase := p.within_baseRequirement l
  obtain ⟨input, hinput, hr⟩ := Option.bind_eq_some_iff.1 hr
  cases hinput.symm.trans hl
  cases op with
  | filter => exact within_unaryInput hr
  | computeScalar => exact within_unaryInput hr
  | hashJoin j =>
    obtain ⟨outer, inner, hp⟩ := List.length_eq_two.1 (harity 2 rfl)
    exact HashJoin.within_requiredInput hp hnamed hl hr
  | nestedLoopJoin type on =>
    obtain ⟨d, hd, hr⟩ := Option.bind_eq_some_iff.1 hr
    have hdistribution := hbase.withDistribution (d := d) fun c hc => by
      rw [columns_nestedLoopDistribution hd] at hc
      cases hc
    split at hr
    · cases hr
      exact { hdistribution with ordering := p.within_outerOrdering l }
    · cases hr
      exact { hdistribution with }
  | indexNestedLoopJoin j =>
    obtain ⟨d, hd, hr⟩ := Option.bind_eq_some_iff.1 hr
    cases hr
    have hdistribution := hbase.withDistribution fun c hc => hnamed c (IndexJoin.columns_outerDistribution hd c hc)
    exact { hdistribution with ordering := p.within_outerOrdering l }
  | hashAggregate a =>
    obtain ⟨d, hd, hr⟩ := Option.bind_eq_some_iff.1 hr
    cases hr
    exact hbase.withDistribution fun c hc => hnamed c (Aggregation.columns_inputDistribution hd c hc)
  | streamAggregate a =>
    obtain ⟨d, hd, hr⟩ := Option.bind_eq_some_iff.1 hr
    cases hr
    have hdistribution := hbase.withDistribution fun c hc => hnamed c (Aggregation.columns_inputDistribution hd c hc)
    refine { hdistribution with ordering := ?_ }
    simpa [OrderSpec.ascending] using (show ∀ c ∈ a.groupBy, c ∈ l.output from hnamed)
  | limit l =>
    cases hr
    exact { hbase.withDistribution (d := .singleton) (List.forall_mem_nil _) with ordering := hnamed }
  | append u =>
    dsimp only at hr
    split at hr
    all_goals cases hr
    · exact hbase.withDistribution (List.forall_mem_nil _)
    · exact hbase.withDistribution (List.forall_mem_nil _)
  | dml kind table written d =>
    cases hr
    refine hbase.withDistribution ?_
    unfold storedDistribution
    cases d with
    | hashed columns => exact hnamed
    | _ => exact List.forall_mem_nil _
  | sequence cte =>
    dsimp only at hr
    split at hr
    · cases hr
      exact hbase
    · obtain ⟨producer, -, hr⟩ := Option.bind_eq_some_iff.1 hr
      obtain ⟨passed, hpassed, hr⟩ := Option.bind_eq_some_iff.1 hr
      cases hr
      exact { Position.within_passThrough hpassed with }
  | _ => cases hr

end

/-- Enforcers refer to no columns but those of the requirement. -/
theorem Required.Enforcer.referred {r : Required} {columns : ColumnSet} (hr : r.Within columns) {op : PhysicalOp}
    (h : r.Enforcer op) : ∀ c ∈ op.referred, c ∈ columns := by
  cases h with
  | @selector scan column hcolumn =>
    cases column with
    | none => exact List.forall_mem_nil _
    | some c => exact List.forall_mem_singleton.2 (hr.propagators _ (hcolumn c rfl))
  | @motion kind hhash hmerge =>
    cases kind with
    | redistribute hash =>
      have hcolumns := hr.distribution
      rwa [hhash hash rfl] at hcolumns
    | gatherMerge ordering => exact hmerge ordering rfl ▸ hr.ordering
    | _ => exact List.forall_mem_nil _
  | sort => exact hr.ordering
  | spool => exact List.forall_mem_nil _

end Cascade
