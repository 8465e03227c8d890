import Cascade.Proofs.Memo.Deriving
import Cascade.Proofs.Properties.Equalities
import Cascade.Proofs.Semantics.Columns

/-!
Columns in scope. What an operator produces depends on the columns of its inputs alone (`LogicalOp.outputOf`), and so
does what a tree over known groups produces (`Expr.outputOver`). An operator is in scope if the columns by which it is to
group, sort, distribute or look up the rows of an input are columns of that input, a tree if all its operators are
(`Expr.InScope`).
-/

namespace Cascade

namespace LogicalOp

/-- The columns of the rows, from those of the inputs. -/
def outputOf : LogicalOp → List ColumnSet → ColumnSet
  | get g, [] => .ofList g.columns
  | select _, [input] => input
  | project l, [_] => .ofList (l.map Prod.fst)
  | join type _, [l, r] => type.columns l r
  | naryJoin _, inputs => inputs.foldl (· ∪ ·) ∅
  | aggregate a, [_] => .ofList (a.groupBy ++ a.aggregates.map Prod.fst)
  | limit _, [input] => input
  | unionAll u, _ => .ofList u.output
  | values v, [] => .ofList v.columns
  | apply type _, [l, r] => type.joinType.columns l r
  | cteAnchor _, [_, body] => body
  | cteConsumer r, [] => .ofList r.columns
  | _, _ => ∅

/-- The columns of its input by which an operator groups, sorts or writes rows. -/
def named : LogicalOp → List ColumnId
  | aggregate a => a.groupBy
  | limit l => l.ordering.columns.map OrderColumn.column
  | dml _ _ columns => columns
  | _ => []

/-- Inputs produce the columns that an operator names. -/
def InScope (op : LogicalOp) (inputs : List ColumnSet) : Prop := ∀ columns ∈ inputs, ∀ c ∈ op.named, c ∈ columns

theorem inScope_of_named {op : LogicalOp} (h : op.named = []) (inputs : List ColumnSet) : op.InScope inputs := by
  intro columns _ c hc
  rw [h] at hc
  cases hc

theorem inScope_singleton {op : LogicalOp} {input : ColumnSet} : op.InScope [input] ↔ ∀ c ∈ op.named, c ∈ input :=
  List.forall_mem_singleton

theorem output_of_rawProperties {c : Catalog} {cs : Columns} {producer : Option LogicalProperties} {op : LogicalOp}
    {inputs : List LogicalProperties} {p : LogicalProperties} (h : op.rawProperties c cs producer inputs = .ok p) :
    p.output = op.outputOf (inputs.map LogicalProperties.output) := by
  unfold rawProperties at h
  split at h
  case h_1 g =>
    obtain ⟨t, -, h⟩ := exists_of_bind_ok h
    obtain ⟨columns, -, h⟩ := exists_of_bind_ok h
    cases h
    rfl
  case h_4 | h_11 =>
    cases h
    exact LogicalProperties.output_ofJoin ..
  case h_5 on first others =>
    cases h
    refine SortedSet.ext_mem fun x => ?_
    rw [LogicalProperties.mem_output_ofNaryJoin, outputOf, SortedSet.mem_foldl_union]
    exact (or_iff_right (SortedSet.not_mem_empty x)).symm
  case h_6 a input =>
    cases h
    exact List.foldl_append.symm
  case h_8 u first others =>
    unfold LogicalProperties.ofUnionAll at h
    split at h
    · cases h
    · split at h <;> cases h
      rfl
  case h_9 v =>
    unfold LogicalProperties.ofValues at h
    split at h <;> cases h
    rfl
  case h_13 r =>
    split at h
    · unfold LogicalProperties.ofCteConsumer at h
      split at h <;> cases h
      rfl
    · cases h
  case h_14 => cases h
  all_goals
    cases h
    rfl

/-- The derived columns are those of the operator. -/
theorem output_of_properties {c : Catalog} {cs : Columns} {producer : Option LogicalProperties} {op : LogicalOp}
    {inputs : List LogicalProperties} {p : LogicalProperties} (h : op.properties c cs inputs producer = .ok p) :
    p.output = op.outputOf (inputs.map LogicalProperties.output) := by
  obtain ⟨raw, hraw, rfl⟩ := exists_of_properties h
  change raw.output = _
  exact output_of_rawProperties hraw

end LogicalOp

namespace PhysicalOp

/-- The columns of the input at a place by which an operator groups, sorts, distributes or looks up rows, or selects
partitions. -/
def named : PhysicalOp → Nat → List ColumnId
  | hashJoin j, 0 => j.leftKeys ++ j.partitionScans.map Prod.snd
  | hashJoin j, _ => j.rightKeys
  | indexNestedLoopJoin j, _ => j.outerKeys
  | hashAggregate a, _ => a.groupBy
  | streamAggregate a, _ => a.groupBy
  | limit l, _ => l.ordering.columns.map OrderColumn.column
  | dml _ _ _ (.hashed columns), _ => columns
  | _, _ => []

/-- Inputs produce the columns that an operator names of them. -/
def InScope (op : PhysicalOp) (inputs : List ColumnSet) : Prop :=
  ∀ i columns, inputs[i]? = some columns → ∀ c ∈ op.named i, c ∈ columns

theorem inScope_nil (op : PhysicalOp) : op.InScope [] := by
  intro i columns h
  cases h

/-- A physical operator names no more than the logical one it computes. -/
theorem inScope_of_subset {op : PhysicalOp} {lop : LogicalOp} {inputs : List ColumnSet}
    (hnamed : ∀ i, ∀ c ∈ op.named i, c ∈ lop.named) (h : lop.InScope inputs) : op.InScope inputs :=
  fun i columns hi c hc => h columns (List.mem_of_getElem? hi) c (hnamed i c hc)

end PhysicalOp

variable {σ κ : Type}

/-- The columns of a group; none if it is not known. -/
def Memo.output (m : Memo σ κ) (g : GroupId) : ColumnSet := ((m.logical? g).map LogicalProperties.output).getD ∅

theorem Memo.output_eq {m : Memo σ κ} {g : GroupId} {p : LogicalProperties} (h : m.logical? g = some p) :
    m.output g = p.output := by
  rw [output, h, Option.map_some, Option.getD_some]

namespace Expr

mutual

/-- The columns a tree of logical operators produces. Physical operators produce nothing here. -/
def outputOver (m : Memo σ κ) : Expr → ColumnSet
  | .group g => m.output g
  | .node (.logical op) inputs => op.outputOf (outputsOver m inputs)
  | .node (.physical _) _ => ∅

def outputsOver (m : Memo σ κ) : List Expr → List ColumnSet
  | [] => []
  | e :: es => e.outputOver m :: outputsOver m es

end

/-- All operators of a tree over known groups are in scope. -/
inductive InScope (m : Memo σ κ) : Expr → Prop
  | group {g : GroupId} {p : LogicalProperties} (h : m.logical? g = some p) : InScope m (.group g)
  | logical {op : LogicalOp} {inputs : List Expr} (hinputs : ∀ e ∈ inputs, InScope m e)
    (hop : op.InScope (inputs.map (outputOver m))) : InScope m (.ofLogical op inputs)

variable {m : Memo σ κ}

theorem outputsOver_eq_map (es : List Expr) : outputsOver m es = es.map (outputOver m) := by
  induction es with
  | nil => rfl
  | cons e es ih => rw [outputsOver, List.map_cons, ih]

theorem outputOver_ofLogical (op : LogicalOp) (inputs : List Expr) :
    (ofLogical op inputs).outputOver m = op.outputOf (inputs.map (outputOver m)) := by
  rw [ofLogical, outputOver, outputsOver_eq_map]

theorem InScope.inputs {op : LogicalOp} {inputs : List Expr} (h : (ofLogical op inputs).InScope m) :
    ∀ e ∈ inputs, e.InScope m := by
  cases h with
  | logical hinputs _ => exact hinputs

theorem InScope.inScope {op : LogicalOp} {inputs : List Expr} (h : (ofLogical op inputs).InScope m) :
    op.InScope (inputs.map (outputOver m)) := by
  cases h with
  | logical _ hop => exact hop

theorem map_output_eq {es : List Expr} {ps : List LogicalProperties}
    (h : List.Forall₂ (fun e p => p.output = e.outputOver m) es ps) :
    ps.map LogicalProperties.output = es.map (outputOver m) := by
  rw [← List.forall₂_eq_eq_eq, List.forall₂_map_left_iff, List.forall₂_map_right_iff]
  exact h.flip

/-- What is derived for a tree names the columns it produces. -/
theorem output_of_derive {source : PropertySource σ} {c : Catalog} {cs : Columns}
    (hsource : source.logical = LogicalOp.properties c cs) {e : Expr} {p : LogicalProperties}
    (h : m.derive source e = .ok p) : p.output = e.outputOver m := by
  induction e using Expr.induction generalizing p with
  | group g => exact (Memo.output_eq (Memo.derive_group_iff.1 h).2).symm
  | node op inputs ih =>
    obtain ⟨op, ps, _, raw, rfl, hps, hraw, rfl⟩ := exists_of_derive hsource h
    have hih : ∀ e ∈ inputs, ∀ p, m.derive source e = .ok p → p.output = e.outputOver m := fun e he p => ih e he
    have hinputs := map_output_eq (((List.forall₂_and_left _ _).2 ⟨hih, hps⟩).imp fun e p he => he.1 p he.2)
    change raw.output = (ofLogical op inputs).outputOver m
    rw [LogicalOp.output_of_rawProperties hraw, outputOver_ofLogical, hinputs]

end Expr
end Cascade
