import Cascade.Proofs.Semantics.Relation

/-!
What trees of logical operators compute over a database.
-/

namespace Cascade

/-- The number of rows a limit keeps of `n`. -/
def RowLimit.kept (l : RowLimit) (n : Nat) : Nat :=
  match l.count with
  | some count => min count (n - l.offset)
  | none => n - l.offset

/-- A database and everything else the rows of a query depend on. Which rows a limit keeps is left open,
since rows can be equal in its ordering; the aggregate functions get the arguments of the rows of a group. -/
structure Interpretation extends Functions where
  /-- the rows of a table, by the names of its columns -/
  table : String → Multiset (String → Value)
  columnName : ColumnId → String
  /-- the partitions a scan reads, by the value of the partition key -/
  partition : ScanId → Value → Bool
  aggregate : AggregateFunction → (distinct : Bool) → Multiset (List Value) → Value
  limit : RowLimit → Multiset Row → Multiset Row
  limit_le : ∀ l rows, limit l rows ≤ rows
  card_limit : ∀ l rows, (limit l rows).card = l.kept rows.card
  /-- the number of rows a write reports -/
  written : DmlKind → String → Multiset (List Value) → Nat
  group : GroupId → Relation

/-- A database where every partition is read and a limit keeps any rows; what is called answers `NULL`. -/
noncomputable def Interpretation.ofTables (table : String → Multiset (String → Value))
    (columnName : ColumnId → String) : Interpretation where
  call _ _ := .null
  cast _ _ := .null
  table
  columnName
  partition _ _ := true
  aggregate _ _ _ := .null
  limit l rows := (rows.toList.take (l.kept rows.card) : List Row)
  limit_le l rows := by
    conv_rhs => rw [← rows.coe_toList]
    exact (List.take_sublist _ _).subperm
  card_limit l rows := by
    rw [Multiset.coe_card, List.length_take, Multiset.length_toList]
    refine Nat.min_eq_left ?_
    unfold RowLimit.kept
    split <;> omega
  written _ _ _ := 0
  group _ := .empty

variable (S : Interpretation)

namespace Get

def reads (g : Get) (t : String → Value) : Bool :=
  g.partitionColumn.all (fun p => S.partition g.scanId (t (S.columnName p)))

/-- The rows of a table in the partitions that are read. -/
def meaning (g : Get) : Relation :=
  .ofCells g.columns
    (fun _ => ((S.table g.table).filter (fun t => g.reads S t = true)).map (fun t =>
      g.columns.map (fun c => (c, t (S.columnName c)))))
    (by
      intro s l hl
      obtain ⟨t, -, rfl⟩ := Multiset.mem_map.1 hl
      simp [Function.comp_def])

end Get

def AggregateCall.value (a : AggregateCall) (b : Binding) (rows : Multiset Row) : Value :=
  S.aggregate a.func a.distinct (rows.map (fun r => Scalar.evalArgs S.toFunctions (b.with r) a.args))

/-- A table of constants. -/
def ConstantRows.meaning (v : ConstantRows) : Relation :=
  .ofCells v.columns
    (fun _ => ((v.rows : Multiset (List Value)).map (fun row =>
      v.columns.zipIdx.map (fun a => (a.1, (row[a.2]?).getD .null)))))
    (by
      intro s l hl
      obtain ⟨row, -, rfl⟩ := Multiset.mem_map.1 hl
      simp [Function.comp_def])

namespace LogicalOp

/-- The rows of an operator, from those of its inputs. -/
def meaning : LogicalOp → List Relation → Relation
  | get g, [] => g.meaning S
  | select e, [R] => R.filter (fun b => e.holds S.toFunctions b)
  | project l, [R] => R.compute l (fun b e => e.eval S.toFunctions b)
  | join type on, [L, R] => L.join type (fun b => on.truth S.toFunctions b) R
  | naryJoin on, Rs => (Relation.product Rs).filter (fun b => on.holds S.toFunctions b)
  | aggregate a, [R] => R.group a.groupBy a.aggregates (fun b rows call => call.value S b rows)
  | limit l, [R] => R.choose (S.limit l) (S.limit_le l)
  | unionAll u, Rs => .concat u.output (Rs.zip u.inputColumns)
  | values v, [] => v.meaning
  | dml kind table columns, [R] =>
    R.report (fun b rows => S.written kind table (rows.map (fun r => columns.map (b.with r))))
  | apply type on, [L, R] => L.apply type.joinType (fun b => on.truth S.toFunctions b) R
  | cteAnchor cte, [P, B] => P.anchor cte B
  | cteConsumer r, [] => .ofCte r.cte r.columns r.producerColumns
  | _, _ => .empty

end LogicalOp

namespace Expr

mutual

/-- The rows a tree of logical operators computes. Physical operators compute nothing here. -/
def meaning : Expr → Relation
  | .group g => S.group g
  | .node (.logical op) inputs => op.meaning S (meanings inputs)
  | .node (.physical _) _ => .empty

def meanings : List Expr → List Relation
  | [] => []
  | e :: es => e.meaning :: meanings es

end

theorem meanings_eq_map (es : List Expr) : meanings S es = es.map (meaning S) := by
  induction es with
  | nil => rfl
  | cons e es ih => rw [meanings, List.map_cons, ih]

theorem meaning_ofLogical (op : LogicalOp) (inputs : List Expr) :
    (ofLogical op inputs).meaning S = op.meaning S (inputs.map (meaning S)) := by
  rw [ofLogical, meaning, meanings_eq_map]

section

variable {S} (filter on : Scalar) (l : List Assignment) (type : JoinType) (a : Aggregation) (e r : Expr)

theorem meaning_select : (ofLogical (.select filter) [e]).meaning S =
    (e.meaning S).filter (fun b => filter.holds S.toFunctions b) := rfl

theorem meaning_project : (ofLogical (.project l) [e]).meaning S =
    (e.meaning S).compute l (fun b x => x.eval S.toFunctions b) := rfl

theorem meaning_join : (ofLogical (.join type on) [e, r]).meaning S =
    (e.meaning S).join type (fun b => on.truth S.toFunctions b) (r.meaning S) := rfl

theorem meaning_naryJoin (inputs : List Expr) : (ofLogical (.naryJoin on) inputs).meaning S =
    (Relation.product (inputs.map (meaning S))).filter (fun b => on.holds S.toFunctions b) :=
  meaning_ofLogical S ..

theorem meaning_aggregate : (ofLogical (.aggregate a) [e]).meaning S =
    (e.meaning S).group a.groupBy a.aggregates (fun b rows call => call.value S b rows) := rfl

theorem meaning_unionAll (u : Concatenation) (inputs : List Expr) : (ofLogical (.unionAll u) inputs).meaning S =
    .concat u.output ((inputs.map (meaning S)).zip u.inputColumns) :=
  meaning_ofLogical S ..

theorem meaning_apply (type : ApplyType) : (ofLogical (.apply type on) [e, r]).meaning S =
    (e.meaning S).apply type.joinType (fun b => on.truth S.toFunctions b) (r.meaning S) := rfl

theorem meaning_cteAnchor (cte : CteId) : (ofLogical (.cteAnchor cte) [e, r]).meaning S =
    (e.meaning S).anchor cte (r.meaning S) := rfl

end

/-- An induction over a tree goes through all inputs of an operator. -/
@[elab_as_elim]
theorem induction {motive : Expr → Prop} (group : ∀ g, motive (.group g))
    (node : ∀ op inputs, (∀ i ∈ inputs, motive i) → motive (.node op inputs)) : ∀ e, motive e
  | .group g => group g
  | .node op inputs => node op inputs (fun i _ => induction group node i)

mutual

def subtrees : Expr → List Expr
  | .group g => [.group g]
  | .node op inputs => .node op inputs :: subtreesAll inputs

def subtreesAll : List Expr → List Expr
  | [] => []
  | e :: es => e.subtrees ++ subtreesAll es

end

theorem mem_subtreesAll {x : Expr} (es : List Expr) : x ∈ subtreesAll es ↔ ∃ e ∈ es, x ∈ e.subtrees := by
  induction es with
  | nil => exact ⟨fun h => (nomatch h), fun ⟨_, h, _⟩ => (nomatch h)⟩
  | cons e es ih => rw [subtreesAll, List.mem_append, ih, List.exists_mem_cons_iff]

theorem mem_subtrees_node {x : Expr} (op : Operator) (inputs : List Expr) :
    x ∈ (node op inputs).subtrees ↔ x = .node op inputs ∨ ∃ e ∈ inputs, x ∈ e.subtrees := by
  rw [subtrees, List.mem_cons, mem_subtreesAll]

theorem mem_subtrees_self : ∀ e : Expr, e ∈ e.subtrees
  | .group _ => List.mem_singleton.2 rfl
  | .node _ _ => List.mem_cons_self ..

/-- What is true of all operators of a tree and their inputs. -/
theorem forall_ofLogical_mem_subtrees {P : LogicalOp → List Expr → Prop} {op : LogicalOp} {inputs : List Expr} :
    (∀ op' inputs', ofLogical op' inputs' ∈ (ofLogical op inputs).subtrees → P op' inputs') ↔
      P op inputs ∧ ∀ i ∈ inputs, ∀ op' inputs', ofLogical op' inputs' ∈ i.subtrees → P op' inputs' := by
  constructor
  · refine fun h => ⟨h op inputs (mem_subtrees_self _), fun i hi op' inputs' h' => h op' inputs' ?_⟩
    exact (mem_subtrees_node _ inputs).2 (.inr ⟨i, hi, h'⟩)
  · rintro ⟨hop, hinputs⟩ op' inputs' h'
    rcases (mem_subtrees_node _ inputs).1 h' with heq | ⟨i, hi, h'⟩
    · cases heq
      exact hop
    · exact hinputs i hi op' inputs' h'

/-- No leaf of a tree stands for a group. -/
def Closed (e : Expr) : Prop := ∀ g, .group g ∉ e.subtrees

theorem closed_ofLogical {op : LogicalOp} {inputs : List Expr} (h : ∀ i ∈ inputs, i.Closed) :
    (ofLogical op inputs).Closed := by
  intro g hg
  rcases (mem_subtrees_node _ inputs).1 hg with hg | ⟨i, hi, hg⟩
  · cases hg
  · exact h i hi g hg

theorem Closed.of_mem {op : Operator} {inputs : List Expr} (h : (node op inputs).Closed) {e : Expr}
    (he : e ∈ inputs) : e.Closed := fun g hg =>
  h g ((mem_subtrees_node op inputs).2 (.inr ⟨e, he, hg⟩))

end Expr
end Cascade
