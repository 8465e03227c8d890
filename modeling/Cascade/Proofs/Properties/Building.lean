import Cascade.Algebra.Builder
import Cascade.Proofs.Properties.Outputs
import Cascade.Proofs.Stateful

/-!
Queries that are built step by step. All operators of a query are in scope, and it produces the columns the builder lists
(`Builder.Made.inScope`), since steps that name columns refuse those that the query so far does not produce.
-/

namespace Cascade

variable {σ κ : Type} {m : Memo σ κ}

namespace Query

/-- The operators of a query are in scope, and its columns are those it produces. -/
structure InScope (m : Memo σ κ) (q : Query) : Prop where
  expr : q.expr.InScope m
  output : q.expr.outputOver m = .ofList q.columns

/-- The columns of queries. -/
def outputs (inputs : List Query) : List ColumnSet := inputs.map fun q => .ofList q.columns

theorem InScope.ofNode {op : LogicalOp} {inputs : List Query} {columns : List ColumnId}
    (hinputs : ∀ q ∈ inputs, q.InScope m) (hop : op.InScope (outputs inputs))
    (hcolumns : op.outputOf (outputs inputs) = .ofList columns) : (Query.ofNode op inputs columns).InScope m := by
  have houtputs : (inputs.map Query.expr).map (Expr.outputOver m) = outputs inputs := by
    rw [List.map_map]
    exact List.map_congr_left fun q hq => (hinputs q hq).output
  refine ⟨.logical ?_ (houtputs ▸ hop), ?_⟩
  · intro e he
    obtain ⟨q, hq, rfl⟩ := List.mem_map.1 he
    exact (hinputs q hq).expr
  · exact (Expr.outputOver_ofLogical ..).trans (houtputs ▸ hcolumns)

/-- An operator that names no columns is in scope over any queries. -/
theorem InScope.ofUnnamed {op : LogicalOp} {inputs : List Query} {columns : List ColumnId}
    (hinputs : ∀ q ∈ inputs, q.InScope m) (hop : op.named = [])
    (hcolumns : op.outputOf (outputs inputs) = .ofList columns) : (Query.ofNode op inputs columns).InScope m :=
  .ofNode hinputs (LogicalOp.inScope_of_named hop _) hcolumns

theorem ofList_append (l r : List ColumnId) : (SortedSet.ofList (l ++ r) : ColumnSet) = .ofList l ∪ .ofList r :=
  SortedSet.ext_mem fun x => by rw [SortedSet.mem_union, SortedSet.mem_ofList, SortedSet.mem_ofList, SortedSet.mem_ofList,
    List.mem_append]

theorem columns_joinColumns (type : JoinType) (l r : List ColumnId) :
    type.columns (.ofList l) (.ofList r) = .ofList (joinColumns type l r) := by
  unfold JoinType.columns joinColumns
  split
  · rfl
  · exact (ofList_append l r).symm

section

variable {q l r : Query}

theorem InScope.both (hl : l.InScope m) (hr : r.InScope m) : ∀ q ∈ [l, r], q.InScope m :=
  List.forall_mem_cons.2 ⟨hl, List.forall_mem_singleton.2 hr⟩

theorem InScope.select (h : q.InScope m) (filter : Scalar) : (q.select filter).InScope m :=
  .ofUnnamed (List.forall_mem_singleton.2 h) rfl rfl

theorem InScope.join (hl : l.InScope m) (hr : r.InScope m) (type : JoinType) (on : Scalar) :
    (l.join r type on).InScope m :=
  .ofUnnamed (hl.both hr) rfl (columns_joinColumns ..)

theorem InScope.apply (hl : l.InScope m) (hr : r.InScope m) (type : ApplyType) (on : Scalar) :
    (l.apply r type on).InScope m :=
  .ofUnnamed (hl.both hr) rfl (columns_joinColumns ..)

theorem InScope.cteAnchor (hl : l.InScope m) (hr : r.InScope m) (cte : CteId) : (l.cteAnchor cte r).InScope m :=
  .ofUnnamed (hl.both hr) rfl rfl

theorem InScope.naryJoin {others : List Query} (h : q.InScope m) (hothers : ∀ o ∈ others, o.InScope m) (on : Scalar) :
    (q.naryJoin others on).InScope m := by
  refine .ofUnnamed (List.forall_mem_cons.2 ⟨h, hothers⟩) rfl (SortedSet.ext_mem fun x => ?_)
  rw [LogicalOp.outputOf, SortedSet.mem_foldl_union, SortedSet.mem_ofList, List.mem_flatMap]
  refine (or_iff_right (SortedSet.not_mem_empty x)).trans ?_
  simp only [outputs, List.mem_map, exists_exists_and_eq_and, SortedSet.mem_ofList]

/-! Steps that can fail. -/

/-- A step that gives a query whose operators are in scope. -/
abbrev Builds (m : Memo σ κ) (x : BuildM Query) : Prop := ∀ s, Yields x s (fun q _ => q.InScope m) (fun _ _ => True)

theorem builds_scanColumns (t : Table) (relation : String) (names : List String) :
    Builds m (scanColumns t relation names) := by
  intro s
  refine (Yields.any _ _).bind fun columns _ _ => ?_
  dsimp only
  -- the partition key is registered, if there is one
  repeat' split
  all_goals
    refine (Yields.any _ _).bind fun partitionColumn _ _ => .bind_modifyGet (.of_pure ?_)
    exact .ofUnnamed (List.forall_mem_nil _) rfl rfl

theorem InScope.builds_project (h : q.InScope m) (exprs : List Scalar) : Builds m (q.project exprs) := fun _ =>
  (Yields.any _ _).bind fun _ _ _ => .of_pure (.ofUnnamed (List.forall_mem_singleton.2 h) rfl rfl)

/-- Grouping columns are looked for among the columns of the query. -/
theorem InScope.builds_aggregate (h : q.InScope m) (groupBy : List ColumnId) (aggregates : List AggregateCall) :
    Builds m (q.aggregate groupBy aggregates) := by
  intro s
  unfold aggregate
  split
  · exact .of_throw trivial
  · rename_i hmissing
    refine (Yields.any _ _).bind fun assignments _ _ => .of_pure (.ofNode (List.forall_mem_singleton.2 h) ?_ rfl)
    refine LogicalOp.inScope_singleton.2 fun c hc => SortedSet.mem_ofList.2 ?_
    simpa using List.find?_eq_none.1 hmissing c hc

/-- The ordering of a limit is looked for among the columns of the query. -/
theorem InScope.builds_limit (h : q.InScope m) (l : RowLimit) : Builds m (q.limit l) := by
  intro s
  unfold limit
  split
  · rename_i hwithin
    refine .of_pure (.ofNode (List.forall_mem_singleton.2 h) (LogicalOp.inScope_singleton.2 fun c hc => ?_) rfl)
    obtain ⟨o, ho, rfl⟩ := List.mem_map.1 hc
    exact of_decide_eq_true (List.all_eq_true.1 hwithin o ho)
  · exact .of_throw trivial

theorem InScope.builds_unionAll {others : List Query} (h : q.InScope m) (hothers : ∀ o ∈ others, o.InScope m) :
    Builds m (q.unionAll others) := fun _ =>
  (Yields.any _ _).bind fun _ _ _ => .of_pure (.ofUnnamed (List.forall_mem_cons.2 ⟨h, hothers⟩) rfl rfl)

theorem builds_values (rows : List (List Value)) : Builds m (values rows) := by
  intro s
  unfold values
  dsimp only
  split
  · exact .of_throw trivial
  · exact (Yields.any _ _).bind fun _ _ _ => .of_pure (.ofUnnamed (List.forall_mem_nil _) rfl rfl)

/-- All columns of the query are written. -/
theorem InScope.builds_dml (h : q.InScope m) (kind : DmlKind) (t : Table) : Builds m (q.dml kind t) := by
  intro s
  unfold dml
  split
  · exact .of_throw trivial
  · refine .of_pure (.ofNode (List.forall_mem_singleton.2 h) (LogicalOp.inScope_singleton.2 fun c hc => ?_) rfl)
    exact SortedSet.mem_ofList.2 hc

theorem builds_cteConsumer (cte : CteId) : Builds m (cteConsumer cte) := by
  intro s
  refine .bind_get ?_
  split
  · exact .of_throw trivial
  · exact (Yields.any _ _).bind fun _ _ _ => .of_pure (.ofUnnamed (List.forall_mem_nil _) rfl rfl)

end

end Query

namespace Builder

mutual

/-- Builders that are made step by step. -/
inductive Made (c : Catalog) : Builder → Prop
  | empty : Made c .empty
  | step {x : BuildM Builder} {s t : Session} {b : Builder} (hx : Steps c x) (hrun : x.run s = (.ok b, t)) : Made c b

/-- The steps, taken with builders made before. -/
inductive Steps (c : Catalog) : BuildM Builder → Prop
  | getColumns {b : Builder} (hb : Made c b) (table relation : String) (names : List String) :
    Steps c (b.getColumns c table relation names)
  | get {b : Builder} (hb : Made c b) (table relation : String) : Steps c (b.get c table relation)
  | select {b : Builder} (hb : Made c b) (filter : Scalar) : Steps c (b.select filter)
  | project {b : Builder} (hb : Made c b) (exprs : List Scalar) : Steps c (b.project exprs)
  | join {b right : Builder} (hb : Made c b) (hright : Made c right) (type : JoinType) (on : Scalar) :
    Steps c (b.join right type on)
  | naryJoin {b : Builder} {others : List Builder} (hb : Made c b) (hothers : ∀ o ∈ others, Made c o) (on : Scalar) :
    Steps c (b.naryJoin others on)
  | apply {b right : Builder} (hb : Made c b) (hright : Made c right) (type : ApplyType) (on : Scalar) :
    Steps c (b.apply right type on)
  | aggregate {b : Builder} (hb : Made c b) (groupBy : List ColumnId) (aggregates : List AggregateCall) :
    Steps c (b.aggregate groupBy aggregates)
  | limit {b : Builder} (hb : Made c b) (l : RowLimit) : Steps c (b.limit l)
  | unionAll {b : Builder} {others : List Builder} (hb : Made c b) (hothers : ∀ o ∈ others, Made c o) :
    Steps c (b.unionAll others)
  | values {b : Builder} (hb : Made c b) (rows : List (List Value)) : Steps c (b.values rows)
  | dml {b : Builder} (hb : Made c b) (kind : DmlKind) (table : String) : Steps c (b.dml c kind table)
  | cteConsumer {b : Builder} (hb : Made c b) (cte : CteId) : Steps c (b.cteConsumer cte)
  | cteAnchor {b body : Builder} (hb : Made c b) (cte : CteId) (hbody : Made c body) :
    Steps c (b.cteAnchor cte body)

end

/-- A step with builders made before makes another one. -/
theorem Steps.yields_made {c : Catalog} {x : BuildM Builder} (hx : Steps c x) (s : Session) :
    Yields x s (fun b _ => b.Made c) (fun _ _ => True) :=
  .of_run fun _ _ hrun => .step hx hrun

/-- The query of a builder, if it has one, is in scope. -/
def InScope (m : Memo σ κ) (b : Builder) : Prop := ∀ q, b.current = some q → q.InScope m

variable {b : Builder}

theorem inScope_ofQuery {q : Query} (h : q.InScope m) : (ofQuery q).InScope m := by
  intro r hr
  cases hr
  exact h

theorem InScope.builds_query (h : b.InScope m) : Query.Builds m b.query := by
  intro s
  unfold query
  split
  · rename_i q hq
    exact .of_pure (h q hq)
  · exact .of_throw trivial

/-- A step that goes on with the query of a builder. -/
theorem InScope.bind_query {α : Type} (h : b.InScope m) {s : Session} {f : Query → BuildM α} {Q : α → Session → Prop}
    (hf : ∀ q t, q.InScope m → Yields (f q) t Q (fun _ _ => True)) : Yields (b.query >>= f) s Q (fun _ _ => True) :=
  (h.builds_query s).bind hf

/-- The query of another input, which has to be as wide. -/
theorem InScope.builds_checked (h : b.InScope m) (first : Query) : Query.Builds m (do
    let q ← b.query
    liftM (first.checkWidth q)
    pure q) :=
  fun _ => h.bind_query fun _ _ hq => .bind_lift (fun _ _ => .of_pure hq) fun _ _ => trivial

/-- A step that gives a builder in scope. -/
abbrev Gives (m : Memo σ κ) (x : BuildM Builder) : Prop := ∀ s, Yields x s (fun b _ => b.InScope m) (fun _ _ => True)

theorem gives_ofQuery {x : BuildM Query} (h : Query.Builds m x) : Gives m (ofQuery <$> x) := fun s =>
  .map ((h s).mono (fun _ _ => inScope_ofQuery) fun _ _ _ => trivial)

theorem gives_getColumns (c : Catalog) (table relation : String) (names : List String) :
    Gives m (b.getColumns c table relation names) := fun _ =>
  (Yields.any _ _).bind fun _ _ _ =>
    .bind_lift (fun t _ => gives_ofQuery (Query.builds_scanColumns t relation names) _) fun _ _ => trivial

mutual

/-- All operators of a query that is built are in scope, and the builder lists the columns it produces. -/
theorem Made.inScope {c : Catalog} (m : Memo σ κ) : ∀ {b : Builder}, b.Made c → b.InScope m
  | _, .empty => fun _ hq => by cases hq
  | _, .step (s := s) hx hrun => (hx.inScope m s).of_ok hrun

theorem Steps.inScope {c : Catalog} (m : Memo σ κ) : ∀ {x : BuildM Builder}, Steps c x → Gives m x
  | _, .getColumns _ table relation names => gives_getColumns c table relation names
  | _, .get _ table relation => fun _ => .bind_lift (fun _ _ => gives_getColumns c table relation _ _) fun _ _ => trivial
  | _, .select hb filter => fun _ => (hb.inScope m).bind_query fun _ _ hq => .of_pure (inScope_ofQuery (hq.select filter))
  | _, .project hb exprs => fun _ => (hb.inScope m).bind_query fun _ _ hq => gives_ofQuery (hq.builds_project exprs) _
  | _, .join hb hright type on => fun _ => (hb.inScope m).bind_query fun _ _ hl =>
    (hright.inScope m).bind_query fun _ _ hr => .of_pure (inScope_ofQuery (hl.join hr type on))
  | _, .naryJoin hb hothers on => fun _ => (hb.inScope m).bind_query fun _ t hq =>
    (Yields.mapM (fun o ho => ((hothers o ho).inScope m).builds_query) t).bind fun _ _ hqs =>
      .of_pure (inScope_ofQuery (hq.naryJoin hqs on))
  | _, .apply hb hright type on => fun _ => (hb.inScope m).bind_query fun _ _ hl =>
    (hright.inScope m).bind_query fun _ _ hr => .of_pure (inScope_ofQuery (hl.apply hr type on))
  | _, .aggregate hb groupBy aggregates => fun _ => (hb.inScope m).bind_query fun _ _ hq =>
    gives_ofQuery (hq.builds_aggregate groupBy aggregates) _
  | _, .limit hb l => fun _ => (hb.inScope m).bind_query fun _ _ hq => gives_ofQuery (hq.builds_limit l) _
  | _, .unionAll hb hothers => fun _ => (hb.inScope m).bind_query fun first t hq =>
    (Yields.mapM (fun o ho => ((hothers o ho).inScope m).builds_checked first) t).bind fun _ _ hqs =>
      gives_ofQuery (hq.builds_unionAll hqs) _
  | _, .values _ rows => fun _ => (Yields.any _ _).bind fun _ _ _ => gives_ofQuery (Query.builds_values rows) _
  | _, .dml hb kind table => fun _ => (hb.inScope m).bind_query fun _ _ hq =>
    .bind_lift (fun t _ => gives_ofQuery (hq.builds_dml kind t) _) fun _ _ => trivial
  | _, .cteConsumer _ cte => fun _ => (Yields.any _ _).bind fun _ _ _ => gives_ofQuery (Query.builds_cteConsumer cte) _
  | _, .cteAnchor hb cte hbody => fun _ => (hb.inScope m).bind_query fun _ _ hl =>
    (hbody.inScope m).bind_query fun _ _ hr => .of_pure (inScope_ofQuery (hl.cteAnchor hr cte))

end

end Builder
end Cascade
