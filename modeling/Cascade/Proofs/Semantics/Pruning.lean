import Cascade.Proofs.Semantics.Agreement

/-!
Trees of which a scan reads fewer partitions. Where the partition column is passed on, the rows of the
tree with other values in it are all that is missing, or comes in their place.
-/

namespace Cascade

/-- The same database, of which a scan reads fewer partitions. -/
def Interpretation.prune (S : Interpretation) (s : ScanId) (keep : Value → Bool) : Interpretation :=
  { S with partition := fun t v => S.partition t v && (!decide (t = s) || keep v) }

namespace Expr

/-- A tree has no scan of this number. -/
def Avoids (s : ScanId) (e : Expr) : Prop := ∀ g inputs, .ofLogical (.get g) inputs ∈ e.subtrees → g.scanId ≠ s

theorem Avoids.of_mem {s : ScanId} {op : Operator} {inputs : List Expr} (h : (node op inputs).Avoids s) {e : Expr}
    (he : e ∈ inputs) : e.Avoids s := fun g is hg =>
  h g is ((mem_subtrees_node op inputs).2 (.inr ⟨e, he, hg⟩))

/-- A tree passes the partition column of a scan on to its rows: so does every operator from the scan
upwards. None of these is a limit, and nothing beside them reads the scan or produces the column on its
own. -/
inductive Carries (S : Interpretation) (s : ScanId) (p : ColumnId) : Expr → Prop
  | get {g : Get} (hscan : g.scanId = s) (hkey : g.partitionColumn = some p) (hp : p ∈ g.columns) :
    Carries S s p (.ofLogical (.get g) [])
  | select {filter : Scalar} {e : Expr} (h : Carries S s p e) : Carries S s p (.ofLogical (.select filter) [e])
  | project {l : List Assignment} {e : Expr} (h : Carries S s p e) (hp : l.lookup p = some (.column p)) :
    Carries S s p (.ofLogical (.project l) [e])
  | aggregate {a : Aggregation} {e : Expr} (h : Carries S s p e) (hp : p ∈ a.groupBy) :
    Carries S s p (.ofLogical (.aggregate a) [e])
  | joinLeft {type : JoinType} {on : Scalar} {l r : Expr} (h : Carries S s p l) (hr : r.Avoids s) :
    Carries S s p (.ofLogical (.join type on) [l, r])
  | joinRight {type : JoinType} {on : Scalar} {l r : Expr} (h : Carries S s p r) (hl : l.Avoids s)
    (htype : type.isSemiOrAnti = false) (hp : p ∉ (l.meaning S).columns) :
    Carries S s p (.ofLogical (.join type on) [l, r])
  | applyLeft {type : ApplyType} {on : Scalar} {l r : Expr} (h : Carries S s p l) (hr : r.Avoids s) :
    Carries S s p (.ofLogical (.apply type on) [l, r])
  | applyRight {type : ApplyType} {on : Scalar} {l r : Expr} (h : Carries S s p r) (hl : l.Avoids s)
    (htype : type.joinType.isSemiOrAnti = false) (hp : p ∉ (l.meaning S).columns) :
    Carries S s p (.ofLogical (.apply type on) [l, r])
  | naryJoin {on : Scalar} {before after : List Expr} {e : Expr} (h : Carries S s p e)
    (hbefore : ∀ x ∈ before, x.Avoids s ∧ p ∉ (x.meaning S).columns) (hafter : ∀ x ∈ after, x.Avoids s) :
    Carries S s p (.ofLogical (.naryJoin on) (before ++ e :: after))
  | unionAll {u : Concatenation} {before after : List Expr} {e : Expr} {columnsBefore columnsAfter : List (List ColumnId)}
    {input : List ColumnId} {place : Nat} (h : Carries S s p e)
    (hcolumns : u.inputColumns = columnsBefore ++ input :: columnsAfter)
    (hlength : before.length = columnsBefore.length) (houtput : u.output.zipIdx.lookup p = some place)
    (hinput : input[place]? = some p) (hothers : ∀ x ∈ before ++ after, x.Avoids s) :
    Carries S s p (.ofLogical (.unionAll u) (before ++ e :: after))
  | cteAnchor {cte : CteId} {producer body : Expr} (h : Carries S s p body) (hproducer : producer.Avoids s) :
    Carries S s p (.ofLogical (.cteAnchor cte) [producer, body])

end Expr

variable {S : Interpretation} {s : ScanId} {keep : Value → Bool}

theorem Get.meaning_prune {g : Get} (h : g.scanId ≠ s) : g.meaning (S.prune s keep) = g.meaning S := by
  have hreads : g.reads (S.prune s keep) = g.reads S := by
    funext t
    simp [reads, Interpretation.prune, h]
  unfold meaning
  simp only [hreads]
  rfl

theorem LogicalOp.meaning_prune {op : LogicalOp} (h : ∀ g, op = .get g → g.scanId ≠ s) (Rs : List Relation) :
    op.meaning (S.prune s keep) Rs = op.meaning S Rs := by
  unfold meaning
  split
  case h_1 g => exact Get.meaning_prune (h g rfl)
  all_goals rfl

theorem Expr.Avoids.meaning_prune {e : Expr} (h : e.Avoids s) : e.meaning (S.prune s keep) = e.meaning S := by
  induction e using Expr.induction with
  | group g => rfl
  | node op inputs ih =>
    cases op with
    | physical op => rfl
    | logical op =>
      rw [Expr.meaning, Expr.meaning, Expr.meanings_eq_map, Expr.meanings_eq_map,
        List.map_congr_left fun e he => ih e he (h.of_mem he)]
      refine LogicalOp.meaning_prune ?_ _
      rintro g rfl
      exact h g inputs ((mem_subtrees_node _ inputs).2 (.inl rfl))

theorem Expr.map_meaning_prune {es : List Expr} (h : ∀ e ∈ es, e.Avoids s) :
    es.map (meaning (S.prune s keep)) = es.map (meaning S) :=
  List.map_congr_left fun e he => (h e he).meaning_prune

theorem Get.agreeOn_prune {g : Get} {p : ColumnId} (hkey : g.partitionColumn = some p)
    (hp : p ∈ g.columns) : Relation.AgreeOn p keep (g.meaning (S.prune s keep)) (g.meaning S) where
  columns := rfl
  mem := SortedSet.mem_ofList.2 hp
  rows scope := by
    have hcells : ∀ T : Interpretation, ((g.meaning T).rows scope).filter (Row.Has p keep) =
        ((T.table g.table).filter (fun t => keep (t (T.columnName p)) = true ∧ g.reads T t = true)).map
          (fun t => Row.ofPairs (g.columns.map (fun c => (c, t (T.columnName c))))) := by
      intro T
      simp only [meaning, Relation.ofCells, Multiset.map_map, Multiset.filter_map, Multiset.filter_filter,
        Function.comp_def, Row.Has, Row.ofPairs_map hp, Option.any_some]
    rw [hcells, hcells]
    refine congrArg _ (Multiset.filter_congr fun t _ => and_congr_right fun hkeep => ?_)
    simp [reads, hkey, Interpretation.prune, show keep (t (S.columnName p)) = true from hkeep]

/-- A pruned tree still has every row with a kept value. -/
theorem Expr.Carries.agreeOn_prune {e : Expr} {p : ColumnId} (h : e.Carries S s p) (hnull : keep .null = false) :
    Relation.AgreeOn p keep (e.meaning (S.prune s keep)) (e.meaning S) := by
  induction h with
  | get _ hkey hp => exact Get.agreeOn_prune hkey hp
  | select _ ih =>
    rw [meaning_select, meaning_select]
    exact ih.filter _
  | project _ hp ih =>
    rw [meaning_project, meaning_project]
    exact ih.compute hp fun b => rfl
  | aggregate _ hp ih =>
    rw [meaning_aggregate, meaning_aggregate]
    exact ih.group hp _ _
  | joinLeft _ hr ih =>
    rw [meaning_join, meaning_join, hr.meaning_prune]
    exact ih.join_left hnull _
  | joinRight _ hl htype hp ih =>
    rw [meaning_join, meaning_join, hl.meaning_prune]
    exact ih.join_right hnull htype hp _
  | applyLeft _ hr ih =>
    rw [meaning_apply, meaning_apply, hr.meaning_prune]
    exact ih.apply_left _
  | applyRight _ hl htype hp ih =>
    rw [meaning_apply, meaning_apply, hl.meaning_prune]
    exact ih.apply_right hnull htype hp _
  | naryJoin _ hbefore hafter ih =>
    rw [meaning_naryJoin, meaning_naryJoin, List.map_append, List.map_append, List.map_cons, List.map_cons,
      map_meaning_prune fun x hx => (hbefore x hx).1, map_meaning_prune hafter]
    refine (ih.product hnull ?_).filter _
    intro T hT
    obtain ⟨x, hx, rfl⟩ := List.mem_map.1 hT
    exact (hbefore x hx).2
  | unionAll _ hcolumns hlength houtput hinput hothers ih =>
    rw [meaning_unionAll, meaning_unionAll, hcolumns, List.map_append, List.map_append, List.map_cons, List.map_cons,
      map_meaning_prune fun x hx => hothers x (List.mem_append_left _ hx),
      map_meaning_prune fun x hx => hothers x (List.mem_append_right _ hx),
      List.zip_append (by simpa using hlength), List.zip_append (by simpa using hlength), List.zip_cons_cons,
      List.zip_cons_cons]
    exact ih.concat houtput hinput _ _
  | cteAnchor _ hproducer ih =>
    rw [meaning_cteAnchor, meaning_cteAnchor, hproducer.meaning_prune]
    exact ih.anchor _

namespace Expr

theorem get_mem_inputs {op : LogicalOp} (hop : ∀ g, op ≠ .get g) {inputs is : List Expr} {g : Get}
    (h : .ofLogical (.get g) is ∈ (ofLogical op inputs).subtrees) :
    ∃ e ∈ inputs, .ofLogical (.get g) is ∈ e.subtrees := by
  refine ((mem_subtrees_node _ inputs).1 h).resolve_left fun heq => hop g ?_
  cases heq
  rfl

/-- A tree that carries the column of a scan up has no other scan of this number. -/
theorem Carries.partitionColumn_eq {e : Expr} {p : ColumnId} (h : e.Carries S s p) {g : Get} {is : List Expr}
    (hg : .ofLogical (.get g) is ∈ e.subtrees) (hscan : g.scanId = s) : g.partitionColumn = some p := by
  induction h with
  | get _ hkey _ =>
    rcases (mem_subtrees_node _ _).1 hg with heq | ⟨x, hx, -⟩
    · cases heq
      exact hkey
    · cases hx
  | select _ ih | project _ _ ih | aggregate _ _ ih =>
    obtain ⟨x, hx, hin⟩ := get_mem_inputs (fun _ h => by cases h) hg
    rw [List.mem_singleton.1 hx] at hin
    exact ih hin
  | joinLeft _ hr ih | applyLeft _ hr ih =>
    obtain ⟨x, hx, hin⟩ := get_mem_inputs (fun _ h => by cases h) hg
    rcases List.mem_pair.1 hx with rfl | rfl
    · exact ih hin
    · exact absurd hscan (hr g is hin)
  | joinRight _ hl _ _ ih | applyRight _ hl _ _ ih | cteAnchor _ hl ih =>
    obtain ⟨x, hx, hin⟩ := get_mem_inputs (fun _ h => by cases h) hg
    rcases List.mem_pair.1 hx with rfl | rfl
    · exact absurd hscan (hl g is hin)
    · exact ih hin
  | naryJoin _ hbefore hafter ih =>
    obtain ⟨x, hx, hin⟩ := get_mem_inputs (fun _ h => by cases h) hg
    rcases List.mem_append.1 hx with hx | hx
    · exact absurd hscan ((hbefore x hx).1 g is hin)
    · rcases List.mem_cons.1 hx with rfl | hx
      · exact ih hin
      · exact absurd hscan (hafter x hx g is hin)
  | unionAll _ _ _ _ _ hothers ih =>
    obtain ⟨x, hx, hin⟩ := get_mem_inputs (fun _ h => by cases h) hg
    rcases List.mem_append.1 hx with hx | hx
    · exact absurd hscan (hothers x (List.mem_append_left _ hx) g is hin)
    · rcases List.mem_cons.1 hx with rfl | hx
      · exact ih hin
      · exact absurd hscan (hothers x (List.mem_append_right _ hx) g is hin)

end Expr

end Cascade
