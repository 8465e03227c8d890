import Cascade.Proofs.Rules.Pushdown

/-!
A semi join whose condition does not see the rows of the right input. Whether a left row is kept only depends on
there being a right row, so that any one of them will do.
-/

namespace Cascade

/-- A projection onto the columns of a row keeps it, whatever else it was merged with. -/
theorem Row.ofPairs_columns {l t : Row} {columns : ColumnSet} (hl : l.Over columns)
    (ht : ∀ c ∈ columns, t c = l c) (b : Binding) :
    ofPairs (columns.toList.map (fun c => (c, b.with t c))) = l := by
  funext c
  by_cases hc : c ∈ columns
  · obtain ⟨v, hv⟩ := Option.isSome_iff_exists.1 ((hl c).2 hc)
    rw [ofPairs_map hc, Binding.with_of_some ((ht c hc).trans hv), hv]
  · have hover := over_ofPairs (columns.toList.map (fun c => (c, b.with t c)))
    rw [List.map_map, Function.comp_def, List.map_id'] at hover
    rw [hl.eq_none hc]
    exact hover.eq_none fun h => hc (SortedSet.mem_ofList.1 h)

namespace JoinType

variable {on : Row → Truth} {l : Row} {rs : Multiset Row}

/-- All rows match or none does, if the condition only depends on the left row. -/
theorem matched_of_left (hon : ∀ r ∈ rs, on (l.merge r) = on l) :
    matched on l rs = if on l = some true then rs.map l.merge else 0 := by
  unfold matched
  split
  · rename_i h
    refine Multiset.filter_eq_self.2 fun t ht => ?_
    obtain ⟨r, hr, rfl⟩ := Multiset.mem_map.1 ht
    exact (hon r hr).trans h
  · rename_i h
    refine Multiset.filter_eq_nil.2 fun t ht => ?_
    obtain ⟨r, hr, rfl⟩ := Multiset.mem_map.1 ht
    exact fun h' => h ((hon r hr).symm.trans h')

/-- One of the right rows decides whether a left row has a match. -/
theorem map_matched_one {one : Multiset Row} (hone : one ≤ rs) (hcard : one.card = min 1 rs.card)
    (hon : ∀ r ∈ rs, on (l.merge r) = on l) {f : Row → Row} (hf : ∀ r ∈ rs, f (l.merge r) = l) (pad : Row) :
    (matched on l one).map f = leftSemi.contribution on pad l rs := by
  simp only [contribution]
  rw [matched_of_left hon, matched_of_left fun r hr => hon r (Multiset.mem_of_le hone hr)]
  by_cases hl : on l = some true
  · have hmap : (one.map l.merge).map f = Multiset.replicate (min 1 rs.card) l := by
      rw [Multiset.map_map, ← hcard]
      exact (Multiset.map_congr rfl fun r hr => hf r (Multiset.mem_of_le hone hr)).trans (Multiset.map_const' ..)
    rw [if_pos hl, if_pos hl, hmap, Multiset.card_map]
    by_cases hrs : rs.card = 0
    · rw [if_pos hrs, hrs]
      rfl
    · rw [if_neg hrs, Nat.min_eq_left (Nat.one_le_iff_ne_zero.2 hrs)]
      rfl
  · rw [if_neg hl, if_neg hl, Multiset.map_zero, Multiset.card_zero, if_pos rfl]

end JoinType

namespace Expr

/-- The left rows of an inner join with one row of the right input. -/
def joinOneRow (on : Scalar) (left right : Expr) (columns : ColumnSet) : Expr :=
  .ofLogical (.project (columns.toList.map (fun c => (c, .column c))))
    [.join .inner on left (.ofLogical (.limit ⟨0, some 1, .none⟩) [right])]

variable {S : Interpretation} {on : Scalar} {left right : Expr} {columns : ColumnSet}

theorem columns_joinOneRow : ((joinOneRow on left right columns).meaning S).columns = columns := by
  refine SortedSet.ext_mem fun c => ?_
  change c ∈ SortedSet.ofList (List.map Prod.fst (List.map _ _)) ↔ c ∈ columns
  rw [SortedSet.mem_ofList, List.map_map, Function.comp_def, List.map_id']
  rfl

theorem rows_joinOneRow (s : Scope) : ((joinOneRow on left right columns).meaning S).rows s =
    ((left.meaning S).rows s).bind (fun l =>
      (JoinType.matched (fun t => on.truth S.toFunctions (s.binding.with t)) l
        (S.limit ⟨0, some 1, .none⟩ ((right.meaning S).rows s))).map
        (fun t => .ofPairs (columns.toList.map (fun c => (c, s.binding.with t c))))) := by
  change Multiset.map Row.ofPairs (Multiset.map _ (((left.meaning S).rows s).bind _ + 0)) = _
  rw [add_zero, Multiset.map_map, Multiset.map_bind]
  refine Multiset.bind_congr fun l _ => Multiset.map_congr rfl fun t _ => ?_
  rw [Function.comp_apply, List.map_map]
  rfl

theorem meaning_joinOneRow
    (hon : ∀ c ∈ on.columns, c ∈ (left.meaning S).columns ∨ c ∉ (right.meaning S).columns) :
    (joinOneRow on left right (left.meaning S).columns).meaning S = (join .leftSemi on left right).meaning S := by
  refine Relation.ext_rows columns_joinOneRow fun s => ?_
  rw [rows_joinOneRow, join, meaning_join]
  change _ = ((left.meaning S).rows s).bind _ + 0
  rw [add_zero]
  refine Multiset.bind_congr fun l hl => ?_
  have hleft := (left.meaning S).rows_over s l hl
  have hcondition : ∀ r ∈ (right.meaning S).rows s, on.truth S.toFunctions (s.binding.with (l.merge r)) =
      on.truth S.toFunctions (s.binding.with l) := fun r hr =>
    congrArg Value.truth (Scalar.eval_congr fun c hc =>
      Binding.with_merge_left hleft ((right.meaning S).rows_over s r hr) fun hdiff =>
        (hon c hc).elim (SortedSet.mem_diff.1 hdiff).2 (absurd (SortedSet.mem_diff.1 hdiff).1))
  refine JoinType.map_matched_one (S.limit_le ..) (S.card_limit ..) hcondition (fun r _ => ?_) _
  refine Row.ofPairs_columns hleft (fun c hc => ?_) s.binding
  obtain ⟨v, hv⟩ := Option.isSome_iff_exists.1 ((hleft c).2 hc)
  rw [Row.merge_of_some hv, hv]

end Expr

namespace Rule

variable {σ κ : Type} {ctx : RuleContext σ κ} {columns : Columns} {on : Scalar} {left right : Expr}
  {pl pr : LogicalProperties}

theorem yields_properties_of_ok {e : Expr} {p : LogicalProperties}
    (h : ctx.memo.derive (ctx.source columns) e = .ok p) :
    Yields (ctx.properties e) columns (fun q t => q = p ∧ t = columns) (fun _ _ => False) :=
  Yields.bind_get (Yields.of_lift (fun _ hq => ⟨Except.ok.inj (hq.symm.trans h), rfl⟩)
    fun _ he => nomatch he.symm.trans h)

theorem yields_output_of_ok {e : Expr} {p : LogicalProperties}
    (h : ctx.memo.derive (ctx.source columns) e = .ok p) :
    Yields (ctx.output e) columns (fun o t => o = p.output ∧ t = columns) (fun _ _ => False) :=
  (yields_properties_of_ok h).bind fun _ _ ⟨hq, ht⟩ => Yields.of_pure ⟨congrArg _ hq, ht⟩

/-- The rule answers a join with one row, unless it is known that there is none. -/
theorem run_semiJoinToInnerJoin (hl : ctx.memo.derive (ctx.source columns) left = .ok pl)
    (hr : ctx.memo.derive (ctx.source columns) right = .ok pr) :
    (semiJoinToInnerJoin.transform ctx (.join .leftSemi on left right)).run columns =
      (.ok (if pr.maxCardinality = .bounded 0 then [] else [.joinOneRow on left right pl.output]), columns) := by
  refine Yields.run_eq ((yields_properties_of_ok hr).bind ?_)
  rintro _ _ ⟨rfl, rfl⟩
  split
  · exact Yields.of_pure ⟨rfl, rfl⟩
  · refine (yields_output_of_ok hl).bind ?_
    rintro _ _ ⟨rfl, rfl⟩
    exact Yields.of_pure ⟨rfl, rfl⟩

/-- A semi join that does not look at the right rows has the rows of the join with any one of them. -/
theorem semiJoinToInnerJoin_preserves (S : Interpretation) {c : Catalog} {cs : Columns}
    (hsource : (ctx.source columns).logical = LogicalOp.properties c cs)
    (hgroups : (Expr.join .leftSemi on left right).GroupsFit S ctx.memo (ctx.source columns))
    (hl : ctx.memo.derive (ctx.source columns) left = .ok pl)
    (hr : ctx.memo.derive (ctx.source columns) right = .ok pr)
    (hon : ∀ c ∈ on.columns, c ∈ (left.meaning S).columns ∨ c ∉ (right.meaning S).columns) :
    (semiJoinToInnerJoin.transform ctx (.join .leftSemi on left right)).run columns =
        (.ok (if pr.maxCardinality = .bounded 0 then [] else [.joinOneRow on left right pl.output]), columns) ∧
      (Expr.joinOneRow on left right pl.output).meaning S = (Expr.join .leftSemi on left right).meaning S := by
  refine ⟨run_semiJoinToInnerJoin hl hr, ?_⟩
  rw [← Expr.columns_meaning hsource (hgroups.of_mem (List.mem_cons_self ..)) hl]
  exact Expr.meaning_joinOneRow hon

end Rule

section

def wantedIs2024 : Scalar := .binary (.column 1) .eq (.literal (.int32 2024))

theorem semiJoinToInnerJoin_preserves_wantedYear :
    let S := salesIn [.int32 2024, .int32 2024, .null]
    (Rule.semiJoinToInnerJoin.transform salesContext (.join .leftSemi wantedIs2024 wantedYear sales)).run
        salesColumns = (.ok [.joinOneRow wantedIs2024 wantedYear sales (.singleton 1)], salesColumns) ∧
      (Expr.joinOneRow wantedIs2024 wantedYear sales (.singleton 1)).meaning S =
        (Expr.join .leftSemi wantedIs2024 wantedYear sales).meaning S := by
  intro S
  have hclosed : (Expr.join .leftSemi wantedIs2024 wantedYear sales).Closed := by
    intro g hg
    simp [wantedYear, sales, Expr.join, Expr.ofLogical, Expr.subtrees, Expr.subtreesAll] at hg
  have hl : salesContext.memo.derive (salesContext.source salesColumns) wantedYear = .ok _ := rfl
  have hr : salesContext.memo.derive (salesContext.source salesColumns) sales = .ok _ := rfl
  refine Rule.semiJoinToInnerJoin_preserves S rfl hclosed.groupsFit hl hr fun c hc => .inl ?_
  obtain rfl : c = 1 := List.mem_singleton.1 hc
  exact List.mem_singleton.2 rfl

end

end Cascade
