import Cascade.Proofs.Rules.Alternatives
import Cascade.Proofs.Semantics.Products

/-!
Moving the conjuncts of a filter into the join below it does not change the rows.
-/

namespace Cascade

/-- Whether all predicates of a list hold. -/
def Scalar.holdsAll (F : Functions) (es : List Scalar) (b : Binding) : Bool := es.all (fun e => e.holds F b)

namespace Scalar

variable {F : Functions} {b : Binding}

theorem holds_conjunction_eq (es : List Scalar) : (conjunction es).holds F b = holdsAll F es b := by
  rw [Bool.eq_iff_iff, holds_conjunction, holdsAll, List.all_eq_true]

theorem holds_eq_holdsAll (e : Scalar) : e.holds F b = holdsAll F e.conjuncts b := by
  rw [Bool.eq_iff_iff, holds_iff_conjuncts, holdsAll, List.all_eq_true]

theorem holdsAll_append (es fs : List Scalar) :
    holdsAll F (es ++ fs) b = (holdsAll F es b && holdsAll F fs b) := List.all_append

/-- The members with a property hold, and so do the others. -/
theorem holdsAll_filter (q : Scalar → Bool) (es : List Scalar) :
    holdsAll F es b = (holdsAll F (es.filter q) b && holdsAll F (es.filter (fun e => !q e)) b) := by
  simp only [holdsAll, List.all_filter]
  induction es with
  | nil => rfl
  | cons e es ih =>
    rw [List.all_cons, List.all_cons, List.all_cons, ih]
    cases q e <;> cases e.holds F b <;> simp

theorem ignores_holdsAll {es : List Scalar} {hidden : ColumnSet} (h : ∀ e ∈ es, ∀ c ∈ e.columns, c ∉ hidden) :
    Ignores (holdsAll F es) hidden := by
  intro b b' hb
  induction es with
  | nil => rfl
  | cons e es ih =>
    have hhead : e.holds F b = e.holds F b' := Scalar.ignores_holds (h e (List.mem_cons_self ..)) b b' hb
    change (e.holds F b && holdsAll F es b) = (e.holds F b' && holdsAll F es b')
    rw [hhead, ih fun e he => h e (List.mem_cons_of_mem _ he)]

end Scalar

theorem Relation.filter_holdsAll_nil (F : Functions) (R : Relation) : R.filter (Scalar.holdsAll F []) = R :=
  R.filter_true

namespace Expr

variable {S : Interpretation}

/-- The relations that stand for the groups an expression refers to have the derived columns. -/
def GroupsFit {σ κ : Type} (S : Interpretation) (m : Memo σ κ) (source : PropertySource σ) (e : Expr) : Prop :=
  ∀ g, .group g ∈ e.subtrees → ∀ p, m.derive source (.group g) = .ok p → (S.group g).columns = p.output

theorem GroupsFit.of_mem {σ κ : Type} {m : Memo σ κ} {source : PropertySource σ} {op : Operator}
    {inputs : List Expr} (h : (node op inputs).GroupsFit S m source) {e : Expr} (he : e ∈ inputs) :
    e.GroupsFit S m source := fun g hg => h g ((mem_subtrees_node op inputs).2 (.inr ⟨e, he, hg⟩))

theorem Closed.groupsFit {σ κ : Type} {m : Memo σ κ} {source : PropertySource σ} {e : Expr} (h : e.Closed) :
    e.GroupsFit S m source := fun g hg => absurd hg (h g)

/-- Two expressions have no column in common. -/
def Apart (S : Interpretation) (l r : Expr) : Prop := ∀ c ∈ (l.meaning S).columns, c ∉ (r.meaning S).columns

theorem meaning_selectAll (es : List Scalar) (e : Expr) :
    (selectAll es e).meaning S = (e.meaning S).filter (Scalar.holdsAll S.toFunctions es) := by
  unfold selectAll
  split
  · rename_i h
    rw [List.isEmpty_iff.1 h]
    exact (Relation.filter_true _).symm
  · exact (meaning_select ..).trans (Relation.filter_congr fun b => Scalar.holds_conjunction_eq es)

theorem meaning_innerJoin (on : Scalar) (l r : Expr) :
    (join .inner on l r).meaning S =
      ((l.meaning S).times (r.meaning S)).filter (Scalar.holdsAll S.toFunctions on.conjuncts) := by
  rw [join, meaning_join, Relation.join_inner]
  exact Relation.filter_congr fun b => Scalar.holds_eq_holdsAll on

/-- The condition of an inner join is what all its conjuncts say. -/
theorem meaning_innerJoin_conjunction (es : List Scalar) (l r : Expr) :
    (join .inner (Scalar.conjunction es) l r).meaning S =
      ((l.meaning S).times (r.meaning S)).filter (Scalar.holdsAll S.toFunctions es) := by
  rw [join, meaning_join, Relation.join_inner]
  exact Relation.filter_congr fun b => Scalar.holds_conjunction_eq es

end Expr

namespace Rule

/-- Every conjunct of a filter goes to one place: left or right if only columns of that side are mentioned
and the join keeps the rows of that side, into the condition of an inner join if it mentions columns of the
inputs only. -/
structure Placed (type : JoinType) (left right : ColumnSet) (filter : Scalar) (parts : FilterParts) : Prop where
  mem : ∀ e, e ∈ filter.conjuncts ↔ e ∈ parts.left ∨ e ∈ parts.right ∨ e ∈ parts.join ∨ e ∈ parts.remaining
  left_columns : ∀ e ∈ parts.left, ∀ c ∈ e.columns, c ∈ left
  right_columns : ∀ e ∈ parts.right, ∀ c ∈ e.columns, c ∈ right
  join_columns : ∀ e ∈ parts.join, ∀ c ∈ e.columns, c ∈ left ∪ right
  left_nil : type = .rightOuter → parts.left = []
  right_nil : type ≠ .inner → type ≠ .rightOuter → parts.right = []
  join_nil : type ≠ .inner → parts.join = []

theorem placed_splitFilter (type : JoinType) (left right : ColumnSet) (filter : Scalar) :
    Placed type left right filter (splitFilter type left right filter) := by
  have hfilter : ∀ (q : Scalar → Bool) (l : List Scalar) e, e ∈ l ↔ e ∈ l.filter q ∨ e ∈ l.filter (not ∘ q) := by
    intro q l e
    rw [List.mem_filter, List.mem_filter, ← and_or_left, Function.comp_apply, Bool.not_eq_true']
    exact (and_iff_left (Bool.eq_false_or_eq_true _)).symm
  have hcolumns : ∀ {b : Bool} {columns : ColumnSet} {l : List Scalar},
      ∀ e ∈ l.filter (fun e => b && e.columns.subset columns), ∀ c ∈ e.columns, c ∈ columns :=
    fun e he => SortedSet.subset_iff.1 (Bool.and_eq_true_iff.1 (List.mem_filter.1 he).2).2
  unfold splitFilter
  simp only [List.partition_eq_filter_filter]
  refine ⟨fun e => ?_, hcolumns, hcolumns, hcolumns, fun htype => ?_, fun hinner houter => ?_, fun hinner => ?_⟩
  · exact (hfilter _ _ e).trans (or_congr_right ((hfilter _ _ e).trans (or_congr_right (hfilter _ _ e))))
  · simp [htype]
  · simp [hinner, houter]
  · simp [hinner]

namespace Placed

variable {S : Interpretation} {type : JoinType} {L R : Relation} {filter : Scalar} {parts : FilterParts}

theorem holds (h : Placed type L.columns R.columns filter parts) (F : Functions) (b : Binding) :
    filter.holds F b = (Scalar.holdsAll F parts.left b && (Scalar.holdsAll F parts.right b &&
      (Scalar.holdsAll F parts.join b && Scalar.holdsAll F parts.remaining b))) := by
  rw [Bool.eq_iff_iff, Scalar.holds_iff_conjuncts]
  simp only [h.mem, or_imp, forall_and, Bool.and_eq_true, Scalar.holdsAll, List.all_eq_true]

theorem ignores_left (h : Placed type L.columns R.columns filter parts) :
    Ignores (Scalar.holdsAll S.toFunctions parts.left) (R.columns \ L.columns) :=
  Scalar.ignores_holdsAll fun e he c hc hdiff => (SortedSet.mem_diff.1 hdiff).2 (h.left_columns e he c hc)

theorem ignores_right (h : Placed type L.columns R.columns filter parts)
    (hdisjoint : ∀ c ∈ L.columns, c ∉ R.columns) :
    Ignores (Scalar.holdsAll S.toFunctions parts.right) L.columns :=
  Scalar.ignores_holdsAll fun e he c hc hcl => hdisjoint c hcl (h.right_columns e he c hc)

/-- The condition of a join that takes no conjuncts keeps its truth value, also where it is unknown. -/
theorem truth_on (h : Placed type L.columns R.columns filter parts) (htype : type ≠ .inner) (on : Scalar) :
    (fun b => (Scalar.conjunction (on.conjuncts ++ parts.join)).truth S.toFunctions b) =
      fun b => on.truth S.toFunctions b := by
  rw [h.join_nil htype, List.append_nil]
  exact funext fun b => Scalar.truth_conjunction_conjuncts on

/-- The join of the filtered inputs is the filtered join. -/
theorem join_filter (h : Placed type L.columns R.columns filter parts)
    (hdisjoint : ∀ c ∈ L.columns, c ∉ R.columns) (on : Scalar) :
    (L.filter (Scalar.holdsAll S.toFunctions parts.left)).join type
        (fun b => (Scalar.conjunction (on.conjuncts ++ parts.join)).truth S.toFunctions b)
        (R.filter (Scalar.holdsAll S.toFunctions parts.right)) =
      (((L.join type (fun b => on.truth S.toFunctions b) R).filter
        (Scalar.holdsAll S.toFunctions parts.left)).filter
        (Scalar.holdsAll S.toFunctions parts.right)).filter (Scalar.holdsAll S.toFunctions parts.join) := by
  by_cases hinner : type = .inner
  · subst hinner
    have hcondition : ∀ b, decide ((Scalar.conjunction (on.conjuncts ++ parts.join)).truth S.toFunctions b = some true) =
        (decide (on.truth S.toFunctions b = some true) && Scalar.holdsAll S.toFunctions parts.join b) := fun b => by
      change (Scalar.conjunction _).holds S.toFunctions b = (on.holds S.toFunctions b && _)
      rw [Scalar.holds_conjunction_eq, Scalar.holdsAll_append, ← Scalar.holds_eq_holdsAll]
    have htimes := Relation.times_filter (L := L.filter (Scalar.holdsAll S.toFunctions parts.left)) (R := R)
      (h.ignores_right (S := S) hdisjoint)
    rw [Relation.join_inner, Relation.join_inner, htimes, Relation.filter_times h.ignores_left,
      Relation.filter_congr hcondition]
    simp only [Relation.filter_filter]
    refine Relation.filter_congr fun b => ?_
    ac_rfl
  · rw [h.truth_on hinner]
    by_cases houter : type = .rightOuter
    · subst houter
      simp only [h.left_nil rfl, h.join_nil hinner, Relation.filter_holdsAll_nil]
      exact Relation.filter_join_right _ (h.ignores_right hdisjoint)
    · simp only [h.right_nil hinner houter, h.join_nil hinner, Relation.filter_holdsAll_nil]
      exact Relation.filter_join_left houter _ h.ignores_left

end Placed

variable {σ κ : Type} {ctx : RuleContext σ κ} {columns after : Columns} {e : Expr} {alternatives : List Expr}

/-- The alternatives of a filter over a join have its rows, whatever type the join has and wherever the conjuncts
of the filter go. -/
theorem pushSelectIntoJoin_preserves (S : Interpretation) {c : Catalog} {cs : Columns}
    (hsource : (ctx.source columns).logical = LogicalOp.properties c cs)
    (hgroups : e.GroupsFit S ctx.memo (ctx.source columns))
    (hdisjoint : ((pushSelectIntoJoin : Rule σ κ).pattern.leaves e).Pairwise (Expr.Apart S))
    (hrun : (pushSelectIntoJoin.transform ctx e).run columns = (.ok alternatives, after)) :
    ∀ x ∈ alternatives, x.meaning S = e.meaning S := by
  intro x hx
  obtain ⟨filter, type, on, left, right, pl, pr, rfl, hl, hr, rfl⟩ := of_pushSelectIntoJoin hrun x hx
  have hjoin : (Expr.join type on left right).GroupsFit S ctx.memo (ctx.source columns) :=
    hgroups.of_mem (List.mem_singleton.2 rfl)
  have hleft : (left.meaning S).columns = pl.output :=
    Expr.columns_meaning hsource (hjoin.of_mem (List.mem_cons_self ..)) hl
  have hright : (right.meaning S).columns = pr.output :=
    Expr.columns_meaning hsource (hjoin.of_mem (List.mem_cons_of_mem _ (List.mem_singleton.2 rfl))) hr
  have hapart : Expr.Apart S left right := (List.pairwise_cons.1 hdisjoint).1 right (List.mem_singleton.2 rfl)
  have hplaced := placed_splitFilter type (left.meaning S).columns (right.meaning S).columns filter
  rw [← hleft, ← hright, Expr.meaning_selectAll, Expr.join, Expr.meaning_join, Expr.meaning_selectAll,
    Expr.meaning_selectAll, hplaced.join_filter hapart, Expr.select, Expr.meaning_select, Expr.join,
    Expr.meaning_join, Relation.filter_congr (hplaced.holds S.toFunctions)]
  simp only [Relation.filter_filter]
  refine Relation.filter_congr fun b => ?_
  ac_rfl

end Rule

section

/-- Only the conjunct over the left column goes below an outer join. -/
def salesOfYear : Expr :=
  .select (.and (.binary (.column 1) .eq (.literal (.int32 2024))) (.binary (.column 2) .eq (.literal (.int32 2025))))
    (.join .leftOuter isWanted wantedYear sales)

theorem pushSelectIntoJoin_preserves_salesOfYear :
    let S := salesIn [.int32 2024, .int32 2025]
    let pushed : Expr := .select (.binary (.column 2) .eq (.literal (.int32 2025)))
      (.join .leftOuter isWanted (.select (.binary (.column 1) .eq (.literal (.int32 2024))) wantedYear) sales)
    (Rule.pushSelectIntoJoin.transform salesContext salesOfYear).run salesColumns = (.ok [pushed], salesColumns) ∧
      pushed.meaning S = salesOfYear.meaning S := by
  intro S pushed
  have hrun : (Rule.pushSelectIntoJoin.transform salesContext salesOfYear).run salesColumns =
      (.ok [pushed], salesColumns) := rfl
  have hclosed : salesOfYear.Closed := by
    intro g hg
    simp [salesOfYear, wantedYear, sales, Expr.select, Expr.join, Expr.ofLogical, Expr.subtrees,
      Expr.subtreesAll] at hg
  have hapart : Expr.Apart S wantedYear sales := by
    intro c hc hc'
    obtain rfl := List.mem_singleton.1 hc
    exact absurd (List.mem_singleton.1 hc') (by decide)
  have hdisjoint : ((Rule.pushSelectIntoJoin : Rule Unit Nat).pattern.leaves salesOfYear).Pairwise (Expr.Apart S) :=
    List.pairwise_pair.2 hapart
  exact ⟨hrun, Rule.pushSelectIntoJoin_preserves S rfl hclosed.groupsFit hdisjoint hrun pushed
    (List.mem_singleton.2 rfl)⟩

end

end Cascade
