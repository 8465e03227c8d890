import Cascade.Proofs.Semantics.Elimination
import Cascade.Rule.Exploration

/-!
What exploration rules answer: the form of the expression a rule was applied to, what was derived for its
inputs, and the alternative.
-/

namespace Cascade

namespace Pattern

mutual

/-- The parts of an expression that a pattern leaves open. -/
def leaves : Pattern → Expr → List Expr
  | operator _ inputs, e => leavesAll inputs e.inputs
  | _, e => [e]

def leavesAll : List Pattern → List Expr → List Expr
  | [.multiLeaf], es => es
  | p :: ps, e :: es => p.leaves e ++ leavesAll ps es
  | _, _ => []

end

mutual

/-- The parts of an expression whose operators a pattern names, from the top. -/
def levels : Pattern → Expr → List Expr
  | operator _ inputs, e => e :: levelsAll inputs e.inputs
  | _, _ => []

def levelsAll : List Pattern → List Expr → List Expr
  | p :: ps, e :: es => p.levels e ++ levelsAll ps es
  | _, _ => []

end

end Pattern

namespace Rule

variable {σ κ : Type} {ctx : RuleContext σ κ} {columns after : Columns} {e : Expr} {alternatives : List Expr}

theorem yields_output (e : Expr) : Yields (ctx.output e) columns
    (fun c t => t = columns ∧ ∃ p, ctx.memo.derive (ctx.source columns) e = .ok p ∧ c = p.output)
    (fun _ _ => True) :=
  (yields_properties e).bind fun p _ ⟨ht, hp⟩ => Yields.of_pure ⟨ht, p, hp, rfl⟩

/-- What every alternative of a run satisfies. -/
theorem of_run {rule : Rule σ κ} {P : Expr → Prop}
    (h : Yields (rule.transform ctx e) columns (fun l _ => ∀ x ∈ l, P x) (fun _ _ => True))
    (hrun : (rule.transform ctx e).run columns = (.ok alternatives, after)) : ∀ x ∈ alternatives, P x :=
  h.of_ok hrun

theorem of_mem_swapJoin {before type : JoinType} {x : Expr} (h : x ∈ swapJoin before type e) :
    ∃ on l r, e = .join before on l r ∧ x = .join type on r l := by
  unfold swapJoin at h
  split at h
  · split at h
    · rename_i on l r htype
      obtain rfl := htype
      exact ⟨on, l, r, rfl, List.mem_singleton.1 h⟩
    · cases h
  · cases h

theorem of_joinCommutativity (hrun : (joinCommutativity.transform ctx e).run columns = (.ok alternatives, after)) :
    ∀ x ∈ alternatives, ∃ on l r, e = .join .inner on l r ∧ x = .join .inner on r l := by
  refine of_run ?_ hrun
  exact Yields.of_pure fun x hx => of_mem_swapJoin hx

theorem of_leftJoinToRightJoin
    (hrun : (leftJoinToRightJoin.transform ctx e).run columns = (.ok alternatives, after)) :
    ∀ x ∈ alternatives, ∃ on l r, e = .join .leftOuter on l r ∧ x = .join .rightOuter on r l := by
  refine of_run ?_ hrun
  exact Yields.of_pure fun x hx => of_mem_swapJoin hx

theorem splitByColumns_eq (columns : ColumnSet) (l : List Scalar) :
    splitByColumns columns l =
      (l.filter (fun e => e.columns.subset columns), l.filter (fun e => !e.columns.subset columns)) :=
  List.partition_eq_filter_filter ..

/-- Three inputs are regrouped so that the lower join takes the conjuncts over its inputs. -/
theorem of_joinAssociativity (hrun : (joinAssociativity.transform ctx e).run columns = (.ok alternatives, after)) :
    ∀ x ∈ alternatives, ∃ top bottom a b c pb pc,
      e = .join .inner top (.join .inner bottom a b) c ∧
      ctx.memo.derive (ctx.source columns) b = .ok pb ∧ ctx.memo.derive (ctx.source columns) c = .ok pc ∧
      x = .join .inner
        (Scalar.conjunction ((bottom.conjuncts ++ top.conjuncts).filter
          (fun e => !e.columns.subset (pb.output ∪ pc.output)))) a
        (.join .inner (Scalar.conjunction ((bottom.conjuncts ++ top.conjuncts).filter
          (fun e => e.columns.subset (pb.output ∪ pc.output)))) b c) := by
  refine of_run ?_ hrun
  unfold joinAssociativity
  dsimp only
  split
  · rename_i top bottom a b c
    refine (yields_output b).bind ?_
    rintro _ _ ⟨rfl, pb, hb, rfl⟩
    refine (yields_output c).bind ?_
    rintro _ _ ⟨rfl, pc, hc, rfl⟩
    refine Yields.of_pure fun x hx => ⟨top, bottom, a, b, c, pb, pc, rfl, hb, hc, ?_⟩
    rw [regroup, splitByColumns_eq] at hx
    dsimp only at hx
    split at hx
    · cases hx
    · exact List.mem_singleton.1 hx
  · exact Yields.of_pure fun _ h => absurd h List.not_mem_nil

/-- The inputs are joined one by one to a tree with some columns, every conjunct as low as its columns allow. -/
inductive LeftDeep (produces : Expr → ColumnSet → Prop) :
    Expr → ColumnSet → List Scalar → List Expr → Expr → Prop
  | last (tree : Expr) (columns : ColumnSet) (conjuncts : List Scalar) (input : Expr) :
    LeftDeep produces tree columns conjuncts [input] (.join .inner (Scalar.conjunction conjuncts) tree input)
  | step {tree input next x : Expr} {columns own : ColumnSet} {conjuncts : List Scalar} {rest : List Expr}
    (hinput : produces input own)
    (h : LeftDeep produces
      (.join .inner (Scalar.conjunction (conjuncts.filter (fun e => e.columns.subset (columns ∪ own)))) tree input)
      (columns ∪ own) (conjuncts.filter (fun e => !e.columns.subset (columns ∪ own))) (next :: rest) x) :
    LeftDeep produces tree columns conjuncts (input :: next :: rest) x

theorem LeftDeep.exists_join {produces : Expr → ColumnSet → Prop} {tree x : Expr} {own : ColumnSet}
    {conjuncts : List Scalar} {inputs : List Expr} (h : LeftDeep produces tree own conjuncts inputs x) :
    ∃ on l r, x = .join .inner on l r := by
  induction h with
  | last tree _ _ input => exact ⟨_, tree, input, rfl⟩
  | step _ _ ih => exact ih

/-- The derived columns of an expression. -/
def Produces (ctx : RuleContext σ κ) (columns : Columns) (e : Expr) (own : ColumnSet) : Prop :=
  ∃ p, ctx.memo.derive (ctx.source columns) e = .ok p ∧ own = p.output

theorem yields_leftDeep (tree input : Expr) (own : ColumnSet) (conjuncts : List Scalar) (rest : List Expr) :
    Yields (leftDeep ctx tree own conjuncts (input :: rest)) columns
      (fun x t => t = columns ∧ LeftDeep (Produces ctx columns) tree own conjuncts (input :: rest) x)
      (fun _ _ => True) := by
  induction rest generalizing tree input own conjuncts with
  | nil => exact (yields_output input).bind fun _ _ ⟨ht, _⟩ => Yields.of_pure ⟨ht, .last ..⟩
  | cons next rest ih =>
    refine (yields_output input).bind ?_
    rintro c _ ⟨rfl, hinput⟩
    dsimp only
    rw [splitByColumns_eq]
    exact (ih ..).mono (fun x t ⟨ht, h⟩ => ⟨ht, .step hinput h⟩) fun _ _ _ => trivial

/-- A join of one input is a filter, one of several inputs a left-deep tree. -/
theorem of_expandNAryJoin (hrun : (expandNAryJoin.transform ctx e).run columns = (.ok alternatives, after)) :
    ∀ x ∈ alternatives,
      (∃ on only, e = .ofLogical (.naryJoin on) [only] ∧ x = .select (Scalar.conjunction on.conjuncts) only) ∨
      ∃ on first next rest p, e = .ofLogical (.naryJoin on) (first :: next :: rest) ∧
        ctx.memo.derive (ctx.source columns) first = .ok p ∧
        LeftDeep (Produces ctx columns) first p.output on.conjuncts (next :: rest) x := by
  refine of_run ?_ hrun
  unfold expandNAryJoin
  dsimp only
  split
  · rename_i on only
    exact Yields.of_pure fun x hx => .inl ⟨on, only, rfl, List.mem_singleton.1 hx⟩
  · rename_i on first rest hrest
    refine (yields_output first).bind ?_
    rintro _ _ ⟨rfl, p, hp, rfl⟩
    cases rest with
    | nil => exact absurd rfl hrest
    | cons next rest =>
      refine (yields_leftDeep first next p.output on.conjuncts rest).bind ?_
      rintro tree _ ⟨rfl, htree⟩
      refine Yields.of_pure fun x hx => .inr ⟨on, first, next, rest, p, rfl, hp, ?_⟩
      exact List.mem_singleton.1 hx ▸ htree
  · exact Yields.of_pure fun _ h => absurd h List.not_mem_nil

/-- The conjuncts of a filter move to the inputs of a join and into its condition. -/
theorem of_pushSelectIntoJoin (hrun : (pushSelectIntoJoin.transform ctx e).run columns = (.ok alternatives, after)) :
    ∀ x ∈ alternatives, ∃ filter type on left right pl pr,
      e = .select filter (.join type on left right) ∧
      ctx.memo.derive (ctx.source columns) left = .ok pl ∧ ctx.memo.derive (ctx.source columns) right = .ok pr ∧
      x = .selectAll (splitFilter type pl.output pr.output filter).remaining
        (.join type
          (Scalar.conjunction (on.conjuncts ++ (splitFilter type pl.output pr.output filter).join))
          (.selectAll (splitFilter type pl.output pr.output filter).left left)
          (.selectAll (splitFilter type pl.output pr.output filter).right right)) := by
  refine of_run ?_ hrun
  unfold pushSelectIntoJoin
  dsimp only
  split
  · rename_i filter type on left right
    refine (yields_output left).bind ?_
    rintro _ _ ⟨rfl, pl, hl, rfl⟩
    refine (yields_output right).bind ?_
    rintro _ _ ⟨rfl, pr, hr, rfl⟩
    split
    · exact Yields.of_pure fun _ h => absurd h List.not_mem_nil
    · exact Yields.of_pure fun x hx =>
        ⟨filter, type, on, left, right, pl, pr, rfl, hl, hr, List.mem_singleton.1 hx⟩
  · exact Yields.of_pure fun _ h => absurd h List.not_mem_nil

theorem of_applyToJoin (hrun : (applyToJoin.transform ctx e).run columns = (.ok alternatives, after)) :
    ∀ x ∈ alternatives, ∃ type on left right pl pr, e = .ofLogical (.apply type on) [left, right] ∧
      ctx.memo.derive (ctx.source columns) left = .ok pl ∧ ctx.memo.derive (ctx.source columns) right = .ok pr ∧
      (∀ c ∈ pr.outerRefs, c ∉ pl.output) ∧ x = .join type.joinType on left right := by
  refine of_run ?_ hrun
  unfold applyToJoin
  dsimp only
  split
  · rename_i type on left right
    refine (yields_output left).bind ?_
    rintro _ _ ⟨rfl, pl, hl, rfl⟩
    refine (yields_properties right).bind ?_
    rintro pr _ ⟨rfl, hr⟩
    split
    · rename_i hdisjoint
      exact Yields.of_pure fun x hx =>
        ⟨type, on, left, right, pl, pr, rfl, hl, hr, SortedSet.disjoint_iff.1 hdisjoint, List.mem_singleton.1 hx⟩
    · exact Yields.of_pure fun _ h => absurd h List.not_mem_nil
  · exact Yields.of_pure fun _ h => absurd h List.not_mem_nil

/-- A semi join becomes a join with one row of the right input. -/
theorem of_semiJoinToInnerJoin (hrun : (semiJoinToInnerJoin.transform ctx e).run columns = (.ok alternatives, after)) :
    ∀ x ∈ alternatives, ∃ on left right pl, e = .join .leftSemi on left right ∧
      ctx.memo.derive (ctx.source columns) left = .ok pl ∧
      x = .ofLogical (.project (pl.output.toList.map (fun c => (c, .column c))))
        [.join .inner on left (.ofLogical (.limit ⟨0, some 1, .none⟩) [right])] := by
  refine of_run ?_ hrun
  unfold semiJoinToInnerJoin
  dsimp only
  split
  · rename_i on left right
    refine (yields_properties right).bind ?_
    rintro pr _ ⟨rfl, -⟩
    split
    · exact Yields.of_pure fun _ h => absurd h List.not_mem_nil
    · refine (yields_output left).bind ?_
      rintro _ _ ⟨rfl, pl, hl, rfl⟩
      exact Yields.of_pure fun x hx => ⟨on, left, right, pl, rfl, hl, List.mem_singleton.1 hx⟩
  · exact Yields.of_pure fun _ h => absurd h List.not_mem_nil

/-- The calls that combine partial results give the columns of those they stand for. -/
theorem yields_splitCalls_columns {calls : List (ColumnId × AggregateCall)}
    (hcalls : ∀ x ∈ calls, x.2.isSplittable = true) (columns : Columns) :
    Yields (splitCalls calls) columns (fun r _ => r.2.map Prod.fst = calls.map Prod.fst) (fun _ _ => True) := by
  induction calls generalizing columns with
  | nil => exact Yields.of_pure rfl
  | cons x calls ih =>
    obtain ⟨id, call⟩ := x
    obtain ⟨hcall, hcalls⟩ := List.forall_mem_cons.1 hcalls
    obtain ⟨combiner, hcombiner⟩ := Option.isSome_iff_exists.1 (Bool.and_eq_true_iff.1 hcall).2
    unfold splitCalls
    rw [hcombiner]
    refine (Yields.any _ _).bind fun r t _ => ?_
    exact (ih hcalls t).bind fun rest _ hrest => Yields.of_pure (congrArg (id :: ·) hrest)

/-- An aggregation is made of partial results and their combination. -/
theorem of_splitAggregate (hrun : (splitAggregate.transform ctx e).run columns = (.ok alternatives, after)) :
    ∀ x ∈ alternatives, ∃ (a : Aggregation) (input : Expr) (partials combined : List (ColumnId × AggregateCall)),
      e = .ofLogical (.aggregate a) [input] ∧ combined.map Prod.fst = a.aggregates.map Prod.fst ∧
      x = .ofLogical (.aggregate ⟨a.groupBy, combined, .globalStage⟩)
        [.ofLogical (.aggregate ⟨a.groupBy, partials, .localStage⟩) [input]] := by
  refine of_run ?_ hrun
  unfold splitAggregate
  dsimp only
  split
  · rename_i a input
    split
    · exact Yields.of_pure fun _ h => absurd h List.not_mem_nil
    · rename_i hsplittable
      simp only [Bool.not_eq_true', Bool.not_eq_false, isSplittable, Bool.and_eq_true, List.all_eq_true] at hsplittable
      refine (yields_splitCalls_columns (fun x hx => (hsplittable.2 x hx).1.1) columns).bind ?_
      rintro ⟨partials, combined⟩ _ hcolumns
      exact Yields.of_pure fun x hx => ⟨a, input, partials, combined, rfl, hcolumns, List.mem_singleton.1 hx⟩
  · exact Yields.of_pure fun _ h => absurd h List.not_mem_nil

end Rule
end Cascade
