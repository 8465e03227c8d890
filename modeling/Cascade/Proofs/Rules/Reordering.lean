import Cascade.Proofs.Rules.Derivation
import Cascade.Proofs.Rules.Pushdown

/-!
Joins in another order have the same rows.
-/

namespace Cascade

namespace Rule

variable {σ κ : Type} {ctx : RuleContext σ κ} {columns : Columns} {S : Interpretation}

/-- Three inputs regrouped, if the lower condition does not mention columns of the third one. -/
theorem meaning_regroup {a b c : Expr} {bottom top : Scalar} (hab : Expr.Apart S a b) (hac : Expr.Apart S a c)
    (hbottom : ∀ x ∈ bottom.columns, x ∈ (c.meaning S).columns →
      x ∈ (a.meaning S).columns ∨ x ∈ (b.meaning S).columns) (q : Scalar → Bool)
    (hlower : ∀ e, q e = true → ∀ x ∈ e.columns, x ∈ (b.meaning S).columns ∨ x ∈ (c.meaning S).columns) :
    (Expr.join .inner (Scalar.conjunction ((bottom.conjuncts ++ top.conjuncts).filter (fun e => !q e))) a
        (.join .inner (Scalar.conjunction ((bottom.conjuncts ++ top.conjuncts).filter q)) b c)).meaning S =
      (Expr.join .inner top (.join .inner bottom a b) c).meaning S := by
  have hbelow : Ignores (Scalar.holdsAll S.toFunctions bottom.conjuncts)
      ((c.meaning S).columns \ ((a.meaning S).times (b.meaning S)).columns) := by
    refine Scalar.ignores_holdsAll fun e he x hx hdiff => ?_
    obtain ⟨hxc, hxab⟩ := SortedSet.mem_diff.1 hdiff
    exact hxab (SortedSet.mem_union.2 (hbottom x (Scalar.columns_subset_of_mem_conjuncts he x hx) hxc))
  have hlower : Ignores (Scalar.holdsAll S.toFunctions ((bottom.conjuncts ++ top.conjuncts).filter q))
      (a.meaning S).columns := by
    refine Scalar.ignores_holdsAll fun e he x hx hxa => ?_
    exact (hlower e (List.mem_filter.1 he).2 x hx).elim (hab x hxa) (hac x hxa)
  rw [Expr.meaning_innerJoin_conjunction, Expr.meaning_innerJoin_conjunction, Expr.meaning_innerJoin,
    Expr.meaning_innerJoin, Relation.times_filter hlower, Relation.filter_times hbelow, Relation.times_assoc,
    Relation.filter_filter, Relation.filter_filter]
  refine Relation.filter_congr fun b => ?_
  rw [← Scalar.holdsAll_filter, Scalar.holdsAll_append]

/-- The joins of a left-deep tree make all pairs and check all conjuncts. -/
theorem LeftDeep.meaning_eq {tree x : Expr} {own : ColumnSet} {conjuncts : List Scalar} {inputs : List Expr}
    {produces : Expr → ColumnSet → Prop} (h : LeftDeep produces tree own conjuncts inputs x)
    (hproduces : ∀ e ∈ inputs, ∀ own, produces e own → (e.meaning S).columns = own)
    (htree : (tree.meaning S).columns = own) :
    x.meaning S = ((tree.meaning S).times (Relation.product (inputs.map (Expr.meaning S)))).filter
      (Scalar.holdsAll S.toFunctions conjuncts) := by
  induction h with
  | last tree columns conjuncts input =>
    rw [Expr.meaning_innerJoin_conjunction]
    exact congrArg (fun R => (Relation.times _ R).filter _) (Relation.times_unit _).symm
  | @step tree input next x own own' conjuncts rest hinput _ ih =>
    have hcolumns : ((tree.meaning S).times (input.meaning S)).columns = own ∪ own' :=
      congrArg₂ (· ∪ ·) htree (hproduces input (List.mem_cons_self ..) own' hinput)
    have hplaced : Ignores
        (Scalar.holdsAll S.toFunctions (conjuncts.filter (fun e => e.columns.subset (own ∪ own'))))
        ((Relation.product ((next :: rest).map (Expr.meaning S))).columns \
          ((tree.meaning S).times (input.meaning S)).columns) := by
      refine Scalar.ignores_holdsAll fun e he x hx hdiff => (SortedSet.mem_diff.1 hdiff).2 ?_
      rw [hcolumns]
      exact SortedSet.subset_iff.1 (List.mem_filter.1 he).2 x hx
    have hjoined := ih (fun e he => hproduces e (List.mem_cons_of_mem _ he)) hcolumns
    rw [hjoined, Expr.meaning_innerJoin_conjunction, Relation.filter_times hplaced, Relation.times_assoc,
      Relation.filter_filter]
    exact Relation.filter_congr fun b => (Scalar.holdsAll_filter _ _).symm

section

variable {after : Columns} {e : Expr} {alternatives : List Expr} {c : Catalog} {cs : Columns}

theorem meaning_of_joinCommutativity
    (hdisjoint : ((joinCommutativity : Rule σ κ).pattern.leaves e).Pairwise (Expr.Apart S))
    (hrun : (joinCommutativity.transform ctx e).run columns = (.ok alternatives, after)) :
    ∀ x ∈ alternatives, x.meaning S = e.meaning S := by
  intro x hx
  obtain ⟨on, l, r, rfl, rfl⟩ := of_joinCommutativity hrun x hx
  have hapart : Expr.Apart S l r := (List.pairwise_cons.1 hdisjoint).1 r (List.mem_singleton.2 rfl)
  rw [Expr.meaning_innerJoin, Expr.meaning_innerJoin, Relation.times_comm hapart]

theorem meaning_of_leftJoinToRightJoin
    (hdisjoint : ((leftJoinToRightJoin : Rule σ κ).pattern.leaves e).Pairwise (Expr.Apart S))
    (hrun : (leftJoinToRightJoin.transform ctx e).run columns = (.ok alternatives, after)) :
    ∀ x ∈ alternatives, x.meaning S = e.meaning S := by
  intro x hx
  obtain ⟨on, l, r, rfl, rfl⟩ := of_leftJoinToRightJoin hrun x hx
  have hapart : Expr.Apart S l r := (List.pairwise_cons.1 hdisjoint).1 r (List.mem_singleton.2 rfl)
  rw [Expr.join, Expr.meaning_join, Expr.join, Expr.meaning_join, Relation.leftOuter_eq_rightOuter _ hapart]

theorem meaning_of_joinAssociativity (hsource : (ctx.source columns).logical = LogicalOp.properties c cs)
    (hgroups : e.GroupsFit S ctx.memo (ctx.source columns))
    (hdisjoint : ((joinAssociativity : Rule σ κ).pattern.leaves e).Pairwise (Expr.Apart S))
    (hlevels : ∀ l ∈ (joinAssociativity : Rule σ κ).pattern.levels e, l.Uncorrelated ctx.memo (ctx.source columns))
    (hrun : (joinAssociativity.transform ctx e).run columns = (.ok alternatives, after)) :
    ∀ x ∈ alternatives, x.meaning S = e.meaning S := by
  intro x hx
  obtain ⟨top, bottom, ea, eb, ec, pb, pc, rfl, hb, hc, rfl⟩ := of_joinAssociativity hrun x hx
  have hbelow : (Expr.join .inner bottom ea eb).GroupsFit S ctx.memo (ctx.source columns) :=
    hgroups.of_mem (List.mem_cons_self ..)
  have hcolumns : ∀ {i : Expr} {p : LogicalProperties}, i.GroupsFit S ctx.memo (ctx.source columns) →
      ctx.memo.derive (ctx.source columns) i = .ok p → (i.meaning S).columns = p.output :=
    fun hi hp => Expr.columns_meaning hsource hi hp
  have hbcolumns := hcolumns (hbelow.of_mem (List.mem_cons_of_mem _ (List.mem_singleton.2 rfl))) hb
  have hccolumns := hcolumns (hgroups.of_mem (List.mem_cons_of_mem _ (List.mem_singleton.2 rfl))) hc
  obtain ⟨ha, hrest⟩ := List.pairwise_cons.1 hdisjoint
  obtain ⟨pab, _, hab, hc', huncorrelated, -⟩ := (hlevels _ (List.mem_cons_self ..)).of_join
  obtain ⟨pa, _, ha', hb', -⟩ := (hlevels _ (List.mem_cons_of_mem _ (List.mem_cons_self ..))).of_join
  cases hb.symm.trans hb'
  cases hc.symm.trans hc'
  cases hab.symm.trans (Expr.derive_join hsource .inner bottom ha' hb)
  have hacolumns := hcolumns (hbelow.of_mem (List.mem_cons_self ..)) ha'
  refine meaning_regroup (ha eb (List.mem_cons_self ..)) (ha ec (List.mem_cons_of_mem _ (List.mem_singleton.2 rfl)))
    (fun y hy hyc => ?_) (fun e => e.columns.subset (pb.output ∪ pc.output)) fun f hf y hy => ?_
  · rw [hacolumns, hbcolumns]
    rw [hccolumns] at hyc
    by_contra hnot
    obtain ⟨hya, hyb⟩ := not_or.1 hnot
    exact huncorrelated y (Expr.mem_outerRefs_ofJoin hy hya hyb) hyc
  · rw [hbcolumns, hccolumns]
    exact SortedSet.mem_union.1 (SortedSet.subset_iff.1 hf y hy)

theorem meaning_of_expandNAryJoin (hsource : (ctx.source columns).logical = LogicalOp.properties c cs)
    (hgroups : e.GroupsFit S ctx.memo (ctx.source columns))
    (hrun : (expandNAryJoin.transform ctx e).run columns = (.ok alternatives, after)) :
    ∀ x ∈ alternatives, x.meaning S = e.meaning S := by
  intro x hx
  rcases of_expandNAryJoin hrun x hx with ⟨on, only, rfl, rfl⟩ | ⟨on, first, next, rest, p, rfl, hp, htree⟩
  · rw [Expr.select, Expr.meaning_select, Expr.meaning_naryJoin]
    change _ = ((only.meaning S).times .unit).filter _
    rw [Relation.times_unit]
    refine Relation.filter_congr fun b => ?_
    rw [Scalar.holds_conjunction_eq, ← Scalar.holds_eq_holdsAll]
  · have hcolumns : ∀ i ∈ first :: next :: rest, ∀ p, ctx.memo.derive (ctx.source columns) i = .ok p →
        (i.meaning S).columns = p.output := fun i hi _ => Expr.columns_meaning hsource (hgroups.of_mem hi)
    have hproduces : ∀ i ∈ next :: rest, ∀ own, Produces ctx columns i own → (i.meaning S).columns = own := by
      rintro i hi _ ⟨p, hp, rfl⟩
      exact hcolumns i (List.mem_cons_of_mem _ hi) p hp
    rw [htree.meaning_eq hproduces (hcolumns first (List.mem_cons_self ..) p hp), Expr.meaning_naryJoin]
    exact Relation.filter_congr fun b => (Scalar.holds_eq_holdsAll on).symm

/-- Whatever rule changes the order of a join, its rows stay the same. -/
theorem reordering_preserves (S : Interpretation) {rule : Rule σ κ}
    (hrule : rule ∈ [joinCommutativity, joinAssociativity, expandNAryJoin, leftJoinToRightJoin])
    (hsource : (ctx.source columns).logical = LogicalOp.properties c cs)
    (hgroups : e.GroupsFit S ctx.memo (ctx.source columns))
    (hdisjoint : (rule.pattern.leaves e).Pairwise (Expr.Apart S))
    (hlevels : ∀ l ∈ rule.pattern.levels e, l.Uncorrelated ctx.memo (ctx.source columns))
    (hrun : (rule.transform ctx e).run columns = (.ok alternatives, after)) :
    ∀ x ∈ alternatives, x.meaning S = e.meaning S := by
  simp only [List.mem_cons, List.not_mem_nil, or_false] at hrule
  obtain rfl | rfl | rfl | rfl := hrule
  · exact meaning_of_joinCommutativity hdisjoint hrun
  · exact meaning_of_joinAssociativity hsource hgroups hdisjoint hlevels hrun
  · exact meaning_of_expandNAryJoin hsource hgroups hrun
  · exact meaning_of_leftJoinToRightJoin hdisjoint hrun

end

end Rule

section

def openYears : Expr := .ofLogical (.values ⟨[3], [[.int32 2024], [.int32 2025]]⟩) []

def isOpen : Scalar := .binary (.column 2) .eq (.column 3)

def openSales : Expr := .join .inner isOpen (.join .inner isWanted wantedYear sales) openYears

theorem uncorrelated_openSales : ∀ l ∈ (Rule.joinAssociativity : Rule Unit Nat).pattern.levels openSales,
    l.Uncorrelated salesContext.memo (salesContext.source salesColumns) := by
  refine List.forall_mem_cons.2 ⟨⟨_, .cons rfl (.cons rfl .nil), ?_⟩, List.forall_mem_singleton.2
    ⟨_, .cons rfl (.cons rfl .nil), ?_⟩⟩
  all_goals exact .cons (List.forall_mem_singleton.2
    ⟨SortedSet.disjoint_iff.1 rfl, SortedSet.disjoint_iff.1 rfl⟩) (List.pairwise_singleton ..)

theorem reordering_preserves_openSales :
    let S := salesIn [.int32 2024, .int32 2025]
    let regrouped : Expr := .join .inner isWanted wantedYear (.join .inner isOpen sales openYears)
    (Rule.joinAssociativity.transform salesContext openSales).run salesColumns = (.ok [regrouped], salesColumns) ∧
      regrouped.meaning S = openSales.meaning S := by
  intro S regrouped
  have hrun : (Rule.joinAssociativity.transform salesContext openSales).run salesColumns =
      (.ok [regrouped], salesColumns) := rfl
  have hclosed : openSales.Closed := by
    intro g hg
    simp [openSales, openYears, wantedYear, sales, Expr.join, Expr.ofLogical, Expr.subtrees, Expr.subtreesAll] at hg
  have hapart : ∀ {l r : Expr} {x y : ColumnId}, (l.meaning S).columns = .singleton x →
      (r.meaning S).columns = .singleton y → x ≠ y → Expr.Apart S l r := by
    intro l r x y hl hr hxy z hz hz'
    rw [hl] at hz
    rw [hr] at hz'
    exact hxy ((List.mem_singleton.1 hz).symm.trans (List.mem_singleton.1 hz'))
  have hdisjoint :
      ((Rule.joinAssociativity : Rule Unit Nat).pattern.leaves openSales).Pairwise (Expr.Apart S) := by
    refine .cons (List.forall_mem_cons.2 ⟨hapart rfl rfl (by decide), ?_⟩) (List.pairwise_pair.2 ?_)
    · exact List.forall_mem_singleton.2 (hapart rfl rfl (by decide))
    · exact hapart rfl rfl (by decide)
  exact ⟨hrun, Rule.reordering_preserves S (List.mem_cons_of_mem _ (List.mem_cons_self ..)) rfl hclosed.groupsFit
    hdisjoint uncorrelated_openSales hrun regrouped (List.mem_singleton.2 rfl)⟩

end

end Cascade
