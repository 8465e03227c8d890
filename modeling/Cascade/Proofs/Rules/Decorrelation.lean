import Cascade.Proofs.Properties.Correlation
import Cascade.Proofs.Rules.Pushdown

/-!
An apply as a join. The derived outer references of the right input have all columns it refers to, as long as none of its
operators produces such a column: then its rows are the same for every left row.
-/

namespace Cascade

namespace Rule

variable {σ κ : Type} {ctx : RuleContext σ κ} {columns after : Columns} {alternatives : List Expr}

/-- The join that replaces an apply has its rows, unless an operator of the right input passes on a column of the left
one that the right input refers to. -/
theorem applyToJoin_preserves (S : Interpretation) {c : Catalog} {cs : Columns}
    (hsource : (ctx.source columns).logical = LogicalOp.properties c cs) {type : ApplyType} {on : Scalar}
    {left right : Expr} {env : CteId → ColumnSet} (hleft : left.GroupsFit S ctx.memo (ctx.source columns))
    (hright : right.Mapped S env)
    (hpasses : ∀ c ∈ (left.meaning S).columns, right.Refers S c → ∀ t ∈ right.subtrees, c ∉ (t.meaning S).columns)
    (hrun : (applyToJoin.transform ctx (.ofLogical (.apply type on) [left, right])).run columns =
      (.ok alternatives, after)) :
    ∀ x ∈ alternatives, x = .join type.joinType on left right ∧ ∀ s : Scope, s.Fits env →
      (x.meaning S).rows s = ((Expr.ofLogical (.apply type on) [left, right]).meaning S).rows s := by
  intro x hx
  obtain ⟨_, _, _, _, pl, pr, he, hl, hr, houter, rfl⟩ := of_applyToJoin hrun x hx
  cases he
  refine ⟨rfl, fun s hs => ?_⟩
  have hcolumns := Expr.columns_meaning hsource hleft hl
  have hsame : ∀ l ∈ (left.meaning S).rows s, (right.meaning S).rows (s.enter l) = (right.meaning S).rows s := by
    intro l hrow
    refine hright.rows_congr hs rfl fun c hc => ?_
    have hnotLeft : c ∉ (left.meaning S).columns := fun hcl =>
      houter c (hc.mem_outerRefs hsource hright.closed hr (hpasses c hcl hc)) (hcolumns ▸ hcl)
    change (l c).getD (s.binding c) = s.binding c
    rw [((left.meaning S).rows_over s l hrow).eq_none hnotLeft, Option.getD_none]
  have htype : type.joinType ≠ .rightOuter := by cases type <;> nofun
  rw [Expr.join, Expr.meaning_join, Expr.meaning_apply]
  simp only [Relation.join, Relation.apply, if_neg htype, add_zero]
  exact Multiset.bind_congr fun l hrow => by rw [hsame l hrow]

end Rule

section

def subquery (type : ApplyType) (on : Scalar) (right : Expr) : Expr := .ofLogical (.apply type on) [wantedYear, right]

theorem applyToJoin_preserves_sales :
    let S := salesIn [.int32 2024, .int32 2025]
    (Rule.applyToJoin.transform salesContext (subquery .antiSemi isWanted sales)).run salesColumns =
        (.ok [.join .leftAntiSemi isWanted wantedYear sales], salesColumns) ∧
      ((Expr.join .leftAntiSemi isWanted wantedYear sales).meaning S).rows outermost =
        ((subquery .antiSemi isWanted sales).meaning S).rows outermost := by
  intro S
  have hrun : (Rule.applyToJoin.transform salesContext (subquery .antiSemi isWanted sales)).run salesColumns =
      (.ok [.join .leftAntiSemi isWanted wantedYear sales], salesColumns) := rfl
  have hclosed : wantedYear.Closed := by
    intro g hg
    simp [wantedYear, Expr.ofLogical, Expr.subtrees, Expr.subtreesAll] at hg
  have hmapped : sales.Mapped S (fun _ => ∅) :=
    .operator (fun _ h => by cases h) trivial fun _ h => absurd h List.not_mem_nil
  have hfits : outermost.Fits (fun _ => ∅) := fun _ r hr => absurd hr (Multiset.notMem_zero r)
  have hpasses : ∀ c ∈ (wantedYear.meaning S).columns, sales.Refers S c →
      ∀ t ∈ sales.subtrees, c ∉ (t.meaning S).columns := by
    intro c hc _ t ht hct
    obtain rfl := List.mem_singleton.1 hc
    obtain rfl := List.mem_singleton.1 ht
    exact absurd (List.mem_singleton.1 hct) (by decide)
  obtain ⟨-, hrows⟩ := Rule.applyToJoin_preserves S rfl hclosed.groupsFit hmapped hpasses hrun _ (List.mem_singleton.2 rfl)
  exact ⟨hrun, hrows outermost hfits⟩

/-- The sales, if the year wanted outside is 2024. -/
def salesIf2024 : Expr :=
  .ofLogical (.project [(2, .column 2)])
    [.select (.binary (.column 1) .eq (.literal (.int32 2024)))
      (.ofLogical (.project [(1, .column 1), (2, .column 2)]) [sales])]

/-- The projection that passes the wanted year on hides that it comes from outside. The join evaluates its right input
without it and finds no sale. -/
theorem applyToJoin_misreads_salesIf2024 :
    let S := salesIn [.int32 2025]
    (Rule.applyToJoin.transform salesContext (subquery .inner .true salesIf2024)).run salesColumns =
        (.ok [.join .inner .true wantedYear salesIf2024], salesColumns) ∧
      (((subquery .inner .true salesIf2024).meaning S).rows outermost).card = 1 ∧
      (((Expr.join .inner .true wantedYear salesIf2024).meaning S).rows outermost).card = 0 :=
  ⟨rfl, rfl, rfl⟩

end

end Cascade
