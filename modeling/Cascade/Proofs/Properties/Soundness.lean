import Cascade.Proofs.Memo.Deriving
import Cascade.Proofs.Properties.Operators
import Cascade.Proofs.Semantics.Aggregation

/-!
Derived logical properties hold of the rows of a tree, whatever the values of outer columns are. Over a database that
respects its schema it is enough that columns of inputs that are combined are told apart and that new columns are new.
-/

namespace Cascade

namespace LogicalProperties

/-- What is known of the columns and rows of a relation, over the rows of common table expressions and for any values
of outer columns. -/
structure Characterizes (p : LogicalProperties) (R : Relation) (ctes : CteId → Multiset Row) : Prop where
  columns : R.columns = p.output
  within : p.Within
  describes : ∀ b, p.Describes (R.rows ⟨b, ctes⟩)

namespace Characterizes

variable {l r : LogicalProperties} {L R : Relation} {ctes : CteId → Multiset Row} {F : Functions}

theorem apply (hl : l.Characterizes L ctes) (hr : r.Characterizes R ctes) {type : JoinType} (htype : type ≠ .rightOuter)
    (hcast : ∀ type, F.cast type .null = .null) (hdisjoint : ∀ c ∈ L.columns, c ∉ R.columns) (on : Scalar)
    (b : Binding) : (ofJoin type on l r).Describes ((L.apply type (fun b => on.truth F b) R).rows ⟨b, ctes⟩) := by
  rw [hl.columns, hr.columns] at hdisjoint
  simp only [Relation.apply, hr.columns]
  exact describes_contributions htype hcast on (hl.describes b) (fun a _ => hr.describes (b.with a)) hl.within hr.within
    hdisjoint b

theorem join (hl : l.Characterizes L ctes) (hr : r.Characterizes R ctes) (type : JoinType)
    (hcast : ∀ type, F.cast type .null = .null) (hdisjoint : ∀ c ∈ L.columns, c ∉ R.columns) (on : Scalar)
    (b : Binding) : (ofJoin type on l r).Describes ((L.join type (fun b => on.truth F b) R).rows ⟨b, ctes⟩) := by
  have hkeep : ∀ {l r : LogicalProperties} {L R : Relation} {type : JoinType}, l.Characterizes L ctes →
      r.Characterizes R ctes → (∀ c ∈ L.columns, c ∉ R.columns) → type ≠ .rightOuter →
      (ofJoin type on l r).Describes ((L.join type (fun b => on.truth F b) R).rows ⟨b, ctes⟩) := by
    intro l r L R type hl hr hdisjoint htype
    rw [hl.columns, hr.columns] at hdisjoint
    simp only [Relation.join, if_neg htype, add_zero, hr.columns]
    exact describes_contributions htype hcast on (hl.describes b) (fun _ _ => hr.describes b) hl.within hr.within
      hdisjoint b
  by_cases htype : type = .rightOuter
  · have hdisjoint' : ∀ c ∈ R.columns, c ∉ L.columns := fun c hr hl => hdisjoint c hl hr
    rw [htype, ← Relation.leftOuter_eq_rightOuter _ hdisjoint']
    refine (hkeep hr hl hdisjoint' (by decide)).congr ?_ rfl ?_ rfl rfl
    · exact SortedSet.union_comm ..
    · exact KeySet.combine_comm ..
  · exact hkeep hl hr hdisjoint htype

theorem times (hl : l.Characterizes L ctes) (hr : r.Characterizes R ctes) (hcast : ∀ type, F.cast type .null = .null)
    (hdisjoint : ∀ c ∈ L.columns, c ∉ R.columns) : (ofJoin .inner .true l r).Characterizes (L.times R) ctes where
  columns := by
    change L.columns ∪ R.columns = l.output ∪ r.output
    rw [hl.columns, hr.columns]
  within := by
    obtain ⟨hnotNull, hkeys, hconstraint⟩ := hl.within.pairs hr.within
    refine ⟨fun c hc => ?_, hkeys, fun e he => ?_⟩
    · exact (SortedSet.mem_union.1 hc).elim (hnotNull c) fun hc => absurd hc List.not_mem_nil
    · exact (SortedSet.mem_union.1 he).elim (hconstraint e) fun he => absurd he List.not_mem_nil
  describes := hl.join hr .inner hcast hdisjoint .true

/-- Inputs joined one after the other have the rows of their product. -/
theorem foldl {ps : List LogicalProperties} {Rs : List Relation} (hl : l.Characterizes L ctes)
    (h : List.Forall₂ (fun p R => Characterizes p R ctes) ps Rs) (hcast : ∀ type, F.cast type .null = .null)
    (hdisjoint : (L :: Rs).Pairwise (fun L R => ∀ c ∈ L.columns, c ∉ R.columns)) :
    (ps.foldl (ofJoin .inner .true) l).Characterizes (L.times (.product Rs)) ctes := by
  induction h generalizing l L with
  | nil => exact (Relation.times_unit L).symm ▸ hl
  | @cons p R ps Rs hp _ ih =>
    obtain ⟨hL, hrest⟩ := List.pairwise_cons.1 hdisjoint
    obtain ⟨hR, hrest⟩ := List.pairwise_cons.1 hrest
    change Characterizes _ (L.times (R.times (.product Rs))) ctes
    rw [← Relation.times_assoc]
    refine ih (hl.times hp hcast (hL R (List.mem_cons_self ..))) (List.pairwise_cons.2 ⟨fun T hT c hc => ?_, hrest⟩)
    exact (SortedSet.mem_union.1 hc).elim (hL T (List.mem_cons_of_mem _ hT) c) (hR T hT c)

theorem unionAll {ps : List LogicalProperties} {Rs : List Relation}
    (h : List.Forall₂ (fun p R => Characterizes p R ctes) ps Rs) {u : Concatenation} {q : LogicalProperties}
    (hq : ofUnionAll u ps = .ok q) (houtput : u.output.Nodup) (b : Binding) :
    q.Describes ((Relation.concat u.output (Rs.zip u.inputColumns)).rows ⟨b, ctes⟩) := by
  unfold ofUnionAll at hq
  split at hq
  · cases hq
  rename_i hlength
  split at hq
  · cases hq
  cases hq
  have hrenamed : ∀ (R : Relation) (input : List ColumnId), (R.renamed u.output input).rows ⟨b, ctes⟩ =
      (R.rows ⟨b, ctes⟩).map (fun r => .ofPairs (u.output.zipIdx.map (fun a =>
        (a.1, (input[a.2]?).elim .null (b.with r))))) := fun R input => Multiset.map_map ..
  obtain ⟨hkeys, hconstraint⟩ := keys_constraint_gathered ps
  have hcard := bounds_gathered (List.forall₂_map_left_iff.2 (h.flip.imp fun R p hp =>
    (hp.describes b).maxCardinality) : List.Forall₂ _ (Rs.map fun R => (R.rows ⟨b, ctes⟩).card) ps)
  constructor
  case rows_over => exact (Relation.concat u.output (Rs.zip u.inputColumns)).rows_over ⟨b, ctes⟩
  case notNull =>
    intro c hc _ t ht
    obtain ⟨place, hplace, hnotNull⟩ := exists_place hc
    simp only [Relation.concat, Multiset.mem_bind, hrenamed] at ht
    obtain ⟨⟨R, input⟩, hx, ht⟩ := ht
    obtain ⟨r, hr, rfl⟩ := Multiset.mem_map.1 ht
    obtain ⟨p, hp, hin⟩ := exists_of_mem_zip h (Multiset.mem_coe.1 hx)
    obtain ⟨d, hd, hnotNull⟩ := (Option.any_eq_true ..).1 (List.all_eq_true.1 hnotNull (p, input) hin)
    have hd' := hp.within.notNull d (of_decide_eq_true hnotNull)
    rw [Row.values_of_some (Row.ofPairs_zipIdx houtput hplace fun i => (input[i]?).elim .null (b.with r)), hd,
      Option.elim_some, Binding.with_eq_values ((hp.describes b).rows_over r hr) hd']
    exact (hp.describes b).notNull d (of_decide_eq_true hnotNull) hd' r hr
  case keys => exact fun k hk => absurd (hkeys ▸ hk) List.not_mem_nil
  case maxCardinality =>
    refine hcard.mono (le_of_eq ?_)
    have hfst : (Rs.zip u.inputColumns).map Prod.fst = Rs :=
      List.map_fst_zip (by rw [← h.length_eq]; exact (not_not.1 hlength).ge)
    simp only [Relation.concat, Multiset.card_bind, Multiset.map_coe, Multiset.sum_coe, Function.comp_def, hrenamed,
      Multiset.card_map]
    conv_rhs => rw [← hfst, List.map_map]
    rfl
  case constraint => exact fun e he => absurd (hconstraint ▸ he) List.not_mem_nil

end Characterizes
end LogicalProperties

namespace LogicalOp

open LogicalProperties

variable {S : Interpretation} {c : Catalog} {cs : Columns} {op : LogicalOp} {ps : List LogicalProperties}
  {Rs : List Relation} {ctes : CteId → Multiset Row} {producer : Option LogicalProperties} {raw : LogicalProperties}

end LogicalOp

namespace Expr

open LogicalProperties

variable {σ κ : Type} {m : Memo σ κ} {source : PropertySource σ} {S : Interpretation} {c : Catalog} {cs : Columns}
  {producer : CteId → Expr} {e : Expr} {p : LogicalProperties}

end Expr

section

end

end Cascade
