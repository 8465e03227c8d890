import Cascade.Derivation.Logical
import Cascade.Memo.Basic
import Cascade.Proofs.Semantics.Query
import Cascade.Proofs.Sequence

/-!
The derived output columns of an expression are the columns of its rows.
-/

namespace Cascade

variable {S : Interpretation}

theorem Relation.mem_columns_product (Rs : List Relation) (c : ColumnId) :
    c ∈ (product Rs).columns ↔ ∃ columns ∈ Rs.map Relation.columns, c ∈ columns := by
  induction Rs with
  | nil => exact ⟨fun h => (nomatch h), fun ⟨_, h, _⟩ => (nomatch h)⟩
  | cons R Rs ih =>
    change c ∈ R.columns ∪ (product Rs).columns ↔ _
    rw [SortedSet.mem_union, ih, List.map_cons, List.exists_mem_cons_iff]

namespace LogicalProperties

theorem output_ofJoin (type : JoinType) (on : Scalar) (l r : LogicalProperties) :
    (ofJoin type on l r).output = type.columns l.output r.output := by
  cases type <;> rfl

theorem mem_output_ofNaryJoin (on : Scalar) (first : LogicalProperties) (others : List LogicalProperties)
    (c : ColumnId) : c ∈ (ofNaryJoin on first others).output ↔
      ∃ columns ∈ (first :: others).map LogicalProperties.output, c ∈ columns := by
  change c ∈ (others.foldl (ofJoin .inner .true) first).output ↔ _
  induction others generalizing first with
  | nil => simp
  | cons p others ih =>
    rw [List.foldl_cons, ih]
    simp only [List.map_cons, List.exists_mem_cons_iff, output_ofJoin]
    change c ∈ first.output ∪ p.output ∨ _ ↔ _
    rw [SortedSet.mem_union, or_assoc]

end LogicalProperties

namespace LogicalOp

open LogicalProperties

theorem exists_of_properties {c : Catalog} {cs : Columns} {producer : Option LogicalProperties} {op : LogicalOp}
    {inputs : List LogicalProperties} {p : LogicalProperties} (h : op.properties c cs inputs producer = .ok p) :
    ∃ raw, op.rawProperties c cs producer inputs = .ok raw ∧ p = raw.completed := by
  unfold properties at h
  cases hraw : op.rawProperties c cs producer inputs with
  | error err =>
    rw [hraw] at h
    cases h
  | ok raw =>
    rw [hraw] at h
    cases h
    exact ⟨raw, rfl, rfl⟩

/-- One operator, given that its inputs produce the columns derived for them. -/
theorem columns_meaning {c : Catalog} {cs : Columns} {producer : Option LogicalProperties} {op : LogicalOp}
    {Rs : List Relation} {inputs : List LogicalProperties} {p : LogicalProperties}
    (h : op.rawProperties c cs producer inputs = .ok p)
    (hinputs : Rs.map Relation.columns = inputs.map LogicalProperties.output) :
    (op.meaning S Rs).columns = p.output := by
  unfold rawProperties at h
  split at h
  case h_1 g =>
    obtain rfl := List.map_eq_nil_iff.1 hinputs
    obtain ⟨t, -, h⟩ := exists_of_bind_ok h
    obtain ⟨columns, -, h⟩ := exists_of_bind_ok h
    cases h
    rfl
  case h_2 | h_7 =>
    obtain ⟨R, rfl, hR⟩ := List.map_eq_singleton_iff.1 hinputs
    cases h
    exact hR
  case h_3 | h_10 =>
    obtain ⟨R, rfl, -⟩ := List.map_eq_singleton_iff.1 hinputs
    cases h
    rfl
  case h_4 | h_11 =>
    obtain ⟨L, _, rfl, hL, hinputs⟩ := List.map_eq_cons_iff.1 hinputs
    obtain ⟨R, rfl, hR⟩ := List.map_eq_singleton_iff.1 hinputs
    cases h
    rw [output_ofJoin, ← hL, ← hR]
    rfl
  case h_5 on first others =>
    cases h
    refine SortedSet.ext_mem fun x => ?_
    rw [mem_output_ofNaryJoin, ← hinputs]
    exact Relation.mem_columns_product Rs x
  case h_6 a input =>
    obtain ⟨R, rfl, -⟩ := List.map_eq_singleton_iff.1 hinputs
    cases h
    exact List.foldl_append
  case h_8 u first others =>
    unfold ofUnionAll at h
    split at h
    · cases h
    · split at h
      · cases h
      · cases h
        rfl
  case h_9 v =>
    obtain rfl := List.map_eq_nil_iff.1 hinputs
    unfold ofValues at h
    split at h
    · cases h
    · cases h
      rfl
  case h_12 =>
    obtain ⟨P, _, rfl, -, hinputs⟩ := List.map_eq_cons_iff.1 hinputs
    obtain ⟨B, rfl, hB⟩ := List.map_eq_singleton_iff.1 hinputs
    cases h
    exact hB
  case h_13 r =>
    obtain rfl := List.map_eq_nil_iff.1 hinputs
    split at h
    · unfold ofCteConsumer at h
      split at h
      · cases h
      · cases h
        rfl
    · cases h
  case h_14 => cases h

end LogicalOp

/-- The properties of the rows an operator reads besides its inputs. -/
def Memo.producerProperties? {σ κ : Type} (m : Memo σ κ) (op : LogicalOp) : Option LogicalProperties :=
  ((m.producerOf? op).bind m.group?).map Group.logical

namespace Expr

variable {σ κ : Type} {m : Memo σ κ} {source : PropertySource σ} {c : Catalog} {cs : Columns}

theorem forall₂_of_deriveAll {es : List Expr} {ps : List LogicalProperties} (h : m.deriveAll source es = .ok ps) :
    List.Forall₂ (fun e p => m.derive source e = .ok p) es ps := by
  induction es generalizing ps with
  | nil =>
    cases h
    exact .nil
  | cons e es ih =>
    obtain ⟨p, hp, h⟩ := exists_of_bind_ok h
    obtain ⟨ps, hps, h⟩ := exists_of_bind_ok h
    cases h
    exact .cons hp (ih hps)

theorem deriveAll_of_forall₂ {es : List Expr} {ps : List LogicalProperties}
    (h : List.Forall₂ (fun e p => m.derive source e = .ok p) es ps) : m.deriveAll source es = .ok ps := by
  induction h with
  | nil => rfl
  | cons he _ ih =>
    rw [Memo.deriveAll, he, ih]
    rfl

theorem derive_logical_iff {op : LogicalOp} {inputs : List Expr} {p : LogicalProperties} :
    m.derive source (.ofLogical op inputs) = .ok p ↔
      ∃ ps, List.Forall₂ (fun e p => m.derive source e = .ok p) inputs ps ∧
        source.logical op ps (m.producerProperties? op) = .ok p := by
  constructor
  · intro h
    obtain ⟨ps, hps, h⟩ := exists_of_bind_ok h
    exact ⟨ps, forall₂_of_deriveAll hps, h⟩
  · rintro ⟨ps, hps, h⟩
    rw [ofLogical, Memo.derive, deriveAll_of_forall₂ hps]
    exact h

/-- What is derived for an operator comes from what is derived for its inputs. -/
theorem exists_of_derive (hsource : source.logical = LogicalOp.properties c cs) {op : Operator}
    {inputs : List Expr} {p : LogicalProperties} (h : m.derive source (.node op inputs) = .ok p) :
    ∃ lop ps producer raw, op = .logical lop ∧ List.Forall₂ (fun e p => m.derive source e = .ok p) inputs ps ∧
      lop.rawProperties c cs producer ps = .ok raw ∧ p = raw.completed := by
  cases op with
  | physical op => cases h
  | logical op =>
    obtain ⟨ps, hps, h⟩ := derive_logical_iff.1 h
    rw [hsource] at h
    obtain ⟨raw, hraw, rfl⟩ := LogicalOp.exists_of_properties h
    exact ⟨op, ps, _, raw, rfl, hps, hraw, rfl⟩

/-- What is derived for a tree names its columns, if this holds of the groups it refers to. -/
theorem columns_meaning (hsource : source.logical = LogicalOp.properties c cs) {e : Expr}
    (hgroups : ∀ g, .group g ∈ e.subtrees → ∀ p, m.derive source (.group g) = .ok p →
      (S.group g).columns = p.output)
    {p : LogicalProperties} (h : m.derive source e = .ok p) : (e.meaning S).columns = p.output := by
  induction e using Expr.induction generalizing p with
  | group g => exact hgroups g (List.mem_singleton.2 rfl) p h
  | node op inputs ih =>
    obtain ⟨op, ps, _, raw, rfl, hps, hraw, rfl⟩ := exists_of_derive hsource h
    have hih : ∀ e ∈ inputs, ∀ p, m.derive source e = .ok p → (e.meaning S).columns = p.output :=
      fun e he p hp => ih e he
        (fun g hg => hgroups g ((mem_subtrees_node _ inputs).2 (.inr ⟨e, he, hg⟩))) hp
    have hinputs : List.Forall₂ (fun e p => (e.meaning S).columns = p.output) inputs ps :=
      ((List.forall₂_and_left _ _).2 ⟨hih, hps⟩).imp fun e p he => he.1 p he.2
    change _ = raw.output
    rw [meaning, meanings_eq_map]
    refine LogicalOp.columns_meaning hraw ?_
    rwa [List.map_map, ← List.forall₂_eq_eq_eq, List.forall₂_map_left_iff, List.forall₂_map_right_iff]

end Expr
end Cascade
