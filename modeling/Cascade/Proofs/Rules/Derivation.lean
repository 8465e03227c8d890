import Cascade.Proofs.Rules.Alternatives

/-!
Properties derived for nested operators, and inputs that do not refer to columns of each other.
-/

namespace Cascade.Expr

variable {σ κ : Type} {m : Memo σ κ} {source : PropertySource σ} {c : Catalog} {cs : Columns}

/-- What is derived for an operator that reads no common table expression. -/
theorem derive_ofLogical (hsource : source.logical = LogicalOp.properties c cs) {op : LogicalOp}
    {inputs : List Expr} {ps : List LogicalProperties} {raw : LogicalProperties}
    (hps : List.Forall₂ (fun e p => m.derive source e = .ok p) inputs ps)
    (hraw : ∀ producer, op.rawProperties c cs producer ps = .ok raw) :
    m.derive source (ofLogical op inputs) = .ok raw.completed := by
  refine derive_logical_iff.2 ⟨ps, hps, ?_⟩
  rw [hsource, LogicalOp.properties, hraw]
  rfl

theorem derive_join (hsource : source.logical = LogicalOp.properties c cs) {l r : Expr} {pl pr : LogicalProperties}
    (type : JoinType) (on : Scalar) (hl : m.derive source l = .ok pl) (hr : m.derive source r = .ok pr) :
    m.derive source (join type on l r) = .ok (LogicalProperties.ofJoin type on pl pr).completed :=
  derive_ofLogical hsource (.cons hl (.cons hr .nil)) fun _ => rfl

theorem derive_select (hsource : source.logical = LogicalOp.properties c cs) {e : Expr} {p : LogicalProperties}
    (filter : Scalar) (h : m.derive source e = .ok p) :
    m.derive source (select filter e) = .ok (p.restrict filter).completed :=
  derive_ofLogical hsource (.cons h .nil) fun _ => rfl

theorem derive_naryJoin (hsource : source.logical = LogicalOp.properties c cs) {e : Expr} {es : List Expr}
    {p : LogicalProperties} {ps : List LogicalProperties} (on : Scalar) (h : m.derive source e = .ok p)
    (hs : List.Forall₂ (fun e p => m.derive source e = .ok p) es ps) :
    m.derive source (ofLogical (.naryJoin on) (e :: es)) = .ok (LogicalProperties.ofNaryJoin on p ps).completed :=
  derive_ofLogical hsource (.cons h hs) fun _ => rfl

/-- The inputs of an operator have properties, and none refers to a column that another one produces. -/
def Uncorrelated (m : Memo σ κ) (source : PropertySource σ) (e : Expr) : Prop :=
  ∃ ps, List.Forall₂ (fun i p => m.derive source i = .ok p) e.inputs ps ∧
    ps.Pairwise (fun p q => (∀ c ∈ p.outerRefs, c ∉ q.output) ∧ ∀ c ∈ q.outerRefs, c ∉ p.output)

theorem Uncorrelated.of_join {type : JoinType} {on : Scalar} {l r : Expr}
    (h : (join type on l r).Uncorrelated m source) : ∃ pl pr,
      m.derive source l = .ok pl ∧ m.derive source r = .ok pr ∧
      (∀ c ∈ pl.outerRefs, c ∉ pr.output) ∧ ∀ c ∈ pr.outerRefs, c ∉ pl.output := by
  obtain ⟨ps, hps, hpairs⟩ := h
  cases hps with
  | cons hl hps =>
    cases hps with
    | cons hr hps =>
      cases hps with
      | nil =>
        obtain ⟨hleft, hright⟩ := (List.pairwise_cons.1 hpairs).1 _ (List.mem_singleton.2 rfl)
        exact ⟨_, _, hl, hr, hleft, hright⟩

/-- The condition of a join mentions columns of its inputs and outer columns. -/
theorem mem_outerRefs_ofJoin {type : JoinType} {on : Scalar} {pl pr : LogicalProperties} {x : ColumnId}
    (hx : x ∈ on.columns) (hl : x ∉ pl.output) (hr : x ∉ pr.output) :
    x ∈ (LogicalProperties.ofJoin type on pl pr).completed.outerRefs := by
  have hproduct : x ∈ (pl.outerRefs ∪ pr.outerRefs ∪ on.columns) \ (pl.output ∪ pr.output) :=
    SortedSet.mem_diff.2 ⟨SortedSet.mem_union.2 (.inr hx), fun h => (SortedSet.mem_union.1 h).elim hl hr⟩
  have houtput : x ∉ (LogicalProperties.ofJoin type on pl pr).output := by
    rw [LogicalProperties.output_ofJoin, JoinType.columns]
    split
    · exact hl
    · exact fun h => (SortedSet.mem_union.1 h).elim hl hr
  refine SortedSet.mem_diff.2 ⟨?_, houtput⟩
  cases type <;> exact hproduct

end Cascade.Expr
