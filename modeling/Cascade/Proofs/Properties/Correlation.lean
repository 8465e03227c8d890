import Cascade.Proofs.Properties.Products
import Cascade.Proofs.Semantics.Elimination
import Cascade.Proofs.Semantics.References

/-!
Derived outer references. An operator keeps those of its inputs and adds the columns it refers to itself, apart from what
its inputs produce and from what it produces: so an outer column that it passes on or groups by is lost. The rows of a tree
depend on its derived outer references and on the columns that are hidden this way (`Expr.outerRefs_complete`).
-/

namespace Cascade

namespace LogicalProperties

variable {x : ColumnId}

theorem mem_outerRefs_join {type : JoinType} {on : Scalar} {l r : LogicalProperties}
    (hx : x ∈ on.columns ∨ x ∈ l.outerRefs ∨ x ∈ r.outerRefs) (hl : x ∉ l.output) (hr : x ∉ r.output) :
    x ∈ (ofJoin type on l r).outerRefs := by
  have hproduct : x ∈ (l.outerRefs ∪ r.outerRefs ∪ on.columns) \ (l.output ∪ r.output) := by
    refine SortedSet.mem_diff.2 ⟨?_, fun h => (SortedSet.mem_union.1 h).elim hl hr⟩
    rw [SortedSet.mem_union, SortedSet.mem_union]
    tauto
  cases type <;> exact hproduct

theorem mem_outerRefs_naryJoin {on : Scalar} {first : LogicalProperties} {others : List LogicalProperties}
    (hx : x ∈ on.columns ∨ ∃ p ∈ first :: others, x ∈ p.outerRefs) (hinputs : ∀ p ∈ first :: others, x ∉ p.output) :
    x ∈ (ofNaryJoin on first others).outerRefs := by
  have hfold : (∃ p ∈ first :: others, x ∈ p.outerRefs) →
      x ∈ (others.foldl (ofJoin .inner .true) first).outerRefs := by
    clear hx
    induction others generalizing first with
    | nil => simp
    | cons p others ih =>
      rintro ⟨q, hq, hx⟩
      obtain ⟨hfirst, hp, hothers⟩ := List.forall_mem_cons.1 hinputs |>.imp_right List.forall_mem_cons.1
      refine @ih (ofJoin .inner .true first p) (List.forall_mem_cons.2 ⟨?_, hothers⟩) ?_
      · exact fun h => (SortedSet.mem_union.1 h).elim hfirst hp
      · rcases List.mem_cons.1 hq with rfl | hq
        · exact ⟨_, List.mem_cons_self .., mem_outerRefs_join (.inr (.inl hx)) hfirst hp⟩
        · rcases List.mem_cons.1 hq with rfl | hq
          · exact ⟨_, List.mem_cons_self .., mem_outerRefs_join (.inr (.inr hx)) hfirst hp⟩
          · exact ⟨q, List.mem_cons_of_mem _ hq, hx⟩
  refine SortedSet.mem_union.2 (hx.symm.imp hfold fun h => SortedSet.mem_diff.2 ⟨h, fun hout => ?_⟩)
  obtain ⟨_, hmem, hout⟩ := (mem_output_ofNaryJoin .true first others x).1 hout
  obtain ⟨p, hp, rfl⟩ := List.mem_map.1 hmem
  exact hinputs p hp hout

theorem mem_outerRefs_gathered {inputs : List LogicalProperties} (hx : ∃ p ∈ inputs, x ∈ p.outerRefs) :
    x ∈ (gathered inputs).outerRefs := by
  suffices hfold : ∀ acc : LogicalProperties, (x ∈ acc.outerRefs ∨ ∃ p ∈ inputs, x ∈ p.outerRefs) →
      x ∈ (inputs.foldl (fun acc i =>
        { acc with
          maxCardinality := acc.maxCardinality.add i.maxCardinality
          outerRefs := acc.outerRefs ∪ i.outerRefs
          relations := acc.relations ∪ i.relations
          partitionConsumers := acc.partitionConsumers ∪ i.partitionConsumers }) acc).outerRefs from
    hfold .empty (.inr hx)
  clear hx
  induction inputs with
  | nil => exact fun acc h => h.elim id fun ⟨_, h, _⟩ => absurd h List.not_mem_nil
  | cons p inputs ih =>
    refine fun acc h => ih _ ?_
    rw [List.exists_mem_cons_iff, ← or_assoc] at h
    exact h.imp_left fun h => SortedSet.mem_union.2 h

end LogicalProperties

namespace LogicalOp

/-- The columns in the expressions of an operator, in its grouping columns and in its ordering. -/
def references : LogicalOp → ColumnSet
  | limit l => l.ordering.columnSet
  | op => op.mentioned

theorem mem_references_of_mem_mentioned {op : LogicalOp} {x : ColumnId} (h : x ∈ op.mentioned) : x ∈ op.references := by
  cases op with
  | limit l => exact absurd h List.not_mem_nil
  | _ => exact h

/-- An operator refers to a column that none of its inputs has, or an input does that no sibling of it has. -/
def RefersOutside (op : LogicalOp) (inputs : List LogicalProperties) (x : ColumnId) : Prop :=
  (x ∈ op.references ∧ ∀ i ∈ inputs, x ∉ i.output) ∨
    ∃ (k : Nat) (i : LogicalProperties), inputs[k]? = some i ∧ x ∈ i.outerRefs ∧
      ∀ (n : Nat) (j : LogicalProperties), inputs[n]? = some j → n ≠ k → x ∉ j.output

open LogicalProperties in
/-- An operator keeps the references of its inputs and adds its own, apart from columns an input produces. -/
theorem mem_outerRefs {c : Catalog} {cs : Columns} {producer : Option LogicalProperties} {op : LogicalOp}
    {inputs : List LogicalProperties} {p : LogicalProperties} {x : ColumnId}
    (h : op.rawProperties c cs producer inputs = .ok p)
    (hx : x ∈ op.references ∨ ∃ i ∈ inputs, x ∈ i.outerRefs) (hinputs : ∀ i ∈ inputs, x ∉ i.output) :
    x ∈ p.outerRefs := by
  have hone : ∀ {i : LogicalProperties} {own : ColumnSet}, x ∉ i.output →
      (x ∈ own ∨ ∃ j ∈ [i], x ∈ j.outerRefs) → x ∈ i.outerRefs ∪ (own \ i.output) := fun hi h =>
    SortedSet.mem_union.2 (h.symm.imp (fun ⟨j, hj, hx⟩ => List.mem_singleton.1 hj ▸ hx)
      fun h => SortedSet.mem_diff.2 ⟨h, hi⟩)
  unfold rawProperties at h
  split at h
  case h_1 | h_9 | h_13 =>
    rcases hx with hx | ⟨i, hi, -⟩
    · exact absurd hx List.not_mem_nil
    · exact absurd hi List.not_mem_nil
  case h_2 | h_3 | h_6 | h_7 =>
    cases h
    exact hone (hinputs _ (List.mem_singleton.2 rfl)) hx
  case h_4 | h_11 =>
    cases h
    rw [List.exists_mem_cons_iff, exists_mem_singleton] at hx
    exact mem_outerRefs_join hx (hinputs _ (List.mem_cons_self ..))
      (hinputs _ (List.mem_cons_of_mem _ (List.mem_singleton.2 rfl)))
  case h_5 =>
    cases h
    exact mem_outerRefs_naryJoin hx hinputs
  case h_10 =>
    cases h
    replace hx := hx.resolve_left List.not_mem_nil
    rw [exists_mem_singleton] at hx
    exact hx
  case h_8 =>
    unfold ofUnionAll at h
    split at h
    · cases h
    · split at h
      · cases h
      · cases h
        exact mem_outerRefs_gathered (hx.resolve_left List.not_mem_nil)
  case h_12 =>
    cases h
    replace hx := hx.resolve_left List.not_mem_nil
    rw [List.exists_mem_cons_iff, exists_mem_singleton] at hx
    exact SortedSet.mem_union.2 hx.symm
  case h_14 => cases h

end LogicalOp

namespace Expr

variable {S : Interpretation} {σ κ : Type} {m : Memo σ κ} {source : PropertySource σ} {c : Catalog} {cs : Columns}

theorem Mapped.closed {env : CteId → ColumnSet} {e : Expr} (h : e.Mapped S env) : e.Closed := by
  induction h with
  | anchor _ _ ihproducer ihbody =>
    exact closed_ofLogical (List.forall_mem_cons.2 ⟨ihproducer, List.forall_mem_singleton.2 ihbody⟩)
  | operator _ _ _ ih => exact closed_ofLogical ih

/-- A part of a tree refers to a column, and it or one of its inputs has a column of that name. -/
def Hides (S : Interpretation) (x : ColumnId) (e : Expr) : Prop :=
  ∃ op inputs, ofLogical op inputs ∈ e.subtrees ∧ (ofLogical op inputs).Refers S x ∧
    (x ∈ ((ofLogical op inputs).meaning S).columns ∨ ∃ i ∈ inputs, x ∈ (i.meaning S).columns)

theorem mem_subtrees_trans {e t u : Expr} (hu : u ∈ t.subtrees) (ht : t ∈ e.subtrees) : u ∈ e.subtrees := by
  induction e using Expr.induction with
  | group g => exact List.mem_singleton.1 ht ▸ hu
  | node op inputs ih =>
    obtain rfl | ⟨i, hi, ht⟩ := (mem_subtrees_node op inputs).1 ht
    · exact hu
    · exact (mem_subtrees_node op inputs).2 (.inr ⟨i, hi, ih i hi ht⟩)

theorem Hides.of_mem {x : ColumnId} {op : LogicalOp} {inputs : List Expr} {i : Expr} (hi : i ∈ inputs)
    (h : i.Hides S x) : (ofLogical op inputs).Hides S x := by
  obtain ⟨lop, below, hmem, h⟩ := h
  exact ⟨lop, below, (mem_subtrees_node _ inputs).2 (.inr ⟨i, hi, hmem⟩), h⟩

theorem Hides.exists_mem_columns {x : ColumnId} {e : Expr} (h : e.Hides S x) :
    ∃ t ∈ e.subtrees, x ∈ (t.meaning S).columns := by
  obtain ⟨op, inputs, hmem, -, hx | ⟨i, hi, hx⟩⟩ := h
  · exact ⟨_, hmem, hx⟩
  · exact ⟨i, mem_subtrees_trans ((mem_subtrees_node _ inputs).2 (.inr ⟨i, hi, mem_subtrees_self i⟩)) hmem, hx⟩

/-- What an operator refers to itself or through an input is among its outer references, unless it is hidden there. -/
theorem mem_outerRefs_or_hides (hsource : source.logical = LogicalOp.properties c cs) {x : ColumnId} {op : LogicalOp}
    {inputs : List Expr} {p : LogicalProperties} (hclosed : (ofLogical op inputs).Closed)
    (h : m.derive source (ofLogical op inputs) = .ok p) (hrefers : (ofLogical op inputs).Refers S x)
    (hx : x ∈ op.mentioned ∨ ∃ i ∈ inputs, ∀ q, m.derive source i = .ok q → x ∈ q.outerRefs) :
    x ∈ p.outerRefs ∨ (ofLogical op inputs).Hides S x := by
  by_cases hhidden : x ∈ ((ofLogical op inputs).meaning S).columns ∨ ∃ i ∈ inputs, x ∈ (i.meaning S).columns
  · exact .inr ⟨op, inputs, mem_subtrees_self _, hrefers, hhidden⟩
  obtain ⟨hself, hinputs⟩ := not_or.1 hhidden
  have hcolumns : ∀ {t : Expr} {q : LogicalProperties}, t.Closed → m.derive source t = .ok q →
      (t.meaning S).columns = q.output := fun ht hq => columns_meaning hsource (fun g hg => absurd hg (ht g)) hq
  rw [hcolumns hclosed h] at hself
  obtain ⟨_, ps, _, raw, hop, hps, hraw, rfl⟩ := exists_of_derive hsource h
  cases hop
  refine .inl (LogicalProperties.mem_outerRefs_completed.2 ⟨LogicalOp.mem_outerRefs hraw ?_ ?_, hself⟩)
  · refine hx.imp LogicalOp.mem_references_of_mem_mentioned ?_
    rintro ⟨i, hi, hx⟩
    obtain ⟨q, hq, hiq⟩ := exists_of_mem_left hps hi
    exact ⟨q, hq, hx q hiq⟩
  · intro q hq hxq
    obtain ⟨i, hi, hiq⟩ := exists_of_mem_right hps hq
    exact hinputs ⟨i, hi, by rwa [hcolumns (hclosed.of_mem hi) hiq]⟩

/-- A column that a tree refers to is among the derived outer references, unless it is hidden. -/
theorem Refers.mem_outerRefs_or_hides (hsource : source.logical = LogicalOp.properties c cs) {x : ColumnId} {e : Expr}
    {p : LogicalProperties} (hx : e.Refers S x) (hclosed : e.Closed) (h : m.derive source e = .ok p) :
    x ∈ p.outerRefs ∨ e.Hides S x := by
  have hinput : ∀ {op : LogicalOp} {inputs : List Expr} {i : Expr} {p : LogicalProperties}, i ∈ inputs →
      (ofLogical op inputs).Refers S x →
      (∀ {q}, i.Closed → m.derive source i = .ok q → x ∈ q.outerRefs ∨ i.Hides S x) →
      (ofLogical op inputs).Closed → m.derive source (ofLogical op inputs) = .ok p →
      x ∈ p.outerRefs ∨ (ofLogical op inputs).Hides S x := by
    intro op inputs i p hi hrefers ih hclosed h
    by_cases hhides : i.Hides S x
    · exact .inr (hhides.of_mem hi)
    · refine Expr.mem_outerRefs_or_hides hsource hclosed h hrefers (.inr ⟨i, hi, fun q hq => ?_⟩)
      exact (ih (hclosed.of_mem hi) hq).resolve_right hhides
  induction hx generalizing p with
  | operator hop hinputs =>
    exact Expr.mem_outerRefs_or_hides hsource hclosed h (.operator hop hinputs) (.inl hop)
  | input happly hi hx ih => exact hinput hi (.input happly hi hx) ih hclosed h
  | applyLeft hx ih => exact hinput (List.mem_cons_self ..) (.applyLeft hx) ih hclosed h
  | applyRight hx hl ih =>
    exact hinput (List.mem_cons_of_mem _ (List.mem_singleton.2 rfl)) (.applyRight hx hl) ih hclosed h

/-- A column that a tree refers to and no part of it produces is among the derived outer references. -/
theorem Refers.mem_outerRefs (hsource : source.logical = LogicalOp.properties c cs) {x : ColumnId} {e : Expr}
    {p : LogicalProperties} (hx : e.Refers S x) (hclosed : e.Closed) (h : m.derive source e = .ok p)
    (hnone : ∀ t ∈ e.subtrees, x ∉ (t.meaning S).columns) : x ∈ p.outerRefs := by
  refine (hx.mem_outerRefs_or_hides hsource hclosed h).resolve_right fun hhides => ?_
  obtain ⟨t, ht, hxt⟩ := hhides.exists_mem_columns
  exact hnone t ht hxt

/-- The columns that an operator refers to, or that an input refers to as outer ones, are among its outer references,
unless its inputs produce them or it does itself. So the rows of a tree are the same for two bindings of outer columns
that agree on its outer references and on what it hides. -/
theorem outerRefs_complete (hsource : source.logical = LogicalOp.properties c cs) :
    (∀ (op : LogicalOp) (inputs : List LogicalProperties) (producer : Option LogicalProperties) (p : LogicalProperties),
      op.properties c cs inputs producer = .ok p → ∀ x, (∀ i ∈ inputs, x ∈ i.outerRefs → x ∉ i.output) →
        op.RefersOutside inputs x → (x ∈ p.outerRefs ↔ x ∉ p.output)) ∧
    ∀ (S : Interpretation) (env : CteId → ColumnSet) (e : Expr) (p : LogicalProperties), e.Mapped S env →
      m.derive source e = .ok p → ∀ s s' : Scope, s'.Fits env → s.cte = s'.cte →
        (∀ x, x ∈ p.outerRefs ∨ e.Hides S x → s.binding x = s'.binding x) →
        (e.meaning S).rows s = (e.meaning S).rows s' := by
  constructor
  · intro op inputs producer p h x hown hx
    obtain ⟨raw, hraw, rfl⟩ := LogicalOp.exists_of_properties h
    have hnone : ∀ i ∈ inputs, x ∉ i.output := by
      obtain ⟨-, hnone⟩ | ⟨k, i, hi, hxi, hsiblings⟩ := hx
      · exact hnone
      · intro j hj
        obtain ⟨n, hn⟩ := List.getElem?_of_mem hj
        by_cases hnk : n = k
        · subst hnk
          cases hi.symm.trans hn
          exact hown i hj hxi
        · exact hsiblings n j hn hnk
    have hraw := LogicalOp.mem_outerRefs hraw (hx.imp And.left ?_) hnone
    · exact LogicalProperties.mem_outerRefs_completed.trans (and_iff_right hraw)
    · exact fun ⟨k, i, hi, hxi, _⟩ => ⟨i, List.mem_of_getElem? hi, hxi⟩
  · intro S env e p hmapped h s s' hfits hcte hbinding
    exact hmapped.rows_congr hfits hcte fun x hx => hbinding x (hx.mem_outerRefs_or_hides hsource hmapped.closed h)

end Expr

section

/-- A year is wanted outside, and another column has some value there. -/
def wanting (year other : Value) : Scope :=
  ⟨fun c => if c = 1 then year else if c = 5 then other else .null, fun _ => 0⟩

def saleYears : LogicalProperties := { LogicalProperties.empty with output := .singleton 2 }

/-- The sales of the year wanted outside. -/
def salesOfWanted : Expr := .ofLogical (.select isWanted) [sales]

/-- The sales of a year do not depend on anything else outside. -/
theorem outerRefs_complete_salesOfWanted :
    let S := salesIn [.int32 2024, .int32 2025]
    (∃ p, (LogicalOp.select isWanted).properties salesCatalog salesColumns [saleYears] none = .ok p ∧
      (LogicalOp.select isWanted).RefersOutside [saleYears] 1 ∧ (1 ∈ p.outerRefs ↔ 1 ∉ p.output)) ∧
    ∃ p, salesContext.memo.derive (salesContext.source salesColumns) salesOfWanted = .ok p ∧ p.outerRefs = .ofList [1] ∧
      (salesOfWanted.meaning S).rows (wanting (.int32 2024) .null) =
        (salesOfWanted.meaning S).rows (wanting (.int32 2024) (.bool true)) := by
  intro S
  obtain ⟨hoperator, htree⟩ := @Expr.outerRefs_complete _ _ salesContext.memo (salesContext.source salesColumns)
    salesCatalog salesColumns rfl
  have houtside : (LogicalOp.select isWanted).RefersOutside [saleYears] 1 := .inl ⟨by decide, by decide⟩
  have hmapped : salesOfWanted.Mapped S (fun _ => ∅) := by
    refine .operator nofun trivial fun i hi => ?_
    obtain rfl := List.mem_singleton.1 hi
    exact .operator nofun trivial nofun
  have hfits : (wanting (.int32 2024) (.bool true)).Fits (fun _ => ∅) := fun _ r hr => absurd hr (Multiset.notMem_zero r)
  refine ⟨⟨_, rfl, houtside, hoperator _ _ none _ rfl 1 (by decide) houtside⟩, _, rfl, rfl, ?_⟩
  refine htree S _ salesOfWanted _ hmapped rfl _ _ hfits rfl fun x hx => ?_
  have hother : x ≠ 5 := by
    rintro rfl
    obtain hx | hhides := hx
    · exact absurd hx (by decide)
    obtain ⟨t, ht, hx⟩ := hhides.exists_mem_columns
    obtain rfl | ht := List.mem_cons.1 ht
    · exact absurd (List.mem_singleton.1 hx) (by decide)
    · obtain rfl := List.mem_singleton.1 ht
      exact absurd (List.mem_singleton.1 hx) (by decide)
  simp only [wanting, if_neg hother]

/-- The sales, each beside the year wanted outside. -/
def salesBesideWanted : Expr := .ofLogical (.project [(1, .column 1), (2, .column 2)]) [sales]

/-- Grouping by a column from outside and passing one on hide it: nothing is said to come from outside, and yet the rows
differ with the year that is wanted there. -/
theorem outerRefs_incomplete_salesBesideWanted :
    let S := salesIn [.int32 2025]
    (∃ p, (LogicalOp.aggregate ⟨[1], [], .single⟩).properties salesCatalog salesColumns [saleYears] none = .ok p ∧
      (LogicalOp.aggregate ⟨[1], [], .single⟩).RefersOutside [saleYears] 1 ∧ 1 ∉ p.outerRefs) ∧
    ∃ p, salesContext.memo.derive (salesContext.source salesColumns) salesBesideWanted = .ok p ∧ p.outerRefs = ∅ ∧
      (salesBesideWanted.meaning S).rows (wanting (.int32 2024) .null) ≠
        (salesBesideWanted.meaning S).rows (wanting (.int32 2025) .null) := by
  intro S
  refine ⟨⟨_, rfl, .inl ⟨by decide, by decide⟩, by decide⟩, _, rfl, rfl, fun h => ?_⟩
  have hyears := congrArg (Multiset.map (fun r : Row => r 1)) h
  change ({some (.int32 2024)} : Multiset (Option Value)) = {some (.int32 2025)} at hyears
  exact absurd (Multiset.singleton_inj.1 hyears) (by decide)

end

end Cascade
