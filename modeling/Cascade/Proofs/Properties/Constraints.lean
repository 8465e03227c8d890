import Cascade.Proofs.Memo.Deriving
import Cascade.Proofs.Properties.Operators
import Cascade.Proofs.Semantics.Normalization

/-!
Derived constraints. A predicate that is collected at a filter or a join is true of the rows above it for as long as every
row comes from a row below and keeps the values of its columns. An aggregate without grouping columns has a row that comes
from none, and keeps the predicates without columns: these can be false of that row, the others hold of all rows of a tree
(`Memo.constraint_of_insert`).
-/

namespace Cascade

namespace Row

/-- Rows have the same values in the columns that both have. -/
def Agrees (a y : Row) : Prop := ∀ c v w, a c = some v → y c = some w → v = w

variable {a y z : Row} {columns right : ColumnSet} {c : ColumnId}

theorem Over.agrees (ha : a.Over columns) (hy : y.Over right) (h : ∀ c ∈ columns, c ∉ right) : a.Agrees y := by
  intro c v w hv hw
  refine absurd ((hy c).1 ?_) (h c ((ha c).1 ?_))
  · rw [hw, Option.isSome_some]
  · rw [hv, Option.isSome_some]

theorem Agrees.merge (ha : a.Agrees z) (hy : y.Agrees z) : (a.merge y).Agrees z := by
  intro c v w hv hw
  rcases Option.or_eq_some_iff.1 hv with hv | ⟨-, hv⟩
  · exact ha c v w hv hw
  · exact hy c v w hv hw

/-- A pair of rows that agree has the values of the second one. -/
theorem Agrees.merge_right (h : a.Agrees y) (hy : y.Over columns) (hc : c ∈ columns) : a.merge y c = y c := by
  obtain ⟨w, hw⟩ := Option.isSome_iff_exists.1 ((hy c).2 hc)
  cases hv : a c with
  | none => exact merge_of_none hv y
  | some v => rw [merge_of_some hv, hw, h c v w hv hw]

end Row

namespace Relation

variable {L R : Relation} {s : Scope} {a t : Row}

theorem mem_rows_times : t ∈ (L.times R).rows s ↔ ∃ a ∈ L.rows s, ∃ x ∈ R.rows s, a.merge x = t := by
  simp only [rows_times, Multiset.mem_bind, Multiset.mem_map]

/-- A row beside one of those that are evaluated for it. -/
theorem mem_rows_apply (ha : a ∈ L.rows s) {x : Row} (hx : x ∈ R.rows (s.enter a)) :
    a.merge x ∈ (L.apply .inner (fun _ => some true) R).rows s :=
  Multiset.mem_bind.2 ⟨a, ha, Multiset.mem_filter.2 ⟨Multiset.mem_map_of_mem _ hx, rfl⟩⟩

end Relation

namespace LogicalProperties

variable {F : Functions} {constants : Prop} {p l r : LogicalProperties} {rows : Multiset Row}

/-- The predicates that speak of produced columns only are true of the rows, those without columns if `constants`. -/
def Ensures (p : LogicalProperties) (F : Functions) (constants : Prop) (rows : Multiset Row) : Prop :=
  ∀ x ∈ p.constraint, (∀ c ∈ x.columns, c ∈ p.output) → (constants ∨ ∃ c, c ∈ x.columns) →
    ∀ r ∈ rows, x.Certain F r.values

/-- All predicates speak of produced columns, and are true of the rows, those without columns if `constants`. -/
structure Upholds (p : LogicalProperties) (F : Functions) (constants : Prop) (rows : Multiset Row) : Prop where
  rows_over : ∀ r ∈ rows, r.Over p.output
  within : ∀ x ∈ p.constraint, ∀ c ∈ x.columns, c ∈ p.output
  certain : ∀ x ∈ p.constraint, (constants ∨ ∃ c, c ∈ x.columns) → ∀ r ∈ rows, x.Certain F r.values

theorem ensures_of_constraint (h : p.constraint = ∅) : p.Ensures F constants rows := fun x hx =>
  absurd (h ▸ hx) (SortedSet.not_mem_empty x)

/-- What is kept of the constraint when the properties are completed. -/
theorem Ensures.completed (h : p.Ensures F constants rows) (hover : ∀ r ∈ rows, r.Over p.output) :
    p.completed.Upholds F constants rows where
  rows_over := hover
  within := (settled_completed p).within.constraint
  certain x hx := h x (mem_constraint_completed.1 hx).1 (mem_constraint_completed.1 hx).2

/-- A condition that is true tells what its conjuncts say. -/
theorem certain_of_condition {on x : Scalar} {b : Binding} {t : Row} {columns : ColumnSet} (hon : on.Certain F b)
    (hx : x ∈ on.normalConjuncts) (hcolumns : ∀ c ∈ x.columns, c ∈ columns) (hb : ∀ c ∈ columns, b c = t.values c) :
    x.Certain F t.values :=
  (hon.mem_normalConjuncts x hx).congr fun c hc => hb c (hcolumns c hc)

namespace Upholds

variable {x : Scalar} {b : Binding}

/-- A predicate stays true where the produced columns keep their values. -/
theorem certain_of_agree (h : p.Upholds F constants rows) {r t : Row} (hr : r ∈ rows) (ht : ∀ c ∈ p.output, t c = r c)
    (hx : x ∈ p.constraint) (hcounts : constants ∨ ∃ c, c ∈ x.columns) : x.Certain F t.values :=
  (h.certain x hx hcounts r hr).congr fun c hc => (Row.values_congr (ht c (h.within x hx c hc))).symm

theorem filter (h : p.Upholds F constants rows) {on : Scalar} (hlogical : ∀ r ∈ rows, on.Logical F (b.with r)) :
    (p.restrict on).Ensures F constants (rows.filter (fun r => on.holds F (b.with r) = true)) := by
  intro x hx hout hcounts r hr
  obtain ⟨hr, hon⟩ := Multiset.mem_filter.1 hr
  rcases SortedSet.mem_union.1 hx with hx | hx
  · exact h.certain x hx hcounts r hr
  · exact certain_of_condition ⟨hlogical r hr, hon⟩ hx hout fun c hc => Binding.with_eq_values (h.rows_over r hr) hc b

theorem rename (h : p.Upholds F constants rows) {f : Row → Row} {rename : ColumnId → Option ColumnId}
    (hf : ∀ c ∈ p.output, ∀ d, rename c = some d → ∀ r ∈ rows, f r d = r c)
    (hx : x ∈ renameConstraint p.constraint rename) (hcounts : constants ∨ ∃ c, c ∈ x.columns) {t : Row}
    (ht : t ∈ rows.map f) : x.Certain F t.values := by
  obtain ⟨r, hr, rfl⟩ := Multiset.mem_map.1 ht
  obtain ⟨y, hy, rfl⟩ := List.mem_map.1 (SortedSet.mem_ofList.1 hx)
  obtain ⟨hy, hnamed⟩ := List.mem_filter.1 hy
  have hcounts : constants ∨ ∃ c, c ∈ y.columns := by
    refine hcounts.imp_right fun ⟨c, hc⟩ => ?_
    obtain ⟨d, hd, -⟩ := Scalar.mem_columns_mapColumns.1 (Scalar.mem_columns_normalize.1 hc)
    exact ⟨d, hd⟩
  refine ((h.certain y hy hcounts r hr).congr fun c hc => ?_).mapColumns.normalize
  obtain ⟨d, hd⟩ := Option.isSome_iff_exists.1 (List.all_eq_true.1 hnamed c hc)
  rw [hd, Option.getD_some]
  exact (Row.values_congr (hf c (h.within y hy c hc) d hd r hr)).symm

theorem project (h : p.Upholds F constants rows) {l : List Assignment}
    (hl : ∀ x ∈ l, ∀ y ∈ l, x.1 = y.1 → x.2 = y.2) (b : Binding) :
    (ofProject l p).Ensures F constants
      (rows.map (fun r => .ofPairs (l.map (fun a => (a.1, a.2.eval F (b.with r)))))) := fun _ hx _ hcounts _ ht =>
  h.rename (fun _ hc _ hd r hr => ofPairs_project hl F b (h.rows_over r hr) hc hd) hx hcounts ht

theorem read (h : p.Upholds F constants rows) {q : LogicalProperties} {r : CteRead} (hq : ofCteConsumer r p = .ok q)
    (hcolumns : r.columns.Nodup) (b : Binding) :
    q.Ensures F constants (rows.map (fun t => .ofPairs (r.columns.zipIdx.map (fun a =>
      (a.1, (r.producerColumns[a.2]?).elim .null (b.with t)))))) := by
  unfold ofCteConsumer at hq
  split at hq
  · cases hq
  cases hq
  exact fun _ hx _ hcounts _ ht =>
    h.rename (fun _ hc _ hd t ht => ofPairs_read hcolumns b (h.rows_over t ht) hc hd) hx hcounts ht

/-- The row of a group has the values that some row has in the grouping columns, if there are any. Without them it comes
from no row, and just the predicates without columns are left. -/
theorem aggregate (h : p.Upholds F constants rows) {a : Aggregation} (hfresh : ∀ x ∈ a.aggregates, x.1 ∉ p.output)
    (hsome : constants → a.groupBy = [] → ∀ x ∈ p.constraint, ∃ c, c ∈ x.columns) (b : Binding)
    (cells : List (ColumnId × Value) → List (ColumnId × Value)) :
    (ofAggregate a p).Ensures F constants
      ((Relation.groupKeys a.groupBy b rows).map (fun key => .ofPairs (key ++ cells key))) := by
  intro x hx hout hcounts t ht
  obtain ⟨key, hkey, rfl⟩ := Multiset.mem_map.1 ht
  have hgroup : ∀ c ∈ x.columns, c ∈ a.groupBy := by
    intro c hc
    refine (SortedSet.mem_insertAll.1 (hout c hc)).elim SortedSet.mem_ofList.1 fun hnew => ?_
    obtain ⟨y, hy, rfl⟩ := List.mem_map.1 hnew
    exact absurd (h.within x hx _ hc) (hfresh y hy)
  have hne : a.groupBy ≠ [] := by
    intro hnil
    obtain ⟨c, hc⟩ := hcounts.elim (fun hconstants => hsome hconstants hnil x hx) id
    exact absurd (hnil ▸ hgroup c hc) List.not_mem_nil
  obtain ⟨r, hr, -, hvalues⟩ := exists_of_groupKey h.rows_over hne hkey
  refine (h.certain x hx hcounts r hr).congr fun c hc => ?_
  exact (Row.values_congr (hvalues _ c (hgroup c hc) (h.within x hx c hc))).symm

section

variable {L : Multiset Row} {f : Row → Multiset Row} {on : Scalar}

/-- What a join makes of the left rows, each with right rows of its own. -/
theorem contributions {type : JoinType} (htype : type ≠ .rightOuter) (hL : l.Upholds F constants L)
    (hf : ∀ a ∈ L, r.Upholds F constants (f a))
    (hagree : type = .inner → ∀ a ∈ L, ∀ y ∈ f a, a.Agrees y)
    (hlogical : ∀ a ∈ L, ∀ y ∈ f a, on.Logical F (b.with (a.merge y))) (pad : Row) :
    (ofJoin type on l r).Ensures F constants
      (L.bind fun a => type.contribution (fun t => on.truth F (b.with t)) pad a (f a)) := by
  intro x hx hout hcounts t ht
  obtain ⟨a, ha, ht⟩ := Multiset.mem_bind.1 ht
  have hleft : x ∈ l.constraint → x.Certain F t.values := fun hx =>
    hL.certain_of_agree ha (fun _ hc => JoinType.eq_of_mem_contribution ht (hL.rows_over a ha) hc) hx hcounts
  cases type with
  | rightOuter => exact absurd rfl htype
  | leftOuter | leftAntiSemi | leftAntiSemiNotIn => exact hleft hx
  | inner =>
    obtain ⟨hpair, hon⟩ := Multiset.mem_filter.1 ht
    obtain ⟨y, hy, rfl⟩ := Multiset.mem_map.1 hpair
    rcases SortedSet.mem_union.1 hx with hx | hx
    · refine (SortedSet.mem_union.1 hx).elim hleft fun hx => (hf a ha).certain_of_agree hy (fun c hc => ?_) hx hcounts
      exact (hagree rfl a ha y hy).merge_right ((hf a ha).rows_over y hy) hc
    · refine certain_of_condition ⟨hlogical a ha y hy, Scalar.holds_iff.2 hon⟩ hx hout fun c hc => ?_
      exact Binding.with_eq_values ((hL.rows_over a ha).merge ((hf a ha).rows_over y hy)) hc b
  | leftSemi =>
    obtain ⟨rfl, y, hy, hon⟩ := JoinType.exists_match_of_mem_semi ht
    rcases SortedSet.mem_union.1 hx with hx | hx
    · exact hleft hx
    · refine certain_of_condition ⟨hlogical t ha y hy, Scalar.holds_iff.2 hon⟩ hx hout fun c hc => ?_
      exact Binding.with_of_some (Row.merge_of_some ((hL.rows_over t ha).eq_values hc) y)

end

end Upholds

section

variable {L R : Relation} {s : Scope}

/-- A right outer join keeps the rows of its right input, padded or not. -/
theorem Upholds.join (hL : l.Upholds F constants (L.rows s)) (hR : r.Upholds F constants (R.rows s)) (type : JoinType)
    (hinner : type = .inner → ∀ a ∈ L.rows s, ∀ y ∈ R.rows s, a.Agrees y)
    (houter : type = .rightOuter → ∀ c ∈ L.columns, c ∉ R.columns) (on : Scalar)
    (hlogical : ∀ t ∈ (L.times R).rows s, on.Logical F (s.binding.with t)) :
    (ofJoin type on l r).Ensures F constants ((L.join type (fun b => on.truth F b) R).rows s) := by
  by_cases htype : type = .rightOuter
  · subst htype
    intro x hx _ hcounts t ht
    have hpair : ∃ a y : Row, a.Over L.columns ∧ y ∈ R.rows s ∧ t = a.merge y := by
      rcases Multiset.mem_add.1 ht with ht | ht
      · obtain ⟨a, ha, ht⟩ := Multiset.mem_bind.1 ht
        obtain ⟨y, hy, rfl⟩ := Multiset.mem_map.1 (Multiset.mem_of_mem_filter ht)
        exact ⟨a, y, L.rows_over s a ha, hy, rfl⟩
      · obtain ⟨y, hy, rfl⟩ := Multiset.mem_map.1 ht
        exact ⟨_, y, Row.over_nulls L.columns, Multiset.mem_of_mem_filter hy, rfl⟩
    obtain ⟨a, y, ha, hy, rfl⟩ := hpair
    have hagree := ha.agrees (R.rows_over s y hy) (houter rfl)
    exact hR.certain_of_agree hy (fun c hc => hagree.merge_right (hR.rows_over y hy) hc) hx hcounts
  · simp only [Relation.join, if_neg htype, add_zero]
    refine contributions htype hL (fun _ _ => hR) hinner (fun a ha y hy => ?_) _
    exact hlogical _ (Relation.mem_rows_times.2 ⟨a, ha, y, hy, rfl⟩)

theorem Upholds.apply (hL : l.Upholds F constants (L.rows s))
    (hR : ∀ a ∈ L.rows s, r.Upholds F constants (R.rows (s.enter a))) {type : ApplyType}
    (hinner : type = .inner → ∀ a ∈ L.rows s, ∀ y ∈ R.rows (s.enter a), a.Agrees y) (on : Scalar)
    (hlogical : ∀ t ∈ (L.apply .inner (fun _ => some true) R).rows s, on.Logical F (s.binding.with t)) :
    (ofJoin type.joinType on l r).Ensures F constants ((L.apply type.joinType (fun b => on.truth F b) R).rows s) := by
  refine contributions ?_ hL hR (fun h => hinner ?_) (fun a ha y hy => hlogical _ (Relation.mem_rows_apply ha hy)) _
  · cases type <;> decide
  · cases type <;> first | rfl | cases h

theorem Upholds.times (hL : l.Upholds F constants (L.rows s)) (hR : r.Upholds F constants (R.rows s))
    (hagree : ∀ a ∈ L.rows s, ∀ y ∈ R.rows s, a.Agrees y) :
    (ofJoin .inner .true l r).Upholds F constants ((L.times R).rows s) := by
  have hwithin : ∀ x ∈ (ofJoin .inner .true l r).constraint, ∀ c ∈ x.columns, c ∈ l.output ∪ r.output := by
    intro x hx c hc
    have hx := (SortedSet.mem_union.1 hx).resolve_right List.not_mem_nil
    exact SortedSet.mem_union.2 ((SortedSet.mem_union.1 hx).imp (hL.within x · c hc) (hR.within x · c hc))
  refine ⟨fun t ht => ?_, hwithin, fun x hx => ?_⟩
  · obtain ⟨a, ha, y, hy, rfl⟩ := Relation.mem_rows_times.1 ht
    exact (hL.rows_over a ha).merge (hR.rows_over y hy)
  · exact hL.join hR .inner (fun _ => hagree) nofun .true (fun _ _ => trivial) x hx (hwithin x hx)

/-- Inputs joined one after the other. -/
theorem Upholds.foldl {ps : List LogicalProperties} {Rs : List Relation} (hL : l.Upholds F constants (L.rows s))
    (h : List.Forall₂ (fun p R => p.Upholds F constants (R.rows s)) ps Rs)
    (hagree : (L :: Rs).Pairwise (fun L R => ∀ a ∈ L.rows s, ∀ y ∈ R.rows s, a.Agrees y)) :
    (ps.foldl (ofJoin .inner .true) l).Upholds F constants ((L.times (.product Rs)).rows s) := by
  induction h generalizing l L with
  | nil => exact (Relation.times_unit L).symm ▸ hL
  | @cons p R ps Rs hp _ ih =>
    obtain ⟨hfirst, hrest⟩ := List.pairwise_cons.1 hagree
    obtain ⟨hsecond, hrest⟩ := List.pairwise_cons.1 hrest
    change Upholds _ F constants ((L.times (R.times (.product Rs))).rows s)
    rw [← Relation.times_assoc]
    refine ih (hL.times hp (hfirst R (List.mem_cons_self ..))) (List.pairwise_cons.2 ⟨fun T hT t ht z hz => ?_, hrest⟩)
    obtain ⟨a, ha, y, hy, rfl⟩ := Relation.mem_rows_times.1 ht
    exact (hfirst T (List.mem_cons_of_mem _ hT) a ha z hz).merge (hsecond T hT y hy z hz)

end

end LogicalProperties

namespace LogicalOp

open LogicalProperties

/-- The condition by which an operator chooses among rows. -/
def condition? : LogicalOp → Option Scalar
  | select e | join _ e | naryJoin e | apply _ e => some e
  | _ => none

/-- The rows among which an operator chooses by its condition. -/
def candidates : LogicalOp → List Relation → Relation
  | select _, [R] => R
  | join _ _, [L, R] => L.times R
  | naryJoin _, Rs => .product Rs
  | apply _ _, [L, R] => L.apply .inner (fun _ => some true) R
  | _, _ => .empty

/-- Columns stand for one thing each. Rows that are paired agree in the columns that both have, such as a column from
outside that both pass on; the inputs of a right outer join have no columns in common, since a column of both is padded.
New columns are new. -/
def Separates : LogicalOp → List Relation → Prop
  | join type _, [L, R] => (type = .inner → ∀ s, ∀ a ∈ L.rows s, ∀ y ∈ R.rows s, a.Agrees y) ∧
      (type = .rightOuter → ∀ c ∈ L.columns, c ∉ R.columns)
  | naryJoin _, Rs => ∀ s, Rs.Pairwise (fun L R => ∀ a ∈ L.rows s, ∀ y ∈ R.rows s, a.Agrees y)
  | apply type _, [L, R] => type = .inner → ∀ s, ∀ a ∈ L.rows s, ∀ y ∈ R.rows (s.enter a), a.Agrees y
  | project l, _ => ∀ x ∈ l, ∀ y ∈ l, x.1 = y.1 → x.2 = y.2
  | aggregate a, Rs => ∀ x ∈ a.aggregates, ∀ R ∈ Rs, x.1 ∉ R.columns
  | cteConsumer r, _ => r.columns.Nodup
  | _, _ => True

variable {S : Interpretation} {constants : Prop} {c : Catalog} {cs : Columns} {op : LogicalOp}
  {ps : List LogicalProperties} {Rs : List Relation} {producer : Option LogicalProperties} {raw : LogicalProperties}
  {s : Scope}

/-- One operator, given what is known of its inputs and of the common table expression it reads. -/
theorem ensures_meaning (h : op.rawProperties c cs producer ps = .ok raw)
    (hinputs : List.Forall₂ (fun p R => R.columns = p.output ∧ p.Upholds S.toFunctions constants (R.rows s)) ps Rs)
    (hop : op.Separates Rs)
    (hlogical : ∀ x, op.condition? = some x → ∀ r ∈ (op.candidates Rs).rows s, x.Logical S.toFunctions (s.binding.with r))
    (hsome : constants → ∀ a, op = .aggregate a → a.groupBy = [] → ∀ p ∈ ps, ∀ x ∈ p.constraint, ∃ c, c ∈ x.columns)
    (hproducer : ∀ r, op = .cteConsumer r → ∀ p, producer = some p → p.Upholds S.toFunctions constants (s.cte r.cte))
    (happly : ∀ type on, op ≠ .apply type on) (hanchor : ∀ cte, op ≠ .cteAnchor cte) :
    raw.Ensures S.toFunctions constants ((op.meaning S Rs).rows s) := by
  unfold rawProperties at h
  split at h
  case h_1 g =>
    obtain ⟨t, -, h⟩ := exists_of_bind_ok h
    obtain ⟨columns, -, h⟩ := exists_of_bind_ok h
    cases h
    exact ensures_of_constraint rfl
  case h_2 e p =>
    obtain _ | ⟨⟨-, hp⟩, _ | _⟩ := hinputs
    cases h
    exact hp.filter (hlogical e rfl)
  case h_3 l p =>
    obtain _ | ⟨⟨-, hp⟩, _ | _⟩ := hinputs
    cases h
    have hrows := hp.project hop s.binding
    rwa [← Function.comp_def, ← Multiset.map_map] at hrows
  case h_4 type on l r =>
    obtain _ | ⟨⟨-, hl⟩, _ | ⟨⟨-, hr⟩, _ | _⟩⟩ := hinputs
    cases h
    exact hl.join hr type (fun htype => hop.1 htype s) hop.2 on (hlogical on rfl)
  case h_5 on p ps =>
    obtain _ | ⟨⟨-, hp⟩, hrest⟩ := hinputs
    cases h
    exact (hp.foldl (hrest.imp fun _ _ => And.right) (hop s)).filter (hlogical on rfl)
  case h_6 a p =>
    obtain _ | ⟨⟨hR, hp⟩, _ | _⟩ := hinputs
    rename_i R
    cases h
    have hfresh : ∀ x ∈ a.aggregates, x.1 ∉ p.output := fun x hx => hR ▸ hop x hx R (List.mem_singleton.2 rfl)
    have hrows := hp.aggregate hfresh (fun hconstants hnil => hsome hconstants a rfl hnil p (List.mem_singleton.2 rfl))
      s.binding fun key => a.aggregates.map fun x =>
        (x.1, x.2.value S s.binding (Relation.groupMembers a.groupBy s.binding (R.rows s) key))
    rwa [← Function.comp_def, ← Multiset.map_map] at hrows
  case h_7 l p =>
    obtain _ | ⟨⟨-, hp⟩, _ | _⟩ := hinputs
    cases h
    exact fun x hx _ hcounts r hr => hp.certain x hx hcounts r (Multiset.mem_of_le (S.limit_le l _) hr)
  case h_8 u p ps =>
    unfold ofUnionAll at h
    split at h
    · cases h
    split at h
    · cases h
    cases h
    exact ensures_of_constraint (keys_constraint_gathered (p :: ps)).2
  case h_9 v =>
    unfold ofValues at h
    split at h
    · cases h
    cases h
    exact ensures_of_constraint rfl
  case h_10 =>
    cases h
    exact ensures_of_constraint rfl
  case h_11 type on l r => exact absurd rfl (happly type on)
  case h_12 cte _ _ => exact absurd rfl (hanchor cte)
  case h_13 r =>
    cases hinputs
    split at h
    · rename_i p
      have hread := (hproducer r rfl p rfl).read h hop s.binding
      rwa [← Function.comp_def, ← Multiset.map_map] at hread
    · cases h
  case h_14 => cases h

end LogicalOp

/-- Whatever is known below aggregates without grouping columns is about some column. -/
def Memo.Columnar {σ κ : Type} (m : Memo σ κ) (source : PropertySource σ) (e : Expr) : Prop :=
  ∀ op inputs, .ofLogical op inputs ∈ e.subtrees → ∀ a, op = .aggregate a → a.groupBy = [] →
    ∀ i ∈ inputs, ∀ p, m.derive source i = .ok p → ∀ x ∈ p.constraint, ∃ c, c ∈ x.columns

namespace Expr

open LogicalProperties

variable {S : Interpretation}

/-- Every operator of a tree tells the columns of its inputs apart. -/
def Separates (S : Interpretation) (e : Expr) : Prop := ∀ op inputs, .ofLogical op inputs ∈ e.subtrees →
  op.Separates (inputs.map (meaning S))

theorem separates_ofLogical {op : LogicalOp} {inputs : List Expr} : (ofLogical op inputs).Separates S ↔
    op.Separates (inputs.map (meaning S)) ∧ ∀ i ∈ inputs, i.Separates S :=
  forall_ofLogical_mem_subtrees

theorem columnar_ofLogical {σ κ : Type} {m : Memo σ κ} {source : PropertySource σ} {op : LogicalOp}
    {inputs : List Expr} : m.Columnar source (ofLogical op inputs) ↔
      (∀ a, op = .aggregate a → a.groupBy = [] → ∀ i ∈ inputs, ∀ p, m.derive source i = .ok p →
        ∀ x ∈ p.constraint, ∃ c, c ∈ x.columns) ∧ ∀ i ∈ inputs, m.Columnar source i :=
  forall_ofLogical_mem_subtrees

theorem Scoped.closed {producer : CteId → Expr} {known : List CteId} {e : Expr} (h : e.Scoped producer known) :
    e.Closed := by
  induction h with
  | anchor _ _ ihproducer ihbody =>
    exact closed_ofLogical (List.forall_mem_cons.2 ⟨ihproducer, List.forall_mem_singleton.2 ihbody⟩)
  | operator _ _ _ ih => exact closed_ofLogical ih

/-- In the evaluation of a tree in a scope a condition is evaluated, with these values of columns. The right input of an
apply is evaluated for every left row, and the body of a common table expression where it is known. -/
inductive Asks (S : Interpretation) : Expr → Scope → Scalar → Binding → Prop
  | operator {op : LogicalOp} {inputs : List Expr} {s : Scope} {x : Scalar} {r : Row} (hx : op.condition? = some x)
    (hr : r ∈ (op.candidates (inputs.map (meaning S))).rows s) : Asks S (.ofLogical op inputs) s x (s.binding.with r)
  | input {op : LogicalOp} {inputs : List Expr} {i : Expr} {s : Scope} {x : Scalar} {b : Binding}
    (happly : ∀ type on, op ≠ .apply type on) (hanchor : ∀ cte, op ≠ .cteAnchor cte) (hi : i ∈ inputs)
    (h : Asks S i s x b) : Asks S (.ofLogical op inputs) s x b
  | applyLeft {type : ApplyType} {on : Scalar} {l r : Expr} {s : Scope} {x : Scalar} {b : Binding} (h : Asks S l s x b) :
    Asks S (.ofLogical (.apply type on) [l, r]) s x b
  | applyRight {type : ApplyType} {on : Scalar} {l r : Expr} {s : Scope} {a : Row} {x : Scalar} {b : Binding}
    (ha : a ∈ (l.meaning S).rows s) (h : Asks S r (s.enter a) x b) : Asks S (.ofLogical (.apply type on) [l, r]) s x b
  | anchored {cte : CteId} {anchored body : Expr} {s : Scope} {x : Scalar} {b : Binding} (h : Asks S anchored s x b) :
    Asks S (.ofLogical (.cteAnchor cte) [anchored, body]) s x b
  | body {cte : CteId} {anchored body : Expr} {s : Scope} {x : Scalar} {b : Binding}
    (h : Asks S body { s with cte := Function.update s.cte cte ((anchored.meaning S).rows s) } x b) :
    Asks S (.ofLogical (.cteAnchor cte) [anchored, body]) s x b

/-- A condition that is evaluated is one of an operator of the tree. -/
theorem Asks.exists_condition {e : Expr} {s : Scope} {x : Scalar} {b : Binding} (h : e.Asks S s x b) :
    ∃ op inputs, ofLogical op inputs ∈ e.subtrees ∧ op.condition? = some x := by
  have hinput : ∀ {op : LogicalOp} {inputs : List Expr} {i : Expr}, i ∈ inputs →
      (∃ op' below, ofLogical op' below ∈ i.subtrees ∧ op'.condition? = some x) →
      ∃ op' below, ofLogical op' below ∈ (ofLogical op inputs).subtrees ∧ op'.condition? = some x :=
    fun hi ⟨op', below, hmem, hx⟩ => ⟨op', below, (mem_subtrees_node _ _).2 (.inr ⟨_, hi, hmem⟩), hx⟩
  induction h with
  | operator hx _ => exact ⟨_, _, mem_subtrees_self _, hx⟩
  | input _ _ hi _ ih => exact hinput hi (ih hinput)
  | applyLeft _ ih | anchored _ ih => exact hinput (List.mem_cons_self ..) (ih hinput)
  | applyRight _ _ ih | body _ ih => exact hinput (List.mem_cons_of_mem _ (List.mem_singleton.2 rfl)) (ih hinput)

variable {σ κ : Type} {m : Memo σ κ} {source : PropertySource σ} {constants : Prop} {c : Catalog} {cs : Columns}
  {producer : CteId → Expr} {e : Expr} {p : LogicalProperties}

/-- What the predicates that are derived of a tree rely on when it is evaluated in a scope. -/
structure Reliable (e : Expr) (m : Memo σ κ) (source : PropertySource σ) (S : Interpretation) (constants : Prop)
    (s : Scope) : Prop where
  separates : e.Separates S
  columnar : constants → m.Columnar source e
  logical : ∀ x b, e.Asks S s x b → x.Logical S.toFunctions b

/-- An input relies on the same in the scope that the operator evaluates it in. -/
theorem Reliable.of_mem {op : LogicalOp} {inputs : List Expr} {s s' : Scope} {i : Expr}
    (h : (ofLogical op inputs).Reliable m source S constants s) (hi : i ∈ inputs)
    (hasks : ∀ {x b}, i.Asks S s' x b → (ofLogical op inputs).Asks S s x b) : i.Reliable m source S constants s' where
  separates := (separates_ofLogical.1 h.separates).2 i hi
  columnar hconstants := (columnar_ofLogical.1 (h.columnar hconstants)).2 i hi
  logical x b hx := h.logical x b (hasks hx)

/-- The rows of a tree have the predicates that are derived of it, if the rows of the common table expressions that are
known from outside have those of their producers. -/
theorem upholds_of_derive (hsource : source.logical = LogicalOp.properties c cs) (d : m.Derived source producer)
    {known : List CteId} (he : e.Scoped producer known) (h : m.derive source e = .ok p) {s : Scope}
    (hreliable : e.Reliable m source S constants s)
    (hctes : ∀ r : CteRead, r.cte ∈ known → ∀ q, m.producerProperties? (.cteConsumer r) = some q →
      q.Upholds S.toFunctions constants (s.cte r.cte)) : p.Upholds S.toFunctions constants ((e.meaning S).rows s) := by
  have hcolumns : ∀ {known i q}, i.Scoped producer known → m.derive source i = .ok q →
      (i.meaning S).columns = q.output := fun hi hq => columns_meaning hsource (fun g hg => absurd hg (hi.closed g)) hq
  induction he generalizing p s with
  | @anchor known cte body hproducer hbody ihproducer ihbody =>
    obtain ⟨ps, hps, hp⟩ := derive_logical_iff.1 h
    obtain _ | @⟨_, q, _, _, hq, _ | @⟨_, r, _, _, hr, _ | _⟩⟩ := hps
    rw [hsource] at hp
    cases hp
    have hread := ihproducer hq (hreliable.of_mem (List.mem_cons_self ..) .anchored) hctes
    have hbelow := hreliable.of_mem (List.mem_cons_of_mem _ (List.mem_singleton.2 rfl)) .body
    -- the body reads the rows that the producer has where the anchor stands
    have hrows := ihbody hr hbelow fun read hin q' hq' => by
      dsimp only
      by_cases hcte : read.cte = cte
      · have hsame := (hcte ▸ d.derive_producer hq').symm.trans hq
        cases hsame
        rw [hcte, Function.update_self]
        exact hread
      · rw [Function.update_of_ne hcte]
        exact hctes read ((List.mem_cons.1 hin).resolve_left hcte) q' hq'
    exact Ensures.completed (fun x hx _ => hrows.certain x hx) hrows.rows_over
  | @operator known op inputs hop hread hinputs ih =>
    have hover := ((ofLogical op inputs).meaning S).rows_over s
    rw [hcolumns (.operator hop hread hinputs) h] at hover
    have hapart := (separates_ofLogical.1 hreliable.separates).1
    obtain ⟨ps, hps, hp⟩ := derive_logical_iff.1 h
    rw [hsource] at hp
    obtain ⟨raw, hraw, rfl⟩ := LogicalOp.exists_of_properties hp
    refine Ensures.completed ?_ hover
    rw [meaning_ofLogical]
    by_cases happly : ∃ type on, op = .apply type on
    · obtain ⟨type, on, rfl⟩ := happly
      obtain _ | @⟨i, l, _, _, hl, _ | @⟨j, r, _, _, hr, _ | _⟩⟩ := hps <;> try cases hraw
      have hj : j ∈ [i, j] := List.mem_cons_of_mem _ (List.mem_singleton.2 rfl)
      have hleft := ih i (List.mem_cons_self ..) hl (hreliable.of_mem (List.mem_cons_self ..) .applyLeft) hctes
      have hright := fun a (ha : a ∈ (i.meaning S).rows s) => ih j hj hr (hreliable.of_mem hj (.applyRight ha)) hctes
      refine hleft.apply hright (fun htype => hapart htype s) on fun t ht => ?_
      exact hreliable.logical on _ (.operator rfl ht)
    · have happly : ∀ type on, op ≠ .apply type on := fun type on h => happly ⟨type, on, h⟩
      have hbelow : List.Forall₂ (fun p R => R.columns = p.output ∧ p.Upholds S.toFunctions constants (R.rows s)) ps
          (inputs.map (meaning S)) := by
        rw [List.forall₂_map_right_iff]
        refine List.Forall₂.flip (((List.forall₂_and_left _ _).2 ⟨fun e he => he, hps⟩).imp fun i q ⟨hi, hq⟩ => ?_)
        exact ⟨hcolumns (hinputs i hi) hq, ih i hi hq (hreliable.of_mem hi (.input happly hop hi)) hctes⟩
      refine LogicalOp.ensures_meaning hraw hbelow hapart (fun x hx r hr => hreliable.logical x _ (.operator hx hr))
        ?_ (fun r hr q hq => hctes r (hread r hr) q (hr ▸ hq)) happly hop
      intro hconstants a ha hnil q hq
      obtain ⟨i, hi, hq⟩ := exists_of_mem_right hps hq
      exact (columnar_ofLogical.1 (hreliable.columnar hconstants)).1 a ha hnil i hi q hq

end Expr

/-- A predicate in the constraint of a tree that is inserted is true of every row that the tree has in any scope where
conditions combine truth values: if it is about some column, or else if nothing without columns is known below aggregates
without grouping columns. -/
theorem Memo.constraint_of_insert {σ κ : Type} [LT κ] [DecidableLT κ] {source : PropertySource σ} {S : Interpretation}
    {c : Catalog} {cs : Columns} (hsource : source.logical = LogicalOp.properties c cs) {e : Expr}
    {producer : CteId → Expr} (he : e.Scoped producer []) (hseparates : e.Separates S) {verify : Bool}
    {limit : Option Nat} {g : GroupId} {m : Memo σ κ} (h : (empty verify limit).insert source e = (.ok g, m)) :
    ∃ x, m.group g = .ok x ∧ ∀ y ∈ x.logical.constraint, ((∃ c, c ∈ y.columns) ∨ m.Columnar source e) →
      ∀ s, (∀ x b, e.Asks S s x b → x.Logical S.toFunctions b) →
        ∀ r ∈ (e.meaning S).rows s, y.holds S.toFunctions r.values = true := by
  obtain ⟨d, p, hp, hgroup⟩ := agree_of_insert (PropertySource.definite_of_properties hsource) he
    (wellFormed_empty verify limit) (derived_empty source producer verify limit) h
  obtain ⟨x, hx, rfl⟩ := Option.map_eq_some_iff.1 (derive_group_iff.1 hgroup).2
  have hfound : m.group g = .ok x := by
    unfold group
    rw [hx]
  refine ⟨x, hfound, fun y hy hcounts s hlogical r hr => ?_⟩
  have hrows := Expr.upholds_of_derive hsource d he hp ⟨hseparates, id, hlogical⟩ fun _ hr => absurd hr List.not_mem_nil
  exact (hrows.certain y hy hcounts.symm r hr).holds

section

/-- Orders have a customer and an amount. -/
def orders : Expr :=
  .ofLogical (.values ⟨[1, 2], [[.int32 7, .int32 10], [.int32 8, .int32 20], [.int32 7, .int32 30]]⟩) []

/-- The number of orders that satisfy a condition, by grouping columns. -/
def orderCounts (filter : Scalar) (groupBy : List ColumnId) : Expr :=
  .ofLogical (.aggregate ⟨groupBy, [(3, ⟨.count, [], false⟩)], .single⟩) [.ofLogical (.select filter) [orders]]

def insertedOrders (e : Expr) : Except PlanError GroupId × Memo Unit Nat :=
  (Memo.empty true none).insert ⟨LogicalOp.properties ⟨⟨[]⟩, ∅⟩ ⟨#[]⟩, fun _ _ _ => .ok ()⟩ e

def ofCustomer : Scalar := .binary (.column 1) .eq (.literal (.int32 7))

def ofAmount : Scalar := .binary (.literal (.int32 5)) .lt (.column 2)

theorem constraint_of_insert_orderCounts :
    let S := Interpretation.ofTables (fun _ => 0) (fun _ => "")
    let e := orderCounts (.binary ofCustomer .and ofAmount) [1]
    ∃ x, (insertedOrders e).2.group ⟨2⟩ = .ok x ∧ x.logical.constraint = .singleton ofCustomer ∧
      ∀ s, ∀ r ∈ (e.meaning S).rows s, ofCustomer.holds S.toFunctions r.values = true := by
  intro S e
  have hinserted : (insertedOrders e).1 = .ok ⟨2⟩ := by decide +kernel
  have hconstraint : ((insertedOrders e).2.group ⟨2⟩).map (fun x : Group Unit => x.logical.constraint) =
      .ok (.singleton ofCustomer) := by decide +kernel
  have hscoped : e.Scoped (fun _ => orders) [] := by
    refine .operator nofun nofun (List.forall_mem_singleton.2 ?_)
    refine .operator nofun nofun (List.forall_mem_singleton.2 ?_)
    exact .operator nofun nofun nofun
  have hseparates : e.Separates S := by
    refine Expr.separates_ofLogical.2 ⟨?_, List.forall_mem_singleton.2 ?_⟩
    · exact List.forall_mem_singleton.2 (List.forall_mem_singleton.2 (by decide))
    · exact Expr.separates_ofLogical.2 ⟨trivial, List.forall_mem_singleton.2 (Expr.separates_ofLogical.2 ⟨trivial, nofun⟩)⟩
  have hlogical : ∀ s x b, e.Asks S s x b → x.Logical S.toFunctions b := by
    intro s x b h
    obtain ⟨op, inputs, hmem, hx⟩ := h.exists_condition
    rcases List.mem_cons.1 hmem with hmem | hmem
    · cases hmem
      cases hx
    rcases List.mem_cons.1 hmem with hmem | hmem
    · cases hmem
      cases hx
      exact ⟨⟨trivial, trivial, nofun⟩, ⟨trivial, trivial, nofun⟩,
        fun _ => ⟨Scalar.isTruth_eval_binary .., Scalar.isTruth_eval_binary ..⟩⟩
    · cases List.mem_singleton.1 hmem
      cases hx
  obtain ⟨x, hx, hholds⟩ := Memo.constraint_of_insert rfl hscoped hseparates
    (Prod.ext hinserted rfl : insertedOrders e = (.ok ⟨2⟩, (insertedOrders e).2))
  rw [hx] at hconstraint
  have hconstraint : x.logical.constraint = .singleton ofCustomer := Except.ok.inj hconstraint
  refine ⟨x, hx, hconstraint, fun s => hholds ofCustomer ?_ (.inl ⟨1, by decide⟩) s (hlogical s)⟩
  rw [hconstraint]
  exact List.mem_singleton.2 rfl

def impossible : Scalar := .binary (.literal (.int32 1)) .eq (.literal (.int32 2))

/-- No order satisfies the condition, and yet there is a number of orders. -/
theorem constraint_false_orderCounts :
    let e := orderCounts impossible []
    (insertedOrders e).1 = .ok ⟨2⟩ ∧
      ((insertedOrders e).2.group ⟨2⟩).map (fun x => x.logical.constraint) = .ok (.singleton impossible) ∧
      ∀ S s, ∃ r ∈ (e.meaning S).rows s, impossible.holds S.toFunctions r.values = false := by
  intro e
  refine ⟨by decide +kernel, by decide +kernel, fun S s => ?_⟩
  obtain ⟨r, hr⟩ : ∃ r, r ∈ (e.meaning S).rows s := by
    rw [show e = orderCounts impossible [] from rfl, orderCounts, Expr.meaning_aggregate]
    exact ⟨_, Multiset.mem_map_of_mem _ (Multiset.mem_map_of_mem _ (Multiset.mem_singleton_self []))⟩
  exact ⟨r, hr, rfl⟩

end
end Cascade
