import Cascade.Proofs.Properties.Closure
import Cascade.Proofs.Properties.Equalities
import Cascade.Proofs.Properties.Products
import Cascade.Proofs.Semantics.Distinct
import Cascade.Proofs.Semantics.Products
import Cascade.Proofs.Sequence

/-!
Properties that rows have. What a derivation collects may speak of columns that are not produced; it is dropped when
the properties are completed, and up to then says nothing. Filters, renamings and joins keep properties that describe
their inputs.
-/

namespace Cascade

theorem Row.values_of_some {r : Row} {c : ColumnId} {v : Value} (h : r c = some v) : r.values c = v := by
  unfold values
  rw [h, Option.getD_some]

theorem Row.values_congr {r t : Row} {c d : ColumnId} (h : t d = r c) : t.values d = r.values c := by
  unfold values
  rw [h]

/-- A binding does not show through the columns of a row. -/
theorem Binding.with_eq_values {r : Row} {columns : ColumnSet} (hr : r.Over columns) {c : ColumnId} (hc : c ∈ columns)
    (b : Binding) : b.with r c = r.values c := by
  obtain ⟨v, hv⟩ := Option.isSome_iff_exists.1 ((hr c).2 hc)
  rw [Binding.with_of_some hv, Row.values_of_some hv]

namespace LogicalProperties

variable {p l r : LogicalProperties} {rows rows' : Multiset Row}

/-- The rows have the properties as far as these speak of produced columns only. -/
structure Describes (p : LogicalProperties) (rows : Multiset Row) : Prop where
  rows_over : ∀ r ∈ rows, r.Over p.output
  notNull : ∀ c ∈ p.notNull, c ∈ p.output → ∀ r ∈ rows, r.values c ≠ .null
  keys : ∀ k ∈ p.keys, (∀ c ∈ k, c ∈ p.output) → DistinctOn k rows
  maxCardinality : p.maxCardinality.Bounds rows.card
  constraint : ∀ e ∈ p.constraint, (∀ c ∈ e.columns, c ∈ p.output) → ∀ r ∈ rows, e.Equalizes r.values

/-- The properties speak of produced columns only. -/
structure Within (p : LogicalProperties) : Prop where
  notNull : ∀ c ∈ p.notNull, c ∈ p.output
  keys : ∀ k ∈ p.keys, ∀ c ∈ k, c ∈ p.output
  constraint : ∀ e ∈ p.constraint, ∀ c ∈ e.columns, c ∈ p.output

theorem Settled.within (h : p.Settled) : p.Within :=
  ⟨fun _ => h.notNull_subset, fun _ => h.keys_subset, fun _ => h.constraint_subset⟩

namespace Describes

theorem completed (h : p.Describes rows) : p.completed.Describes rows where
  rows_over := h.rows_over
  notNull c hc hout := h.notNull c (mem_notNull_completed.1 hc).1 hout
  keys k hk _ := by
    have hk := (KeySet.mem_minimize.1 hk).1
    split at hk
    · rename_i hone
      exact .of_card_le_one (h.maxCardinality.le_one hone) k
    · obtain ⟨hk, hout⟩ := SortedSet.mem_filter.1 hk
      exact h.keys k hk (SortedSet.subset_iff.1 hout)
  maxCardinality := h.maxCardinality
  constraint e he hout := h.constraint e (mem_constraint_completed.1 he).1 hout

theorem of_le (h : p.Describes rows) (hle : rows' ≤ rows) : p.Describes rows' where
  rows_over r hr := h.rows_over r (Multiset.mem_of_le hle hr)
  notNull c hc hout r hr := h.notNull c hc hout r (Multiset.mem_of_le hle hr)
  keys k hk hout := (h.keys k hk hout).of_le hle
  maxCardinality := h.maxCardinality.mono (Multiset.card_le_card hle)
  constraint e he hout r hr := h.constraint e he hout r (Multiset.mem_of_le hle hr)

/-- What is referenced, read or derived from the constraint does not matter. -/
theorem congr (h : p.Describes rows) {q : LogicalProperties} (houtput : q.output = p.output)
    (hnotNull : q.notNull = p.notNull) (hkeys : q.keys = p.keys) (hcard : q.maxCardinality = p.maxCardinality)
    (hconstraint : q.constraint = p.constraint) : q.Describes rows where
  rows_over := houtput ▸ h.rows_over
  notNull := houtput ▸ hnotNull ▸ h.notNull
  keys := houtput ▸ hkeys ▸ h.keys
  maxCardinality := hcard ▸ h.maxCardinality
  constraint := houtput ▸ hconstraint ▸ h.constraint

section

variable {F : Functions} {on : Scalar}

/-- What a condition tells of the rows it was true for, as far as the rows tell what it was true of. -/
theorem restrict (h : p.Describes rows) (hcast : ∀ type, F.cast type .null = .null)
    (hon : ∀ r ∈ rows, ∃ b : Binding, on.holds F b = true ∧ ∀ c ∈ p.output, b c = r.values c) :
    (p.restrict on).Describes rows where
  rows_over := h.rows_over
  notNull c hc hout r hr := by
    rcases SortedSet.mem_union.1 hc with hc | hc
    · exact h.notNull c hc hout r hr
    · obtain ⟨b, hb, hvalues⟩ := hon r hr
      exact hvalues c hout ▸ Scalar.ne_null_of_holds hcast hc hb
  keys := h.keys
  maxCardinality := h.maxCardinality
  constraint e he hout r hr := by
    rcases SortedSet.mem_union.1 he with he | he
    · exact h.constraint e he hout r hr
    · obtain ⟨x, hx, rfl⟩ := Scalar.mem_normalConjuncts.1 he
      obtain ⟨b, hb, hvalues⟩ := hon r hr
      have hconjunct := Scalar.equalizes_of_holds ((Scalar.holds_iff_conjuncts on).1 hb x hx)
      exact (hconjunct.congr fun c hc => hvalues c (hout c (Scalar.mem_columns_normalize.2 hc))).normalize

theorem filter (h : p.Describes rows) (hcast : ∀ type, F.cast type .null = .null) (b : Binding) :
    (p.restrict on).Describes (rows.filter (fun r => on.holds F (b.with r) = true)) := by
  refine (h.of_le (Multiset.filter_le _ _)).restrict hcast fun r hr => ?_
  obtain ⟨hr, hon⟩ := Multiset.mem_filter.1 hr
  exact ⟨b.with r, hon, fun c hc => Binding.with_eq_values (h.rows_over r hr) hc b⟩

end

section

variable {f : Row → Row} {rename : ColumnId → Option ColumnId}

theorem keys_rename (h : p.Describes rows) (hp : p.Within)
    (hf : ∀ c ∈ p.output, ∀ d, rename c = some d → ∀ r ∈ rows, f r d = r c) :
    ∀ k ∈ renameKeys p.keys rename, DistinctOn k (rows.map f) := by
  intro k' hk'
  obtain ⟨k, hk, hmap⟩ := List.mem_filterMap.1 (SortedSet.mem_ofList.1 hk')
  obtain ⟨l, hl, rfl⟩ := Option.map_eq_some_iff.1 hmap
  refine (h.keys k hk (hp.keys k hk)).map fun r hr r' hr' hagree c hc => ?_
  obtain ⟨d, hd, hrename⟩ := exists_of_mem_left (forall₂_of_mapM_some hl) hc
  have hout := hp.keys k hk c hc
  rw [← hf c hout d hrename r hr, hagree d (SortedSet.mem_ofList.2 hd), hf c hout d hrename r' hr']

theorem constraint_rename (h : p.Describes rows) (hp : p.Within)
    (hf : ∀ c ∈ p.output, ∀ d, rename c = some d → ∀ r ∈ rows, f r d = r c) :
    ∀ e ∈ renameConstraint p.constraint rename, ∀ t ∈ rows.map f, e.Equalizes t.values := by
  intro e' he' t ht
  obtain ⟨r, hr, rfl⟩ := Multiset.mem_map.1 ht
  obtain ⟨e, he, rfl⟩ := List.mem_map.1 (SortedSet.mem_ofList.1 he')
  obtain ⟨he, hnamed⟩ := List.mem_filter.1 he
  refine ((h.constraint e he (hp.constraint e he) r hr).congr fun c hc => ?_).mapColumns.normalize
  obtain ⟨d, hd⟩ := Option.isSome_iff_exists.1 (List.all_eq_true.1 hnamed c hc)
  rw [hd, Option.getD_some]
  exact (Row.values_congr (hf c (hp.constraint e he c hc) d hd r hr)).symm

end

end Describes

section

variable {L : Multiset Row} {f g : Row → Multiset Row}

theorem Describes.notNull_bind (h : l.Describes L) (hl : l.Within)
    (hg : ∀ a ∈ L, ∀ t ∈ g a, ∀ c ∈ l.output, t c = a c) : ∀ c ∈ l.notNull, ∀ t ∈ L.bind g, t.values c ≠ .null := by
  intro c hc t ht
  obtain ⟨a, ha, ht⟩ := Multiset.mem_bind.1 ht
  rw [Row.values_congr (hg a ha t ht c (hl.notNull c hc))]
  exact h.notNull c hc (hl.notNull c hc) a ha

theorem Describes.constraint_bind (h : l.Describes L) (hl : l.Within)
    (hg : ∀ a ∈ L, ∀ t ∈ g a, ∀ c ∈ l.output, t c = a c) :
    ∀ e ∈ l.constraint, ∀ t ∈ L.bind g, e.Equalizes t.values := by
  intro e he t ht
  obtain ⟨a, ha, ht⟩ := Multiset.mem_bind.1 ht
  refine (h.constraint e he (hl.constraint e he) a ha).congr fun c hc => ?_
  exact (Row.values_congr (hg a ha t ht c (hl.constraint e he c hc))).symm

/-- The keys of a product are keys of what is left of it. -/
theorem Describes.keys_bind (h : l.Describes L) (hl : l.Within)
    (hg : ∀ a ∈ L, ∀ t ∈ g a, ∀ c ∈ l.output, t c = a c) (hkeys : ∀ a ∈ L, ∀ k ∈ r.keys, DistinctOn k (g a)) :
    ∀ k ∈ KeySet.combine l.keys r.keys, DistinctOn k (L.bind g) := by
  intro k hk
  obtain ⟨kl, hkl, kr, hkr, rfl⟩ := KeySet.mem_combine.1 hk
  refine (h.keys kl hkl (hl.keys kl hkl)).bind (fun a ha => hkeys a ha kr hkr) fun a ha t ht c hc => ?_
  exact hg a ha t ht c (hl.keys kl hkl c hc)

end

end LogicalProperties
end Cascade
