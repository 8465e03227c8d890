import Mathlib.Algebra.GroupWithZero.Nat
import Cascade.Proofs.Properties.Combining
import Cascade.Proofs.Semantics.Query

/-!
Derived properties of operators with at most one input, and of concatenations, describe their rows.
-/

namespace Cascade

namespace Row

theorem Over.eq_values {r : Row} {columns : ColumnSet} (h : r.Over columns) {c : ColumnId} (hc : c ∈ columns) :
    r c = some (r.values c) := by
  obtain ⟨v, hv⟩ := Option.isSome_iff_exists.1 ((h c).2 hc)
  rw [hv, values_of_some hv]

/-- The cell at a place of a row that is given place by place. -/
theorem ofPairs_zipIdx {columns : List ColumnId} (hcolumns : columns.Nodup) {place : Nat} {c : ColumnId}
    (hc : columns[place]? = some c) (f : Nat → Value) :
    ofPairs (columns.zipIdx.map (fun a => (a.1, f a.2))) c = some (f place) := by
  have hnodup : (columns.zipIdx.map Prod.fst).Nodup := by rwa [List.zipIdx_map_fst]
  exact ofPairs_map_of_nodup hnodup f (List.mem_zipIdx_iff_getElem?.2 hc : (c, place) ∈ columns.zipIdx)

end Row

/-- A database keeps to its schema: columns have their names, declared columns are not `NULL`, and no two rows of a
table agree on its primary key. A cast of `NULL` is `NULL`, and a count never is. -/
structure Interpretation.Respects (S : Interpretation) (c : Catalog) (cs : Columns) : Prop where
  columnName : ∀ id info, cs.get id = .ok info → S.columnName id = info.name
  notNull : ∀ name t, c.table? name = some t → ∀ column ∈ t.columns, column.nullable = false →
    ∀ row ∈ S.table name, row column.name ≠ .null
  primaryKey : ∀ name t, c.table? name = some t → t.primaryKey ≠ [] →
    ((S.table name).map (fun row => t.primaryKey.map row)).Nodup
  cast : ∀ type, S.cast type .null = .null
  count : ∀ distinct rows, S.aggregate .count distinct rows ≠ .null

namespace Get

variable {c : Catalog} {cs : Columns} {g : Get} {t : Table} {columns : List (ColumnId × TableColumn)}

end Get

namespace LogicalProperties

variable {p : LogicalProperties} {rows : Multiset Row}

theorem mem_of_projectedName? {l : List Assignment} {c d : ColumnId} (h : projectedName? l c = some d) :
    (d, .column c) ∈ l := by
  unfold projectedName? at h
  split at h
  · rename_i hpassed
    cases h
    obtain ⟨⟨id, e⟩, ha, hpassed⟩ := List.any_eq_true.1 hpassed
    obtain ⟨rfl, rfl⟩ : id = c ∧ e = .column c := by simpa using hpassed
    exact ha
  · obtain ⟨⟨id, e⟩, hfind, rfl⟩ := Option.map_eq_some_iff.1 h
    obtain rfl : e = .column c := by simpa using List.find?_some hfind
    exact List.mem_of_find?_eq_some hfind

/-- What a projection passes on has its value under its new name. -/
theorem ofPairs_project {l : List Assignment} (hl : ∀ x ∈ l, ∀ y ∈ l, x.1 = y.1 → x.2 = y.2) (F : Functions)
    (b : Binding) {columns : ColumnSet} {r : Row} (hr : r.Over columns) {c d : ColumnId} (hc : c ∈ columns)
    (hd : projectedName? l c = some d) : Row.ofPairs (l.map (fun a => (a.1, a.2.eval F (b.with r)))) d = r c := by
  rw [Row.ofPairs_map_of_functional hl (fun e => e.eval F (b.with r)) (mem_of_projectedName? hd), hr.eq_values hc]
  exact congrArg some (Binding.with_eq_values hr hc b)

/-- What a reader of a common table expression renames has its value under its new name. -/
theorem ofPairs_read {r : CteRead} (hcolumns : r.columns.Nodup) (b : Binding) {columns : ColumnSet} {t : Row}
    (ht : t.Over columns) {c d : ColumnId} (hc : c ∈ columns)
    (hd : (SortedMap.ofList (r.producerColumns.zip r.columns)).get? c = some d) :
    Row.ofPairs (r.columns.zipIdx.map (fun a => (a.1, (r.producerColumns[a.2]?).elim .null (b.with t)))) d = t c := by
  obtain ⟨⟨c', _⟩, hfind, rfl⟩ := Option.map_eq_some_iff.1 hd
  obtain rfl : c' = c := by simpa using List.find?_some hfind
  have hpair := (SortedMap.mem_entries_insertAll (List.mem_of_find?_eq_some hfind)).resolve_left List.not_mem_nil
  obtain ⟨place, hplace⟩ := List.mem_iff_getElem?.1 hpair
  obtain ⟨hproducer, hcolumn⟩ := List.getElem?_zip_eq_some.1 hplace
  rw [Row.ofPairs_zipIdx hcolumns hcolumn fun place => (r.producerColumns[place]?).elim .null (b.with t), hproducer,
    ht.eq_values hc]
  exact congrArg some (Binding.with_eq_values ht hc b)

theorem Describes.eval_of_isNotNull (h : p.Describes rows) (hp : p.Within) {e : Scalar} (he : isNotNull p e = true)
    (F : Functions) (b : Binding) : ∀ r ∈ rows, e.eval F (b.with r) ≠ .null := by
  intro r hr
  cases e with
  | column c =>
    have hc : c ∈ p.notNull := of_decide_eq_true he
    have hout := hp.notNull c hc
    rw [Scalar.eval, Binding.with_eq_values (h.rows_over r hr) hout]
    exact h.notNull c hc hout r hr
  | literal v =>
    rintro hnull
    rw [Scalar.eval] at hnull
    rw [hnull] at he
    cases he
  | _ => cases he

theorem Describes.project (h : p.Describes rows) (hp : p.Within) {l : List Assignment}
    (hl : ∀ x ∈ l, ∀ y ∈ l, x.1 = y.1 → x.2 = y.2) (F : Functions) (b : Binding) :
    (ofProject l p).Describes (rows.map (fun r => .ofPairs (l.map (fun a => (a.1, a.2.eval F (b.with r)))))) := by
  have hcell : ∀ a ∈ l, ∀ r : Row, Row.ofPairs (l.map (fun a => (a.1, a.2.eval F (b.with r)))) a.1 =
      some (a.2.eval F (b.with r)) := fun a ha r =>
    Row.ofPairs_map_of_functional hl (fun e => e.eval F (b.with r)) ha
  have hrename : ∀ c ∈ p.output, ∀ d, projectedName? l c = some d → ∀ r ∈ rows,
      Row.ofPairs (l.map (fun a => (a.1, a.2.eval F (b.with r)))) d = r c := fun c hc d hd r hr =>
    ofPairs_project hl F b (h.rows_over r hr) hc hd
  constructor
  case rows_over =>
    intro t ht
    obtain ⟨r, -, rfl⟩ := Multiset.mem_map.1 ht
    have hover := Row.over_ofPairs (l.map (fun a => (a.1, a.2.eval F (b.with r))))
    rwa [List.map_map] at hover
  case notNull =>
    intro c hc _ t ht
    obtain ⟨r, hr, rfl⟩ := Multiset.mem_map.1 ht
    obtain ⟨a, ha, rfl⟩ := List.mem_map.1 (SortedSet.mem_ofList.1 hc)
    obtain ⟨ha, hnotNull⟩ := List.mem_filter.1 ha
    rw [Row.values_of_some (hcell a ha r)]
    exact h.eval_of_isNotNull hp hnotNull F b r hr
  case keys => exact fun k hk _ => h.keys_rename hp hrename k hk
  case maxCardinality =>
    rw [Multiset.card_map]
    exact h.maxCardinality
  case constraint => exact fun e he _ => h.constraint_rename hp hrename e he

theorem Describes.limit (h : p.Describes rows) (S : Interpretation) (l : RowLimit) :
    (ofLimit l p).Describes (S.limit l rows) := by
  have hkept := h.of_le (S.limit_le l rows)
  refine ⟨hkept.rows_over, hkept.notNull, hkept.keys, ?_, hkept.constraint⟩
  unfold ofLimit
  dsimp only
  split
  · rename_i n hn
    refine hkept.maxCardinality.min ?_
    rw [S.card_limit, RowLimit.kept, hn]
    exact Nat.min_le_left n _
  · exact hkept.maxCardinality

section

variable {groupBy : List ColumnId} {b : Binding} {key : List (ColumnId × Value)}

/-- A group with grouping columns has the values that one of the rows has in them. -/
theorem exists_of_groupKey {columns : ColumnSet} (hrows : ∀ r ∈ rows, r.Over columns) (hne : groupBy ≠ [])
    (hkey : key ∈ Relation.groupKeys groupBy b rows) : ∃ r ∈ rows, key = Relation.groupKey groupBy (b.with r) ∧
      ∀ cells, ∀ c ∈ groupBy, c ∈ columns → Row.ofPairs (key ++ cells) c = r c := by
  unfold Relation.groupKeys at hkey
  rw [if_neg fun hempty => hne (List.isEmpty_iff.1 hempty)] at hkey
  obtain ⟨r, hr, rfl⟩ := Multiset.mem_map.1 (Multiset.mem_dedup.1 hkey)
  refine ⟨r, hr, rfl, fun cells c hc hout => ?_⟩
  rw [Relation.ofPairs_groupKey hc, Binding.with_eq_values (hrows r hr) hout, (hrows r hr).eq_values hout]

/-- Groups differ in the grouping columns, and in what tells the rows apart, if these columns include it. -/
theorem Describes.keys_group (h : p.Describes rows) (hp : p.Within) {k : ColumnSet}
    (hk : k = .ofList groupBy ∨ k ∈ p.keys ∧ ∀ c ∈ k, c ∈ groupBy)
    (cells : List (ColumnId × Value) → List (ColumnId × Value)) :
    DistinctOn k ((Relation.groupKeys groupBy b rows).map (fun key => .ofPairs (key ++ cells key))) := by
  refine .of_map (Relation.nodup_groupKeys ..) fun key hkey key' hkey' hagree => ?_
  rcases hk with rfl | ⟨hk, hgroup⟩
  · obtain ⟨b₁, rfl⟩ := Relation.exists_groupKey hkey
    obtain ⟨b₂, rfl⟩ := Relation.exists_groupKey hkey'
    refine List.map_congr_left fun c hc => congrArg (Prod.mk c) ?_
    have hsame := hagree c (SortedSet.mem_ofList.2 hc)
    rw [Relation.ofPairs_groupKey hc, Relation.ofPairs_groupKey hc] at hsame
    exact Option.some.inj hsame
  · by_cases hne : groupBy = []
    · have hnil : ∀ key ∈ Relation.groupKeys groupBy b rows, key = [] := fun key hkey =>
        List.map_eq_nil_iff.1 ((Relation.map_fst_groupKeys hkey).trans hne)
      rw [hnil key hkey, hnil key' hkey']
    · obtain ⟨r, hr, rfl, hvalues⟩ := exists_of_groupKey h.rows_over hne hkey
      obtain ⟨r', hr', rfl, hvalues'⟩ := exists_of_groupKey h.rows_over hne hkey'
      have hrow : r = r' := by
        refine (h.keys k hk (hp.keys k hk)).eq_of_agree r hr r' hr' fun c hc => ?_
        have hout := hp.keys k hk c hc
        rw [← hvalues _ c (hgroup c hc) hout, hagree c hc, hvalues' _ c (hgroup c hc) hout]
      rw [hrow]

end

theorem Describes.aggregate (h : p.Describes rows) (hp : p.Within) {S : Interpretation}
    (hcount : ∀ distinct args, S.aggregate .count distinct args ≠ .null) {a : Aggregation} (hstage : a.stage = .single)
    (hnodup : (a.aggregates.map Prod.fst).Nodup) (hfresh : ∀ x ∈ a.aggregates, x.1 ∉ a.groupBy ∧ x.1 ∉ p.output)
    (b : Binding) :
    (ofAggregate a p).Describes ((Relation.groupKeys a.groupBy b rows).map (fun key =>
      .ofPairs (key ++ a.aggregates.map (fun x =>
        (x.1, x.2.value S b (Relation.groupMembers a.groupBy b rows key)))))) := by
  constructor
  case rows_over =>
    intro t ht
    obtain ⟨key, hkey, rfl⟩ := Multiset.mem_map.1 ht
    have hover := Row.over_ofPairs (key ++ a.aggregates.map (fun x =>
      (x.1, x.2.value S b (Relation.groupMembers a.groupBy b rows key))))
    rw [List.map_append, Relation.map_fst_groupKeys hkey, List.map_map] at hover
    have houtput : (ofAggregate a p).output = .ofList (a.groupBy ++ a.aggregates.map Prod.fst) :=
      List.foldl_append.symm
    exact houtput ▸ hover
  case notNull =>
    intro c hc _ t ht
    obtain ⟨key, hkey, rfl⟩ := Multiset.mem_map.1 ht
    rcases SortedSet.mem_insertAll.1 hc with hc | hc
    · obtain ⟨hgroup, hnotNull⟩ := SortedSet.mem_inter.1 hc
      have hgroup := SortedSet.mem_ofList.1 hgroup
      have hout := hp.notNull c hnotNull
      obtain ⟨r, hr, -, hvalues⟩ := exists_of_groupKey h.rows_over (List.ne_nil_of_mem hgroup) hkey
      rw [Row.values_congr (hvalues _ c hgroup hout)]
      exact h.notNull c hnotNull hout r hr
    · obtain ⟨x, hx, rfl⟩ := List.mem_map.1 hc
      obtain ⟨hx, hnotNull⟩ := List.mem_filter.1 hx
      have hfunc : x.2.func = .count := by
        rw [hstage] at hnotNull
        cases hf : x.2.func <;> simp_all [AggregateFunction.isNotNull]
      have hcell := Relation.ofPairs_group hkey (fun x hx => (hfresh x hx).1) hnodup hx
        fun call => call.value S b (Relation.groupMembers a.groupBy b rows key)
      rw [Row.values_of_some hcell, AggregateCall.value, hfunc]
      exact hcount _ _
  case keys =>
    intro k hk _
    refine h.keys_group hp ?_ _
    have hk : k ∈ (p.keys.filter (fun k => k.subset (.ofList a.groupBy))).insert (.ofList a.groupBy) := by
      simpa [ofAggregate, hstage] using hk
    refine (SortedSet.mem_insert.1 hk).imp_right fun hk => ?_
    obtain ⟨hk, hgroup⟩ := SortedSet.mem_filter.1 hk
    exact ⟨hk, fun c hc => SortedSet.mem_ofList.1 (SortedSet.subset_iff.1 hgroup c hc)⟩
  case maxCardinality =>
    rw [Multiset.card_map]
    unfold ofAggregate Relation.groupKeys
    by_cases hne : a.groupBy = []
    · rw [hne, hstage]
      exact Nat.le_refl 1
    · have hempty : ¬(a.stage ≠ .localStage ∧ (SortedSet.ofList a.groupBy).isEmpty = true) := by
        rintro ⟨-, hempty⟩
        refine hne (List.eq_nil_iff_forall_not_mem.2 fun c hc => ?_)
        exact absurd (SortedSet.mem_ofList.2 hc) (List.eq_nil_iff_forall_not_mem.1 (List.isEmpty_iff.1 hempty) c)
      rw [if_neg fun hnil => hne (List.isEmpty_iff.1 hnil)]
      dsimp only
      rw [if_neg hempty]
      refine h.maxCardinality.mono ((Multiset.card_le_card (Multiset.dedup_le _)).trans ?_)
      exact (Multiset.card_map _ _).le
  case constraint =>
    intro e he hout t ht
    obtain ⟨key, hkey, rfl⟩ := Multiset.mem_map.1 ht
    have hgroup : ∀ c ∈ e.columns, c ∈ a.groupBy := by
      intro c hc
      refine (SortedSet.mem_insertAll.1 (hout c hc)).elim SortedSet.mem_ofList.1 fun hc' => ?_
      obtain ⟨x, hx, rfl⟩ := List.mem_map.1 hc'
      exact absurd (hp.constraint e he _ hc) (hfresh x hx).2
    by_cases hne : a.groupBy = []
    · exact .of_columns_eq_empty (fun c hc => absurd (hne ▸ hgroup c hc) List.not_mem_nil) _
    · obtain ⟨r, hr, -, hvalues⟩ := exists_of_groupKey h.rows_over hne hkey
      refine (h.constraint e he (hp.constraint e he) r hr).congr fun c hc => ?_
      exact (Row.values_congr (hvalues _ c (hgroup c hc) (hp.constraint e he c hc))).symm

/-- Columns that are listed for their places stand in one of these. -/
theorem exists_place {columns : List ColumnId} {test : ColumnId × Nat → Bool} {c : ColumnId}
    (hc : c ∈ SortedSet.ofList ((columns.zipIdx.filter test).map Prod.fst)) :
    ∃ place, columns[place]? = some c ∧ test (c, place) = true := by
  obtain ⟨⟨d, place⟩, hd, rfl⟩ := List.mem_map.1 (SortedSet.mem_ofList.1 hc)
  obtain ⟨hplace, htest⟩ := List.mem_filter.1 hd
  exact ⟨place, List.mem_zipIdx_iff_getElem?.1 hplace, htest⟩

theorem Describes.read (h : p.Describes rows) (hp : p.Within) {q : LogicalProperties} {r : CteRead}
    (hq : ofCteConsumer r p = .ok q) (hcolumns : r.columns.Nodup) (b : Binding) :
    q.Describes (rows.map (fun t => .ofPairs (r.columns.zipIdx.map (fun a =>
      (a.1, (r.producerColumns[a.2]?).elim .null (b.with t)))))) := by
  unfold ofCteConsumer at hq
  split at hq
  · cases hq
  cases hq
  have hrename : ∀ c ∈ p.output, ∀ d, (SortedMap.ofList (r.producerColumns.zip r.columns)).get? c = some d →
      ∀ t ∈ rows, Row.ofPairs (r.columns.zipIdx.map (fun a =>
        (a.1, (r.producerColumns[a.2]?).elim .null (b.with t)))) d = t c := fun c hc d hd t ht =>
    ofPairs_read hcolumns b (h.rows_over t ht) hc hd
  constructor
  case rows_over =>
    intro x hx
    obtain ⟨t, -, rfl⟩ := Multiset.mem_map.1 hx
    have hover := Row.over_ofPairs (r.columns.zipIdx.map (fun a =>
      (a.1, (r.producerColumns[a.2]?).elim Value.null (b.with t))))
    have hfst : r.columns.zipIdx.map (Prod.fst ∘ fun a =>
        (a.1, (r.producerColumns[a.2]?).elim Value.null (b.with t))) = r.columns := List.zipIdx_map_fst 0 r.columns
    rwa [List.map_map, hfst] at hover
  case notNull =>
    intro d hd _ x hx
    obtain ⟨t, ht, rfl⟩ := Multiset.mem_map.1 hx
    obtain ⟨c, hc, hcd⟩ := List.mem_filterMap.1 (SortedSet.mem_ofList.1 hd)
    have hout := hp.notNull c hc
    rw [Row.values_congr (hrename c hout d hcd t ht)]
    exact h.notNull c hc hout t ht
  case keys => exact fun k hk _ => h.keys_rename hp hrename k hk
  case maxCardinality =>
    rw [Multiset.card_map]
    exact h.maxCardinality
  case constraint => exact fun e he _ => h.constraint_rename hp hrename e he

/-- Inputs that are concatenated have no keys or predicates in common. -/
theorem keys_constraint_gathered (inputs : List LogicalProperties) :
    (gathered inputs).keys = ∅ ∧ (gathered inputs).constraint = ∅ := by
  unfold gathered
  generalize hacc : LogicalProperties.empty = acc
  have hkeys : acc.keys = ∅ := hacc ▸ rfl
  have hconstraint : acc.constraint = ∅ := hacc ▸ rfl
  clear hacc
  induction inputs generalizing acc with
  | nil => exact ⟨hkeys, hconstraint⟩
  | cons i inputs ih => exact ih _ hkeys hconstraint

/-- Inputs that are concatenated have as many rows together as they are known to have one by one. -/
theorem bounds_gathered {ns : List Nat} {inputs : List LogicalProperties}
    (h : List.Forall₂ (fun n i => i.maxCardinality.Bounds n) ns inputs) :
    (gathered inputs).maxCardinality.Bounds ns.sum := by
  unfold gathered
  suffices hfold : ∀ (acc : LogicalProperties) (n : Nat), acc.maxCardinality.Bounds n →
      (inputs.foldl (fun acc i =>
        { acc with
          maxCardinality := acc.maxCardinality.add i.maxCardinality
          outerRefs := acc.outerRefs ∪ i.outerRefs
          relations := acc.relations ∪ i.relations
          partitionConsumers := acc.partitionConsumers ∪ i.partitionConsumers }) acc).maxCardinality.Bounds
        (n + ns.sum) by
    simpa using hfold .empty 0 (Nat.le_refl 0)
  induction h with
  | nil => exact fun acc n hn => hn
  | cons hi _ ih =>
    intro acc n hn
    rw [List.sum_cons, ← Nat.add_assoc]
    exact ih _ _ (hn.add hi)

end LogicalProperties
end Cascade
