import Cascade.Proofs.Properties.Products

/-!
Filters and the derived properties of joins of any type. A filter of an input whose rows a join keeps, or of the
condition of an inner join, has the same effect as one above the join.
-/

namespace Cascade.LogicalProperties

variable {l l' r r' : LogicalProperties} {es : List Scalar} {type : JoinType} {on : Scalar}

/-- More is known of the values of the same rows. -/
structure Sharpens (l' l : LogicalProperties) (es : List Scalar) : Prop where
  output : l'.output = l.output
  keys : l'.keys = l.keys
  maxCardinality : l'.maxCardinality = l.maxCardinality
  outerRefs : l'.outerRefs = l.outerRefs
  relations : l'.relations = l.relations
  partitionConsumers : l'.partitionConsumers = l.partitionConsumers
  notNull : ∀ c, c ∈ l'.notNull ↔ c ∈ l.notNull ∨ ∃ e ∈ es, c ∈ e.nullRejectingColumns
  constraint : ∀ x, x ∈ l'.constraint ↔ x ∈ l.constraint ∨ ∃ e ∈ es, x = e.normalize
  columns : ∀ e ∈ es, ∀ c ∈ e.columns, c ∈ l.output

/-- A filter by conjuncts over columns of the input. -/
theorem JoinOf.sharpens (h : JoinOf l' [l] es) (hl : l.Settled) (hcolumns : ∀ e ∈ es, ∀ c ∈ e.columns, c ∈ l.output) :
    Sharpens l' l es := by
  have houtput : l'.output = l.output := SortedSet.ext_mem fun c => by simp [h.output]
  have hcard : l'.maxCardinality = l.maxCardinality := WithOne.coe_inj.1 (by simpa using h.maxCardinality)
  have hkeys : l'.keys = l.keys := by
    rw [← h.settled.minimize_keys, ← hl.minimize_keys]
    refine KeySet.minimize_congr fun k => ?_
    rw [h.keys, List.forall_mem_singleton, hcard]
    exact or_iff_right_of_imp fun hone => hl.covers_of_atMostOne hone k
  have houter : l'.outerRefs = l.outerRefs := by
    refine SortedSet.ext_mem fun c => (h.outerRefs c).trans ?_
    rw [houtput]
    constructor
    · rintro ⟨⟨i, hi, hc⟩ | ⟨e, he, hc⟩, hnot⟩
      · exact List.mem_singleton.1 hi ▸ hc
      · exact absurd (hcolumns e he c hc) hnot
    · exact fun hc => ⟨.inl ⟨l, List.mem_singleton.2 rfl, hc⟩, hl.not_mem_output hc⟩
  refine ⟨houtput, hkeys, hcard, houter, SortedSet.ext_mem fun c => by simp [h.relations],
    SortedMap.ext_entries fun c => by simp [h.partitionConsumers], fun c => ?_, fun x => ?_, hcolumns⟩
  · rw [h.notNull, houtput]
    rw [exists_mem_singleton]
    refine and_iff_left_of_imp fun hc => ?_
    rcases hc with hc | ⟨e, he, hc⟩
    · exact hl.notNull_subset hc
    · exact hcolumns e he c (Scalar.nullRejectingColumns_subset hc)
  · rw [h.constraint, houtput]
    rw [exists_mem_singleton]
    refine and_iff_left_of_imp fun hx c hc => ?_
    rcases hx with hx | ⟨e, he, rfl⟩
    · exact hl.constraint_subset hx c hc
    · exact hcolumns e he c (Scalar.mem_columns_normalize.1 hc)

namespace Sharpens

theorem refl (l : LogicalProperties) : Sharpens l l [] :=
  ⟨rfl, rfl, rfl, rfl, rfl, rfl, fun c => by simp, fun x => by simp, fun _ he => absurd he List.not_mem_nil⟩

theorem trans {l'' : LogicalProperties} {fs : List Scalar} (h' : Sharpens l'' l' fs) (h : Sharpens l' l es) :
    Sharpens l'' l (es ++ fs) where
  output := h'.output.trans h.output
  keys := h'.keys.trans h.keys
  maxCardinality := h'.maxCardinality.trans h.maxCardinality
  outerRefs := h'.outerRefs.trans h.outerRefs
  relations := h'.relations.trans h.relations
  partitionConsumers := h'.partitionConsumers.trans h.partitionConsumers
  notNull c := by rw [h'.notNull, h.notNull, exists_mem_append, or_assoc]
  constraint x := by rw [h'.constraint, h.constraint, exists_mem_append, or_assoc]
  columns := List.forall_mem_append.2 ⟨h.columns, h.output ▸ h'.columns⟩

theorem joinOf (h : Sharpens l' l es) (hl : l.Settled) (hl' : l'.Settled) : JoinOf l' [l] es where
  settled := hl'
  output c := by rw [h.output, exists_mem_singleton]
  notNull c := by
    rw [h.notNull, h.output, exists_mem_singleton]
    refine (and_iff_left_of_imp fun hc => ?_).symm
    rcases hc with hc | ⟨e, he, hc⟩
    · exact hl.notNull_subset hc
    · exact h.columns e he c (Scalar.nullRejectingColumns_subset hc)
  keys k := by
    rw [h.keys, h.maxCardinality, List.forall_mem_singleton]
    exact (or_iff_right_of_imp fun hone => hl.covers_of_atMostOne hone k).symm
  maxCardinality := by rw [h.maxCardinality, List.map_singleton, List.prod_singleton]
  outerRefs c := by
    rw [h.outerRefs, h.output, exists_mem_singleton]
    constructor
    · exact fun hc => ⟨.inl hc, hl.not_mem_output hc⟩
    · rintro ⟨hc | ⟨e, he, hc⟩, hnot⟩
      · exact hc
      · exact absurd (h.columns e he c hc) hnot
  constraint x := by
    rw [h.constraint, h.output, exists_mem_singleton]
    refine (and_iff_left_of_imp fun hx c hc => ?_).symm
    rcases hx with hx | ⟨e, he, rfl⟩
    · exact hl.constraint_subset hx c hc
    · exact h.columns e he c (Scalar.mem_columns_normalize.1 hc)
  relations r := by rw [h.relations, exists_mem_singleton]
  partitionConsumers x := by rw [h.partitionConsumers, exists_mem_singleton]

theorem completed (h : Sharpens l' l es) : Sharpens l'.completed l.completed es where
  output := h.output
  keys := by simp only [LogicalProperties.completed, h.keys, h.maxCardinality, h.output]
  maxCardinality := h.maxCardinality
  outerRefs := by simp only [LogicalProperties.completed, h.outerRefs, h.output]
  relations := h.relations
  partitionConsumers := h.partitionConsumers
  notNull c := by
    rw [mem_notNull_completed, mem_notNull_completed, h.notNull, h.output, or_and_right]
    refine or_congr_right (and_iff_left_of_imp ?_)
    rintro ⟨e, he, hc⟩
    exact h.columns e he c (Scalar.nullRejectingColumns_subset hc)
  constraint x := by
    rw [mem_constraint_completed, mem_constraint_completed, h.constraint, h.output, or_and_right]
    refine or_congr_right (and_iff_left_of_imp ?_)
    rintro ⟨e, he, rfl⟩ c hc
    exact h.columns e he c (Scalar.mem_columns_normalize.1 hc)
  columns := h.columns

/-- A join that keeps rows of the left input. -/
theorem ofJoin_left (h : Sharpens l' l es) (htype : type ≠ .rightOuter) (on : Scalar) (r : LogicalProperties) :
    Sharpens (ofJoin type on l' r) (ofJoin type on l r) es := by
  obtain ⟨output, notNull, keys, equivalences, card, outerRefs, constraint, relations, consumers⟩ := l'
  obtain ⟨rfl, rfl, rfl, rfl, rfl, rfl, hnotNull, hconstraint, hcolumns⟩ := h
  have hunion : ∀ e ∈ es, ∀ c ∈ e.columns, c ∈ l.output ∪ r.output := fun e he c hc =>
    SortedSet.mem_union.2 (.inl (hcolumns e he c hc))
  cases type
  case rightOuter => exact absurd rfl htype
  case leftOuter => exact ⟨rfl, rfl, rfl, rfl, rfl, rfl, hnotNull, hconstraint, hunion⟩
  case leftAntiSemi | leftAntiSemiNotIn => exact ⟨rfl, rfl, rfl, rfl, rfl, rfl, hnotNull, hconstraint, hcolumns⟩
  case leftSemi =>
    refine ⟨rfl, rfl, rfl, rfl, rfl, rfl, fun c => ?_, fun x => ?_, hcolumns⟩
    · change c ∈ notNull ∪ on.nullRejectingColumns ↔ c ∈ l.notNull ∪ on.nullRejectingColumns ∨ _
      rw [SortedSet.mem_union, SortedSet.mem_union, hnotNull, or_right_comm]
    · change x ∈ constraint ∪ on.normalConjuncts ↔ x ∈ l.constraint ∪ on.normalConjuncts ∨ _
      rw [SortedSet.mem_union, SortedSet.mem_union, hconstraint, or_right_comm]
  case inner =>
    refine ⟨rfl, rfl, rfl, rfl, rfl, rfl, fun c => ?_, fun x => ?_, hunion⟩
    · change c ∈ notNull ∪ r.notNull ∪ on.nullRejectingColumns ↔
        c ∈ l.notNull ∪ r.notNull ∪ on.nullRejectingColumns ∨ _
      simp only [SortedSet.mem_union, hnotNull, or_right_comm]
    · change x ∈ constraint ∪ r.constraint ∪ on.normalConjuncts ↔
        x ∈ l.constraint ∪ r.constraint ∪ on.normalConjuncts ∨ _
      simp only [SortedSet.mem_union, hconstraint, or_right_comm]

/-- A join that keeps rows of the right input. -/
theorem ofJoin_right (h : Sharpens r' r es) (htype : type = .inner ∨ type = .rightOuter) (on : Scalar)
    (l : LogicalProperties) : Sharpens (ofJoin type on l r') (ofJoin type on l r) es := by
  obtain ⟨output, notNull, keys, equivalences, card, outerRefs, constraint, relations, consumers⟩ := r'
  obtain ⟨rfl, rfl, rfl, rfl, rfl, rfl, hnotNull, hconstraint, hcolumns⟩ := h
  have hunion : ∀ e ∈ es, ∀ c ∈ e.columns, c ∈ l.output ∪ r.output := fun e he c hc =>
    SortedSet.mem_union.2 (.inr (hcolumns e he c hc))
  rcases htype with rfl | rfl
  · refine ⟨rfl, rfl, rfl, rfl, rfl, rfl, fun c => ?_, fun x => ?_, hunion⟩
    · change c ∈ l.notNull ∪ notNull ∪ on.nullRejectingColumns ↔
        c ∈ l.notNull ∪ r.notNull ∪ on.nullRejectingColumns ∨ _
      simp only [SortedSet.mem_union, hnotNull, or_assoc, or_comm (a := ∃ e ∈ es, c ∈ e.nullRejectingColumns)]
    · change x ∈ l.constraint ∪ constraint ∪ on.normalConjuncts ↔
        x ∈ l.constraint ∪ r.constraint ∪ on.normalConjuncts ∨ _
      simp only [SortedSet.mem_union, hconstraint, or_assoc, or_comm (a := ∃ e ∈ es, x = e.normalize)]
  · exact ⟨rfl, rfl, rfl, rfl, rfl, rfl, hnotNull, hconstraint, hunion⟩

/-- More conjuncts in the condition of an inner join. -/
theorem ofJoin_condition {on on' : Scalar} (hon : on'.conjuncts = on.conjuncts ++ es) {l r : LogicalProperties}
    (hcolumns : ∀ e ∈ es, ∀ c ∈ e.columns, c ∈ l.output ∪ r.output) :
    Sharpens (ofJoin .inner on' l r) (ofJoin .inner on l r) es := by
  refine ⟨rfl, rfl, rfl, SortedSet.ext_mem fun c => ?_, rfl, rfl, fun c => ?_, fun x => ?_, hcolumns⟩
  · change c ∈ (l.outerRefs ∪ r.outerRefs ∪ on'.columns) \ (l.output ∪ r.output) ↔
      c ∈ (l.outerRefs ∪ r.outerRefs ∪ on.columns) \ (l.output ∪ r.output)
    rw [SortedSet.mem_diff, SortedSet.mem_diff]
    refine and_congr_left fun hc => ?_
    have hnone : ¬ ∃ e ∈ es, c ∈ e.columns := fun ⟨e, he, hce⟩ => hc (hcolumns e he c hce)
    rw [SortedSet.mem_union (t := on'.columns), SortedSet.mem_union (t := on.columns), Scalar.mem_columns, hon,
      exists_mem_append, ← Scalar.mem_columns, or_iff_left hnone]
  · change c ∈ l.notNull ∪ r.notNull ∪ on'.nullRejectingColumns ↔
      c ∈ l.notNull ∪ r.notNull ∪ on.nullRejectingColumns ∨ _
    rw [SortedSet.mem_union, SortedSet.mem_union (s := _ ∪ _), Scalar.mem_nullRejectingColumns, hon,
      exists_mem_append, ← Scalar.mem_nullRejectingColumns, or_assoc]
  · change x ∈ l.constraint ∪ r.constraint ∪ on'.normalConjuncts ↔
      x ∈ l.constraint ∪ r.constraint ∪ on.normalConjuncts ∨ _
    rw [SortedSet.mem_union, SortedSet.mem_union (s := _ ∪ _), Scalar.mem_normalConjuncts, hon,
      exists_mem_append, ← Scalar.mem_normalConjuncts, or_assoc]

end Sharpens

/-- The conjuncts of the condition are all that counts. -/
theorem ofJoin_congr {on on' : Scalar} (hon : on'.conjuncts = on.conjuncts) (type : JoinType)
    (l r : LogicalProperties) : ofJoin type on' l r = ofJoin type on l r := by
  have hcolumns : on'.columns = on.columns := SortedSet.ext_mem fun c => by
    rw [Scalar.mem_columns, hon, ← Scalar.mem_columns]
  have hrejecting : on'.nullRejectingColumns = on.nullRejectingColumns := SortedSet.ext_mem fun c => by
    rw [Scalar.mem_nullRejectingColumns, hon, ← Scalar.mem_nullRejectingColumns]
  have hnormal : on'.normalConjuncts = on.normalConjuncts := by
    rw [Scalar.normalConjuncts, hon, Scalar.normalConjuncts]
  unfold ofJoin
  rw [hcolumns, hrejecting, hnormal]

/-- An outer join turned around. -/
theorem ofJoin_swap (hscans : l.partitionConsumers.Agrees r.partitionConsumers) (on : Scalar) :
    ofJoin .rightOuter on r l = ofJoin .leftOuter on l r := by
  have hconsumers : r.partitionConsumers ∪ l.partitionConsumers = l.partitionConsumers ∪ r.partitionConsumers := by
    refine SortedMap.ext_entries fun x => ?_
    rw [SortedMap.mem_entries_union_iff hscans, SortedMap.mem_entries_union_iff fun k v w hv hw => (hscans k w v hw hv).symm,
      or_comm]
  simp only [ofJoin, ofOuterJoin, SortedSet.union_comm r.output, SortedSet.union_comm r.outerRefs,
    SortedSet.union_comm r.relations, KeySet.combine_comm r.keys, hconsumers]

end Cascade.LogicalProperties
