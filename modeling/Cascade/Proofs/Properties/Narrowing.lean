import Cascade.Proofs.Properties.Normal
import Cascade.Proofs.Properties.Operators

/-!
Derived properties of what a semi join is replaced with: the left columns of an inner join with one row of the right
input. They are those of the semi join, but for predicates of the right input that mention no column
(`LogicalProperties.ofOneRow_eq_iff`).
-/

namespace Cascade

/-- A projection that passes columns on. -/
def passing (columns : ColumnSet) : List Assignment := columns.toList.map (fun c => (c, .column c))

namespace LogicalProperties

variable {p : LogicalProperties} {columns k : ColumnSet} {c d : ColumnId} {x : Scalar}

theorem mem_passing {a : Assignment} : a ∈ passing columns ↔ a.1 ∈ columns ∧ a.2 = .column a.1 := by
  unfold passing
  rw [List.mem_map]
  constructor
  · rintro ⟨c, hc, rfl⟩
    exact ⟨hc, rfl⟩
  · rintro ⟨hc, heq⟩
    exact ⟨a.1, hc, by rw [← heq]⟩

/-- Columns that are passed on keep their names, others have none. -/
theorem projectedName?_passing : projectedName? (passing columns) c = some d ↔ c ∈ columns ∧ d = c := by
  constructor
  · intro h
    obtain ⟨hd, heq⟩ := mem_passing.1 (mem_of_projectedName? h)
    obtain rfl : c = d := Scalar.column.inj heq
    exact ⟨hd, rfl⟩
  · rintro ⟨hc, rfl⟩
    refine if_pos (List.any_eq_true.2 ⟨(d, .column d), mem_passing.2 ⟨hc, rfl⟩, ?_⟩)
    simp

theorem getD_projectedName?_passing : (projectedName? (passing columns) c).getD c = c := by
  cases h : projectedName? (passing columns) c with
  | none => rfl
  | some d => exact (projectedName?_passing.1 h).2

theorem isSome_projectedName?_passing : (projectedName? (passing columns) c).isSome = true ↔ c ∈ columns := by
  simp only [Option.isSome_iff_exists, projectedName?_passing, exists_eq_right]

theorem mem_renameConstraint_passing {constraint : SortedSet Scalar} :
    x ∈ renameConstraint constraint (projectedName? (passing columns)) ↔
      ∃ y ∈ constraint, (∀ c ∈ y.columns, c ∈ columns) ∧ y.normalize = x := by
  unfold renameConstraint
  simp only [SortedSet.mem_ofList, List.mem_map, List.mem_filter, List.all_eq_true, isSome_projectedName?_passing,
    getD_projectedName?_passing, Scalar.mapColumns_id, and_assoc]
  rfl

theorem mapM_projectedName?_passing {l m : List ColumnId} :
    l.mapM (projectedName? (passing columns)) = some m ↔ (∀ c ∈ l, c ∈ columns) ∧ m = l := by
  induction l generalizing m with
  | nil => simp [eq_comm]
  | cons c l ih =>
    simp only [List.mapM_cons, Option.bind_eq_bind, Option.bind_eq_some_iff, projectedName?_passing, ih,
      List.forall_mem_cons, Option.pure_def, Option.some.injEq]
    constructor
    · rintro ⟨_, ⟨hc, rfl⟩, _, ⟨hl, rfl⟩, rfl⟩
      exact ⟨⟨hc, hl⟩, rfl⟩
    · rintro ⟨⟨hc, hl⟩, rfl⟩
      exact ⟨c, ⟨hc, rfl⟩, l, ⟨hl, rfl⟩, rfl⟩

theorem mem_renameKeys_passing {keys : KeySet} :
    k ∈ renameKeys keys (projectedName? (passing columns)) ↔ k ∈ keys ∧ ∀ c ∈ k, c ∈ columns := by
  unfold renameKeys SortedSet.mapM?
  simp only [SortedSet.mem_ofList, List.mem_filterMap, Option.map_eq_some_iff, mapM_projectedName?_passing]
  have hofList : ∀ s : ColumnSet, SortedSet.ofList s.toList = s := fun s =>
    SortedSet.ext_mem fun _ => SortedSet.mem_ofList
  constructor
  · rintro ⟨s, hs, _, ⟨hcolumns, rfl⟩, rfl⟩
    rw [hofList]
    exact ⟨hs, hcolumns⟩
  · rintro ⟨hk, hcolumns⟩
    exact ⟨k, hk, k.toList, ⟨hcolumns, rfl⟩, hofList k⟩

section

variable (columns) (p)

theorem mem_output_passing : c ∈ (ofProject (passing columns) p).output ↔ c ∈ columns := by
  change c ∈ SortedSet.ofList ((passing columns).map Prod.fst) ↔ _
  rw [SortedSet.mem_ofList, passing, List.map_map, Function.comp_def, List.map_id']
  rfl

theorem mem_notNull_passing : c ∈ (ofProject (passing columns) p).completed.notNull ↔ c ∈ columns ∧ c ∈ p.notNull := by
  rw [mem_notNull_completed, mem_output_passing]
  change c ∈ SortedSet.ofList (((passing columns).filter _).map Prod.fst) ∧ _ ↔ _
  simp only [SortedSet.mem_ofList, List.mem_map, List.mem_filter, mem_passing]
  constructor
  · rintro ⟨⟨⟨d, e⟩, ⟨⟨hd, he⟩, hnotNull⟩, rfl⟩, -⟩
    rw [he] at hnotNull
    exact ⟨hd, of_decide_eq_true hnotNull⟩
  · rintro ⟨hc, hnotNull⟩
    exact ⟨⟨(c, .column c), ⟨⟨hc, rfl⟩, decide_eq_true hnotNull⟩, rfl⟩, hc⟩

theorem covers_passing : (ofProject (passing columns) p).completed.keys.Covers k ↔
    p.maxCardinality.atMostOne = true ∨ p.keys.Covers (k ∩ columns) := by
  have hkeys : (ofProject (passing columns) p).keys = p.keys.filter (fun x => x.subset columns) :=
    SortedSet.ext_mem fun x => by
      rw [SortedSet.mem_filter, SortedSet.subset_iff]
      exact mem_renameKeys_passing
  refine (covers_completed fun x hx c hc => ?_).trans (or_congr_right ?_)
  · rw [mem_output_passing]
    exact (mem_renameKeys_passing.1 hx).2 c hc
  · rw [hkeys, KeySet.covers_filter_subset]

theorem mem_outerRefs_passing (h : ∀ c ∈ columns, c ∈ p.output) :
    c ∈ (ofProject (passing columns) p).completed.outerRefs ↔ c ∈ p.outerRefs ∧ c ∉ columns := by
  rw [mem_outerRefs_completed, mem_output_passing]
  change c ∈ p.outerRefs ∪ (Scalar.argColumns ((passing columns).map Prod.snd) \ p.output) ∧ _ ↔ _
  refine and_congr_left fun _ => SortedSet.mem_union.trans (or_iff_left fun hc => ?_)
  obtain ⟨hc, hnot⟩ := SortedSet.mem_diff.1 hc
  obtain ⟨_, he, hc⟩ := Scalar.mem_argColumns.1 hc
  obtain ⟨a, ha, rfl⟩ := List.mem_map.1 he
  obtain ⟨hmem, heq⟩ := mem_passing.1 ha
  rw [heq] at hc
  exact hnot (h c (List.mem_singleton.1 hc ▸ hmem))

/-- The predicates about columns that are passed on are kept. -/
theorem mem_constraint_passing (h : p.Proper) : x ∈ (ofProject (passing columns) p).completed.constraint ↔
    x ∈ p.constraint ∧ ∀ c ∈ x.columns, c ∈ columns := by
  simp only [mem_constraint_completed, mem_output_passing]
  refine and_congr_left fun hcolumns => mem_renameConstraint_passing.trans ?_
  constructor
  · rintro ⟨y, hy, -, rfl⟩
    rwa [h.normal y hy]
  · exact fun hx => ⟨x, hx, hcolumns, h.normal x hx⟩

end

section

variable {l r : LogicalProperties} {on : Scalar}

/-- What is derived for one row of an input. -/
def oneRow (p : LogicalProperties) : LogicalProperties := (ofLimit ⟨0, some 1, .none⟩ p).completed

theorem mem_notNull_oneRow (h : p.Settled) : c ∈ (oneRow p).notNull ↔ c ∈ p.notNull :=
  mem_notNull_completed.trans (and_iff_left_of_imp h.notNull_subset)

theorem mem_outerRefs_oneRow (h : p.Settled) : c ∈ (oneRow p).outerRefs ↔ c ∈ p.outerRefs := by
  refine mem_outerRefs_completed.trans ?_
  change c ∈ p.outerRefs ∪ (OrderSpec.none.columnSet \ p.output) ∧ _ ↔ _
  rw [SortedSet.mem_union, SortedSet.mem_diff, or_iff_left fun hc => SortedSet.not_mem_empty c hc.1]
  exact and_iff_left_of_imp h.not_mem_output

theorem mem_constraint_oneRow (h : p.Settled) : x ∈ (oneRow p).constraint ↔ x ∈ p.constraint :=
  mem_constraint_completed.trans (and_iff_left_of_imp h.constraint_subset)

theorem maxCardinality_oneRow (h : p.maxCardinality ≠ .bounded 0) : (oneRow p).maxCardinality = .bounded 1 := by
  change p.maxCardinality.min (.bounded 1) = _
  rcases hcard : p.maxCardinality with (_ | n) | _
  · exact absurd hcard h
  · exact congrArg MaxCardinality.bounded (Nat.min_eq_right (Nat.le_add_left 1 n))
  · rfl

/-- No set of columns tells one row from another. -/
theorem covers_oneRow (h : p.maxCardinality ≠ .bounded 0) (k : ColumnSet) : (oneRow p).keys.Covers k :=
  (settled_completed _).covers_of_atMostOne (congrArg MaxCardinality.atMostOne (maxCardinality_oneRow h)) k

/-- What is derived for the left columns of an inner join with one row. -/
def ofOneRow (on : Scalar) (l r : LogicalProperties) : LogicalProperties :=
  (ofProject (passing l.output) (ofJoin .inner on l (oneRow r)).completed).completed

theorem maxCardinality_ofOneRow (on : Scalar) (hl : l.Proper) (hr : r.maxCardinality ≠ .bounded 0) :
    (ofOneRow on l r).maxCardinality = l.maxCardinality := by
  change l.maxCardinality.multiply (oneRow r).maxCardinality = _
  rw [maxCardinality_oneRow hr, hl.fits.multiply_one]

theorem mem_notNull_ofOneRow (hr : r.Settled) (hdisjoint : ∀ c ∈ l.output, c ∉ r.output) :
    c ∈ (ofOneRow on l r).notNull ↔ c ∈ (ofJoin .leftSemi on l r).completed.notNull := by
  refine (mem_notNull_passing _ _).trans (Iff.trans ?_ mem_notNull_completed.symm)
  rw [mem_notNull_completed, and_comm]
  refine and_congr_left fun hc => ?_
  change c ∈ l.notNull ∪ (oneRow r).notNull ∪ on.nullRejectingColumns ∧ c ∈ l.output ∪ r.output ↔
    c ∈ l.notNull ∪ on.nullRejectingColumns
  simp only [SortedSet.mem_union, mem_notNull_oneRow hr]
  rw [or_iff_left fun h => hdisjoint c hc (hr.notNull_subset h)]
  exact and_iff_left (.inl hc)

/-- The keys of properties are sets of produced columns. -/
theorem Settled.covers_inter_output (h : p.Settled) : p.keys.Covers (k ∩ p.output) ↔ p.keys.Covers k :=
  exists_congr fun _ => and_congr_right fun hx => forall₂_congr fun c hc =>
    SortedSet.mem_inter.trans (and_iff_left (h.keys_subset hx c hc))

theorem covers_ofOneRow (hl : l.Derivable) (hr : r.maxCardinality ≠ .bounded 0) :
    (ofOneRow on l r).keys.Covers k ↔ (ofJoin .leftSemi on l r).completed.keys.Covers k := by
  have hjoin : (ofJoin .inner on l (oneRow r)).completed.keys.Covers (k ∩ l.output) ↔
      l.maxCardinality.atMostOne = true ∨ l.keys.Covers k := by
    refine (covers_completed fun x hx c hc => ?_).trans (or_congr ?_ ?_)
    · obtain ⟨y, hy, z, hz, rfl⟩ := KeySet.mem_combine.1 hx
      refine SortedSet.mem_union.2 ((SortedSet.mem_union.1 hc).imp (hl.settled.keys_subset hy c) fun hc => ?_)
      exact (settled_completed _).keys_subset hz c hc
    · rw [← maxCardinality_ofOneRow on hl.proper hr]
      rfl
    · refine KeySet.covers_combine.trans ((and_iff_left (covers_oneRow hr _)).trans hl.settled.covers_inter_output)
  refine (covers_passing _ _).trans (Iff.trans ?_ (covers_completed fun x hx => hl.settled.keys_subset hx).symm)
  have hcard : (ofJoin .inner on l (oneRow r)).completed.maxCardinality = l.maxCardinality :=
    maxCardinality_ofOneRow on hl.proper hr
  rw [hcard, hjoin]
  exact ⟨fun h => h.elim .inl id, .inr⟩

theorem mem_outerRefs_ofOneRow (hr : r.Settled) :
    c ∈ (ofOneRow on l r).outerRefs ↔ c ∈ (ofJoin .leftSemi on l r).completed.outerRefs := by
  refine (mem_outerRefs_passing _ _ fun c hc => SortedSet.mem_union.2 (.inl hc)).trans ?_
  rw [mem_outerRefs_completed, mem_outerRefs_completed]
  change (c ∈ (l.outerRefs ∪ (oneRow r).outerRefs ∪ on.columns) \ (l.output ∪ r.output) ∧ c ∉ l.output ∪ r.output) ∧
    c ∉ l.output ↔ c ∈ (l.outerRefs ∪ r.outerRefs ∪ on.columns) \ (l.output ∪ r.output) ∧ c ∉ l.output
  simp only [SortedSet.mem_diff, SortedSet.mem_union, mem_outerRefs_oneRow hr, and_assoc, and_self]

theorem mem_constraint_ofOneRow (hl : l.Derivable) (hr : r.Derivable) (hdisjoint : ∀ c ∈ l.output, c ∉ r.output) :
    x ∈ (ofOneRow on l r).constraint ↔
      x ∈ (ofJoin .leftSemi on l r).completed.constraint ∨ x ∈ r.constraint ∧ x.columns = ∅ := by
  have hone : (oneRow r).Proper :=
    (hr.proper.ofLimit ⟨0, some 1, .none⟩ fun n hn => Option.some.inj hn ▸ by decide).completed
  refine (mem_constraint_passing _ _ (hl.proper.ofJoin hone .inner on).completed).trans ?_
  rw [mem_constraint_completed, mem_constraint_completed]
  change ((x ∈ l.constraint ∪ (oneRow r).constraint ∪ on.normalConjuncts ∧ ∀ c ∈ x.columns, c ∈ l.output ∪ r.output) ∧
    ∀ c ∈ x.columns, c ∈ l.output) ↔
    (x ∈ l.constraint ∪ on.normalConjuncts ∧ ∀ c ∈ x.columns, c ∈ l.output) ∨ x ∈ r.constraint ∧ x.columns = ∅
  have hempty : x ∈ r.constraint → ((∀ c ∈ x.columns, c ∈ l.output) ↔ x.columns = ∅) := by
    refine fun hx => ⟨fun hcolumns => SortedSet.ext_mem fun c => ?_, fun heq c hc => ?_⟩
    · refine iff_of_false (fun hc => ?_) (SortedSet.not_mem_empty c)
      exact hdisjoint c (hcolumns c hc) (hr.settled.constraint_subset hx c hc)
    · exact absurd (heq ▸ hc) (SortedSet.not_mem_empty c)
  simp only [SortedSet.mem_union, mem_constraint_oneRow hr.settled]
  constructor
  · rintro ⟨⟨(hx | hx) | hx, -⟩, hcolumns⟩
    · exact .inl ⟨.inl hx, hcolumns⟩
    · exact .inr ⟨hx, (hempty hx).1 hcolumns⟩
    · exact .inl ⟨.inr hx, hcolumns⟩
  · rintro (⟨hx, hcolumns⟩ | ⟨hx, heq⟩)
    · exact ⟨⟨or_right_comm.1 (.inl hx), fun c hc => .inl (hcolumns c hc)⟩, hcolumns⟩
    · exact ⟨⟨.inl (.inr hx), fun c hc => .inl ((hempty hx).2 heq c hc)⟩, (hempty hx).2 heq⟩

/-- The left columns of an inner join with one row have the properties of a semi join, just if the predicates of the
right input that mention no column hold of the semi join as well. -/
theorem ofOneRow_eq_iff (on : Scalar) (hl : l.Derivable) (hr : r.Derivable) (hdisjoint : ∀ c ∈ l.output, c ∉ r.output)
    (hrows : r.maxCardinality ≠ .bounded 0) : ofOneRow on l r = (ofJoin .leftSemi on l r).completed ↔
      ∀ x ∈ r.constraint, x.columns = ∅ → x ∈ (ofJoin .leftSemi on l r).completed.constraint := by
  constructor
  · intro h x hx hcolumns
    rw [← h]
    exact (mem_constraint_ofOneRow hl hr hdisjoint).2 (.inr ⟨hx, hcolumns⟩)
  · intro h
    refine (settled_completed _).ext (settled_completed _) (fun c => mem_output_passing l l.output)
      (fun c => mem_notNull_ofOneRow hr.settled hdisjoint) (fun k => covers_ofOneRow hl hrows)
      (maxCardinality_ofOneRow on hl.proper hrows) (fun c => mem_outerRefs_ofOneRow hr.settled) (fun x => ?_)
      (fun _ => Iff.rfl) fun _ => Iff.rfl
    exact (mem_constraint_ofOneRow hl hr hdisjoint).trans (or_iff_left_of_imp fun ⟨hx, hcolumns⟩ => h x hx hcolumns)

end

end LogicalProperties
end Cascade
