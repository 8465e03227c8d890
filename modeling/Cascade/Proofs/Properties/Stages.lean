import Cascade.Proofs.Properties.Equalities
import Cascade.Proofs.Properties.Products
import Cascade.Proofs.Rules.Splitting

/-!
Derived properties of an aggregation, in one step or in two. What is derived for the combination of partial results is
what is derived for all at once, as long as the columns of the partial results are no others
(`LogicalProperties.ofStages_eq`).
-/

namespace Cascade

namespace AggregateFunction

/-- Counts are combined by a sum; no other result is known not to be null. -/
theorem isNotNull_of_combiner {f g : AggregateFunction} (h : f.combiner? = some g) : g.isNotNull = false := by
  cases f <;> cases h <;> rfl

end AggregateFunction

namespace LogicalProperties

variable {a : Aggregation} {p : LogicalProperties} {c : ColumnId} {k : ColumnSet}

theorem mem_output_ofAggregate (p : LogicalProperties) :
    c ∈ (ofAggregate a p).output ↔ c ∈ a.groupBy ∨ c ∈ a.aggregates.map Prod.fst :=
  SortedSet.mem_insertAll.trans (or_congr_left SortedSet.mem_ofList)

/-- The result of a call is known not to be null. -/
def KnownNotNull (stage : AggregateStage) (p : LogicalProperties) (call : AggregateCall) : Prop :=
  call.func.isNotNull = true ∨
    stage = .globalStage ∧ call.columns.isEmpty = false ∧ ∀ c ∈ call.columns, c ∈ p.notNull

theorem mem_notNull_ofAggregate : c ∈ (ofAggregate a p).completed.notNull ↔
    (c ∈ a.groupBy ∧ c ∈ p.notNull) ∨ ∃ x ∈ a.aggregates, KnownNotNull a.stage p x.2 ∧ x.1 = c := by
  have hraw : c ∈ (ofAggregate a p).notNull ↔
      (c ∈ a.groupBy ∧ c ∈ p.notNull) ∨ ∃ x ∈ a.aggregates, KnownNotNull a.stage p x.2 ∧ x.1 = c := by
    refine SortedSet.mem_insertAll.trans (or_congr (SortedSet.mem_inter.trans ?_) ?_)
    · rw [SortedSet.mem_ofList]
    · simp only [List.mem_map, List.mem_filter, Bool.or_eq_true, Bool.and_eq_true, decide_eq_true_iff,
        Bool.not_eq_true', SortedSet.subset_iff, KnownNotNull, and_assoc]
  rw [mem_notNull_completed, hraw, mem_output_ofAggregate p]
  refine and_iff_left_of_imp (Or.imp And.left ?_)
  rintro ⟨x, hx, -, rfl⟩
  exact List.mem_map_of_mem hx

theorem mem_outerRefs_ofAggregate : c ∈ (ofAggregate a p).completed.outerRefs ↔
    (c ∈ p.outerRefs ∨ (c ∈ a.groupBy ∨ ∃ x ∈ a.aggregates, c ∈ x.2.columns) ∧ c ∉ p.output) ∧
      c ∉ (ofAggregate a p).output := by
  refine mem_outerRefs_completed.trans (and_congr_left fun _ => ?_)
  change c ∈ p.outerRefs ∪ (_ \ p.output) ↔ _
  rw [SortedSet.mem_union, SortedSet.mem_diff, ← List.foldl_map (f := fun x : ColumnId × AggregateCall => x.2.columns)
    (g := fun s t : ColumnSet => s ∪ t), SortedSet.mem_foldl_union, SortedSet.mem_ofList]
  simp only [List.mem_map, exists_exists_and_eq_and]

theorem isEmpty_ofList {l : List ColumnId} : (SortedSet.ofList l).isEmpty = true ↔ l = [] := by
  rw [SortedSet.isEmpty, List.isEmpty_iff, List.eq_nil_iff_forall_not_mem, List.eq_nil_iff_forall_not_mem]
  exact forall_congr' fun c => not_congr SortedSet.mem_ofList

theorem maxCardinality_ofAggregate : (ofAggregate a p).completed.maxCardinality =
    if a.stage ≠ .localStage ∧ a.groupBy = [] then .bounded 1 else p.maxCardinality := by
  change (if a.stage ≠ .localStage ∧ (SortedSet.ofList a.groupBy).isEmpty = true then _ else _) = _
  simp only [isEmpty_ofList]

/-- Rows with the same grouping columns are not told apart by a set of columns that contains these, or whose part
among these contains a key of the input. -/
theorem covers_ofAggregate : (ofAggregate a p).completed.keys.Covers k ↔
    (ofAggregate a p).completed.maxCardinality.atMostOne = true ∨
      (a.stage ≠ .localStage ∧ ∀ c ∈ a.groupBy, c ∈ k) ∨ p.keys.Covers (k ∩ .ofList a.groupBy) := by
  have hkeys : (ofAggregate a p).keys.Covers k ↔
      (a.stage ≠ .localStage ∧ ∀ c ∈ a.groupBy, c ∈ k) ∨ p.keys.Covers (k ∩ .ofList a.groupBy) := by
    change KeySet.Covers (if a.stage = .localStage then _ else _) k ↔ _
    split
    · rename_i hstage
      rw [KeySet.covers_filter_subset]
      simp only [hstage, ne_eq, not_true, false_and, false_or]
    · rename_i hstage
      rw [KeySet.covers_insert, KeySet.covers_filter_subset]
      simp only [hstage, ne_eq, not_false_iff, true_and, SortedSet.mem_ofList]
  refine (covers_completed fun x hx c hc => ?_).trans (or_congr_right hkeys)
  refine (mem_output_ofAggregate p).2 (.inl (SortedSet.mem_ofList.1 ?_))
  change x ∈ (if a.stage = .localStage then _ else _ : KeySet) at hx
  split at hx
  · exact SortedSet.subset_iff.1 (SortedSet.mem_filter.1 hx).2 c hc
  · rcases SortedSet.mem_insert.1 hx with rfl | hx
    · exact hc
    · exact SortedSet.subset_iff.1 (SortedSet.mem_filter.1 hx).2 c hc

end LogicalProperties

namespace Splits

open LogicalProperties

variable {calls partials combined : List (ColumnId × AggregateCall)} {groupBy : List ColumnId} {p q : LogicalProperties}
  {c : ColumnId} {call : AggregateCall}

theorem map_fst_combined (h : Splits calls partials combined) : combined.map Prod.fst = calls.map Prod.fst :=
  h.map_eq fun _ _ _ _ _ _ _ => rfl

/-- The partial results are those of the calls themselves. -/
theorem map_snd_partials (h : Splits calls partials combined) : partials.map Prod.snd = calls.map Prod.snd := by
  induction h with
  | nil => rfl
  | cons id column _ _ _ ih => rw [List.map_cons, List.map_cons, ih]

theorem exists_mem_columns_partials (h : Splits calls partials combined) :
    (∃ x ∈ partials, c ∈ x.2.columns) ↔ ∃ x ∈ calls, c ∈ x.2.columns := by
  have hmap : ∀ l : List (ColumnId × AggregateCall), (∃ x ∈ l, c ∈ x.2.columns) ↔ ∃ y ∈ l.map Prod.snd, c ∈ y.columns :=
    fun l => by simp only [List.mem_map, exists_exists_and_eq_and]
  rw [hmap, hmap, h.map_snd_partials]

/-- Partial results are all that is combined. -/
theorem columns_combined (h : Splits calls partials combined) {x : ColumnId × AggregateCall} (hx : x ∈ combined)
    (hc : c ∈ x.2.columns) : c ∈ partials.map Prod.fst := by
  induction h with
  | nil => exact absurd hx List.not_mem_nil
  | cons id column _ _ _ ih =>
    rcases List.mem_cons.1 hx with rfl | hx
    · obtain rfl : c = column := List.mem_singleton.1 hc
      exact List.mem_cons_self ..
    · exact List.mem_cons_of_mem _ (ih hx)

/-- The partial results of functions that are never null are not null. -/
theorem mem_notNull_partials (hnodup : (partials.map Prod.fst).Nodup) (hfresh : ∀ x ∈ partials, x.1 ∉ groupBy)
    (hmem : (c, call) ∈ partials) :
    c ∈ (ofAggregate ⟨groupBy, partials, .localStage⟩ p).completed.notNull ↔ call.func.isNotNull = true := by
  rw [mem_notNull_ofAggregate, or_iff_right fun h => hfresh _ hmem h.1]
  constructor
  · rintro ⟨⟨_, call'⟩, hx, hknown | ⟨hstage, -⟩, rfl⟩
    · obtain rfl : call' = call := congrArg Prod.snd (List.inj_on_of_nodup_map hnodup hx hmem rfl)
      exact hknown
    · cases hstage
  · exact fun h => ⟨_, hmem, .inl h, rfl⟩

/-- A combined result is known not to be null just if the result of the call is. -/
theorem knownNotNull_iff (h : Splits calls partials combined)
    (hpartials : ∀ x ∈ partials, x.1 ∈ q.notNull ↔ x.2.func.isNotNull = true) :
    (∃ x ∈ combined, KnownNotNull .globalStage q x.2 ∧ x.1 = c) ↔ ∃ x ∈ calls, KnownNotNull .single p x.2 ∧ x.1 = c := by
  have hsame : combined.map (fun x => KnownNotNull .globalStage q x.2 ∧ x.1 = c) =
      calls.map (fun x => KnownNotNull .single p x.2 ∧ x.1 = c) := by
    refine h.map_eq fun id column call g hmem _ hcombiner => propext (and_congr_left fun _ => ?_)
    have hcombined : KnownNotNull .globalStage q ⟨g, [.column column], false⟩ ↔ column ∈ q.notNull := by
      unfold KnownNotNull
      rw [AggregateFunction.isNotNull_of_combiner hcombiner, or_iff_right Bool.false_ne_true]
      refine ⟨fun h => h.2.2 column (List.mem_singleton.2 rfl), fun h => ⟨rfl, rfl, fun c hc => ?_⟩⟩
      exact List.mem_singleton.1 hc ▸ h
    refine hcombined.trans ((hpartials _ hmem).trans ⟨.inl, fun h => h.resolve_right fun h => (nomatch h.1)⟩)
  have hexists : ∀ {l : List (ColumnId × AggregateCall)} {P : ColumnId × AggregateCall → Prop},
      (∃ x ∈ l, P x) ↔ ∃ q ∈ l.map P, q := by
    simp only [List.mem_map, exists_exists_and_eq_and, implies_true]
  rw [hexists, hexists, hsame]

end Splits

namespace LogicalProperties

variable {calls partials combined : List (ColumnId × AggregateCall)} {groupBy : List ColumnId} {p : LogicalProperties}
  {c : ColumnId} {k : ColumnSet} {x : Scalar}

/-- What is derived for the combination of partial results. -/
def ofStages (groupBy : List ColumnId) (partials combined : List (ColumnId × AggregateCall)) (p : LogicalProperties) :
    LogicalProperties :=
  (ofAggregate ⟨groupBy, combined, .globalStage⟩ (ofAggregate ⟨groupBy, partials, .localStage⟩ p).completed).completed

theorem maxCardinality_ofStages : (ofStages groupBy partials combined p).maxCardinality =
    (ofAggregate ⟨groupBy, calls, .single⟩ p).completed.maxCardinality := by
  simp [ofStages, maxCardinality_ofAggregate]

/-- The keys of the input within the grouping columns are kept by either step. -/
theorem covers_ofStages (hp : p.Settled) : (ofStages groupBy partials combined p).keys.Covers k ↔
    (ofAggregate ⟨groupBy, calls, .single⟩ p).completed.keys.Covers k := by
  have hcard : (ofStages groupBy partials combined p).maxCardinality =
    (ofAggregate ⟨groupBy, calls, .single⟩ p).completed.maxCardinality := maxCardinality_ofStages
  have hinter : k ∩ .ofList groupBy ∩ .ofList groupBy = (k ∩ .ofList groupBy : ColumnSet) := by
    refine SortedSet.ext_mem fun c => ?_
    simp only [SortedSet.mem_inter, and_assoc, and_self]
  refine covers_ofAggregate.trans (Iff.trans ?_ covers_ofAggregate.symm)
  change (ofStages groupBy partials combined p).maxCardinality.atMostOne = true ∨ _ ↔ _
  rw [hcard]
  refine or_congr_right (or_congr (by simp only [ne_eq, reduceCtorEq]) (covers_ofAggregate.trans ?_))
  simp only [maxCardinality_ofAggregate, ne_eq, not_true, false_and, if_false, false_or, hinter]
  exact or_iff_right_of_imp fun hone => hp.covers_of_atMostOne hone _

section

variable (h : Splits calls partials combined)

include h

theorem mem_output_ofStages : c ∈ (ofStages groupBy partials combined p).output ↔
    c ∈ (ofAggregate ⟨groupBy, calls, .single⟩ p).output :=
  (mem_output_ofAggregate p).trans (Iff.trans (by rw [h.map_fst_combined]) (mem_output_ofAggregate p).symm)

theorem mem_notNull_ofStages (hnodup : (partials.map Prod.fst).Nodup) (hfresh : ∀ x ∈ partials, x.1 ∉ groupBy) :
    c ∈ (ofStages groupBy partials combined p).notNull ↔
      c ∈ (ofAggregate ⟨groupBy, calls, .single⟩ p).completed.notNull := by
  refine mem_notNull_ofAggregate.trans (Iff.trans ?_ mem_notNull_ofAggregate.symm)
  refine or_congr (and_congr_right fun hc => ?_) (h.knownNotNull_iff fun x => Splits.mem_notNull_partials hnodup hfresh)
  refine mem_notNull_ofAggregate.trans ((or_iff_left ?_).trans (and_iff_right hc))
  rintro ⟨x, hx, -, rfl⟩
  exact hfresh x hx hc

theorem mem_outerRefs_ofStages
    (hfresh : ∀ x ∈ partials, x.1 ∉ (ofAggregate ⟨groupBy, calls, .single⟩ p).completed.outerRefs) :
    c ∈ (ofStages groupBy partials combined p).outerRefs ↔
      c ∈ (ofAggregate ⟨groupBy, calls, .single⟩ p).completed.outerRefs := by
  have hsingle := mem_outerRefs_ofAggregate (a := ⟨groupBy, calls, .single⟩) (p := p) (c := c)
  refine mem_outerRefs_ofAggregate.trans (Iff.trans ?_ hsingle.symm)
  refine (and_congr_right' (not_congr (mem_output_ofStages h))).trans (and_congr_left fun hout => ?_)
  -- nothing but grouping columns and partial results is used by the second step
  have hlower : ∀ b, b ∈ (ofAggregate ⟨groupBy, partials, .localStage⟩ p).output ↔
      b ∈ groupBy ∨ b ∈ partials.map Prod.fst := fun _ => mem_output_ofAggregate p
  rw [or_iff_left, mem_outerRefs_ofAggregate, h.exists_mem_columns_partials]
  · refine and_iff_left_of_imp fun hraw hmem => ?_
    rcases (hlower c).1 hmem with hc | hc
    · exact hout ((mem_output_ofAggregate p).2 (.inl hc))
    · obtain ⟨x, hx, rfl⟩ := List.mem_map.1 hc
      exact hfresh x hx (hsingle.2 ⟨hraw, hout⟩)
  · rintro ⟨hc | ⟨x, hx, hc⟩, hnot⟩
    · exact hnot ((hlower c).2 (.inl hc))
    · exact hnot ((hlower c).2 (.inr (h.columns_combined hx hc)))

/-- A predicate of the input is kept if it is about grouping columns, in either step. -/
theorem mem_constraint_ofStages (hp : p.Settled) (hids : ∀ x ∈ calls, x.1 ∉ p.output) :
    x ∈ (ofStages groupBy partials combined p).constraint ↔
      x ∈ (ofAggregate ⟨groupBy, calls, .single⟩ p).completed.constraint := by
  have houtput : ∀ c, c ∈ (ofStages groupBy partials combined p).output ↔
    c ∈ (ofAggregate ⟨groupBy, calls, .single⟩ p).output := fun _ => mem_output_ofStages h
  refine mem_constraint_completed.trans (Iff.trans ?_ mem_constraint_completed.symm)
  refine (and_congr_left fun hcolumns => ?_).trans (and_congr_right fun _ => forall₂_congr fun c _ => houtput c)
  refine mem_constraint_completed.trans (and_iff_left_of_imp fun hx c hc => (mem_output_ofAggregate p).2 (.inl ?_))
  refine ((mem_output_ofAggregate p).1 ((houtput c).1 (hcolumns c hc))).resolve_right fun hcall => ?_
  obtain ⟨y, hy, rfl⟩ := List.mem_map.1 hcall
  exact hids y hy (hp.constraint_subset hx _ hc)

/-- The combination of partial results has the properties of an aggregation in one step. -/
theorem ofStages_eq (hp : p.Settled) (hnodup : (partials.map Prod.fst).Nodup) (hids : ∀ x ∈ calls, x.1 ∉ p.output)
    (hfresh : ∀ x ∈ partials, x.1 ∉ groupBy ∧ x.1 ∉ (ofAggregate ⟨groupBy, calls, .single⟩ p).completed.outerRefs) :
    ofStages groupBy partials combined p = (ofAggregate ⟨groupBy, calls, .single⟩ p).completed :=
  (settled_completed _).ext (settled_completed _) (fun _ => mem_output_ofStages h)
    (fun _ => mem_notNull_ofStages h hnodup fun x hx => (hfresh x hx).1) (fun _ => covers_ofStages hp)
    maxCardinality_ofStages (fun _ => mem_outerRefs_ofStages h fun x hx => (hfresh x hx).2)
    (fun _ => mem_constraint_ofStages h hp hids) (fun _ => Iff.rfl) fun _ => Iff.rfl

end

end LogicalProperties
end Cascade
