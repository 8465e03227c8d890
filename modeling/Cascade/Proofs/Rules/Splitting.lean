import Cascade.Proofs.Rules.Alternatives
import Cascade.Proofs.Schema.Registration
import Cascade.Proofs.Semantics.Aggregation
import Cascade.Proofs.Semantics.Products

/-!
Aggregation in two steps. The partial rows of a part are one for each of its groups, so that the rows of a group are
given to the combining step part by part.
-/

namespace Cascade

namespace Relation

variable {groupBy : List ColumnId} {b : Binding} {key : List (ColumnId × Value)} {rows : Multiset Row}

theorem groupMembers_of_not_mem (h : key ∉ groupKeys groupBy b rows) (hkey : ∃ b', key = groupKey groupBy b') :
    groupMembers groupBy b rows key = 0 := by
  refine Multiset.filter_eq_nil.2 fun r hr hgroup => h ?_
  unfold groupKeys
  split
  · rename_i hempty
    obtain ⟨b', rfl⟩ := hkey
    rw [List.isEmpty_iff.1 hempty]
    exact Multiset.mem_singleton.2 rfl
  · exact Multiset.mem_dedup.2 (Multiset.mem_map.2 ⟨r, hr, hgroup⟩)

variable {parts : Multiset (Multiset Row)}

theorem mem_groupKeys_join (hparts : parts ≠ 0) :
    key ∈ groupKeys groupBy b parts.join ↔ ∃ part ∈ parts, key ∈ groupKeys groupBy b part := by
  unfold groupKeys
  split
  · obtain ⟨part, hpart⟩ := Multiset.exists_mem_of_ne_zero hparts
    exact ⟨fun h => ⟨part, hpart, h⟩, fun ⟨_, _, h⟩ => h⟩
  · simp only [Multiset.mem_dedup, Multiset.mem_map, Multiset.mem_join]
    constructor
    · rintro ⟨r, ⟨part, hpart, hr⟩, hkey⟩
      exact ⟨part, hpart, r, hr, hkey⟩
    · rintro ⟨part, hpart, r, hr, hkey⟩
      exact ⟨r, ⟨part, hpart, hr⟩, hkey⟩

/-- The parts that have rows in a group; without grouping columns every part has its share. -/
def sharing (groupBy : List ColumnId) (b : Binding) (parts : Multiset (Multiset Row)) (key : List (ColumnId × Value)) :
    Multiset (Multiset Row) :=
  parts.filter (fun part => key ∈ groupKeys groupBy b part)

theorem groupMembers_join (hkey : ∃ b', key = groupKey groupBy b') :
    groupMembers groupBy b parts.join key =
      ((sharing groupBy b parts key).map (fun part => groupMembers groupBy b part key)).join := by
  change _ = (sharing groupBy b parts key).bind _
  unfold sharing
  rw [Multiset.bind_filter, groupMembers, Multiset.filter_join]
  refine Multiset.bind_congr fun part _ => ?_
  split
  · rfl
  · exact groupMembers_of_not_mem ‹_› hkey

/-- The rows of a group among rows that are made of the keys of the parts. -/
theorem groupMembers_bind {f : Multiset Row → List (ColumnId × Value) → Row}
    (hf : ∀ part ∈ parts, ∀ k ∈ groupKeys groupBy b part, groupKey groupBy (b.with (f part k)) = k) :
    groupMembers groupBy b (parts.bind (fun part => (groupKeys groupBy b part).map (f part))) key =
      (sharing groupBy b parts key).map (fun part => f part key) := by
  unfold groupMembers sharing
  rw [Multiset.filter_bind, ← Multiset.bind_singleton, Multiset.bind_filter]
  refine Multiset.bind_congr fun part hpart => ?_
  rw [Multiset.filter_map, Multiset.filter_congr fun k hk => by rw [Function.comp_apply, hf part hpart k hk],
    Multiset.filter_eq']
  split
  · rename_i hkey
    rw [Multiset.count_eq_one_of_mem (nodup_groupKeys ..) hkey]
    rfl
  · rename_i hkey
    rw [Multiset.count_eq_zero_of_notMem hkey]
    rfl

theorem groupKeys_bind {f : Multiset Row → List (ColumnId × Value) → Row} (hparts : parts ≠ 0)
    (hf : ∀ part ∈ parts, ∀ k ∈ groupKeys groupBy b part, groupKey groupBy (b.with (f part k)) = k) :
    groupKeys groupBy b (parts.bind (fun part => (groupKeys groupBy b part).map (f part))) =
      groupKeys groupBy b parts.join := by
  by_cases hempty : groupBy.isEmpty
  · rw [groupKeys, if_pos hempty, groupKeys, if_pos hempty]
  refine (Multiset.Nodup.ext (nodup_groupKeys ..) (nodup_groupKeys ..)).2 fun key => ?_
  rw [mem_groupKeys_join hparts, groupKeys, if_neg hempty, Multiset.mem_dedup, Multiset.mem_map]
  constructor
  · rintro ⟨r, hr, rfl⟩
    obtain ⟨part, hpart, hr⟩ := Multiset.mem_bind.1 hr
    obtain ⟨k, hk, rfl⟩ := Multiset.mem_map.1 hr
    exact ⟨part, hpart, (hf part hpart k hk).symm ▸ hk⟩
  · rintro ⟨part, hpart, hkey⟩
    exact ⟨f part key, Multiset.mem_bind.2 ⟨part, hpart, Multiset.mem_map_of_mem _ hkey⟩, hf part hpart key hkey⟩

end Relation

/-- The rows of an aggregation over some rows. -/
def Aggregation.evaluate (S : Interpretation) (a : Aggregation) (b : Binding) (rows : Multiset Row) : Multiset Row :=
  (Relation.groupKeys a.groupBy b rows).map (fun key => .ofPairs (key ++ a.aggregates.map (fun x =>
    (x.1, x.2.value S b (Relation.groupMembers a.groupBy b rows key)))))

theorem Expr.rows_aggregate (S : Interpretation) (a : Aggregation) (e : Expr) (s : Scope) :
    ((ofLogical (.aggregate a) [e]).meaning S).rows s = a.evaluate S s.binding ((e.meaning S).rows s) :=
  Multiset.map_map ..

/-- Calls with their partial results, each in a column of its own, and the calls that combine these. -/
inductive Splits : List (ColumnId × AggregateCall) → List (ColumnId × AggregateCall) →
    List (ColumnId × AggregateCall) → Prop
  | nil : Splits [] [] []
  | cons {calls partials combined : List (ColumnId × AggregateCall)} {call : AggregateCall} {g : AggregateFunction}
    (id p : ColumnId) (hdistinct : call.distinct = false) (hcombiner : call.func.combiner? = some g)
    (h : Splits calls partials combined) :
    Splits ((id, call) :: calls) ((p, call) :: partials) ((id, ⟨g, [.column p], false⟩) :: combined)

theorem Splits.map_eq {β : Type} {calls partials combined : List (ColumnId × AggregateCall)}
    {F G : ColumnId × AggregateCall → β} (h : Splits calls partials combined)
    (hFG : ∀ id p call g, (p, call) ∈ partials → call.distinct = false → call.func.combiner? = some g →
      G (id, ⟨g, [.column p], false⟩) = F (id, call)) : combined.map G = calls.map F := by
  induction h with
  | nil => rfl
  | cons id p hdistinct hcombiner _ ih =>
    rw [List.map_cons, List.map_cons, hFG id p _ _ (List.mem_cons_self ..) hdistinct hcombiner,
      ih fun id p call g hp => hFG id p call g (List.mem_cons_of_mem _ hp)]

namespace Aggregation

variable {S : Interpretation} {groupBy : List ColumnId} {calls partials combined : List (ColumnId × AggregateCall)}
  {b : Binding}

/-- The value of a partial result in the row of a group. -/
theorem with_partial {rows : Multiset Row} {key : List (ColumnId × Value)}
    (hkey : key ∈ Relation.groupKeys groupBy b rows) (hfresh : ∀ x ∈ partials, x.1 ∉ groupBy)
    (hpartials : (partials.map Prod.fst).Nodup) {p : ColumnId} {call : AggregateCall} (hp : (p, call) ∈ partials)
    (value : AggregateCall → Value) :
    b.with (.ofPairs (key ++ partials.map (fun x => (x.1, value x.2)))) p = value call :=
  Binding.with_of_some (Relation.ofPairs_group hkey hfresh hpartials hp value)

/-- A call over a group and its combiner over the partial results for the group. -/
theorem value_combined (hS : S.StandardAggregates) {call : AggregateCall} {g : AggregateFunction} {p : ColumnId}
    (hdistinct : call.distinct = false) (hcombiner : call.func.combiner? = some g)
    {shares : Multiset (Multiset Row)} (hshares : shares ≠ 0) {f : Multiset Row → Row}
    (hf : ∀ share ∈ shares, b.with (f share) p = call.value S b share) :
    (⟨g, [.column p], false⟩ : AggregateCall).value S b (shares.map f) = call.value S b shares.join := by
  unfold AggregateCall.value
  rw [hdistinct, Multiset.map_map, Multiset.map_join]
  have hargs : shares.map (fun share => Scalar.evalArgs S.toFunctions (b.with (f share)) [.column p]) =
      (shares.map (Multiset.map (fun r => Scalar.evalArgs S.toFunctions (b.with r) call.args))).map
        (fun part => [S.aggregate call.func false part]) := by
    rw [Multiset.map_map]
    refine Multiset.map_congr rfl fun share hshare => ?_
    change [b.with (f share) p] = _
    rw [hf share hshare, AggregateCall.value, hdistinct]
    rfl
  exact (congrArg _ hargs).trans (hS.combine hcombiner fun h => hshares (Multiset.map_eq_zero.1 h))

/-- Combining the partial rows of the parts gives the rows of all parts together. -/
theorem evaluate_split (hS : S.StandardAggregates) (hsplits : Splits calls partials combined)
    (hfresh : ∀ x ∈ partials, x.1 ∉ groupBy) (hpartials : (partials.map Prod.fst).Nodup)
    (stage lower upper : AggregateStage) (b : Binding) {parts : Multiset (Multiset Row)} (hparts : parts ≠ 0) :
    evaluate S ⟨groupBy, combined, upper⟩ b (parts.bind (evaluate S ⟨groupBy, partials, lower⟩ b)) =
      evaluate S ⟨groupBy, calls, stage⟩ b parts.join := by
  let partialRow (key : List (ColumnId × Value)) (share : Multiset Row) : Row :=
    .ofPairs (key ++ partials.map (fun x => (x.1, x.2.value S b share)))
  have hkeys : ∀ part ∈ parts, ∀ k ∈ Relation.groupKeys groupBy b part,
      Relation.groupKey groupBy (b.with (partialRow k (Relation.groupMembers groupBy b part k))) = k :=
    fun part _ k hk => Relation.groupKey_ofPairs hk _ b
  unfold evaluate
  dsimp only
  rw [Relation.groupKeys_bind hparts hkeys]
  refine Multiset.map_congr rfl fun key hkey => congrArg (fun l => Row.ofPairs (key ++ l)) ?_
  refine hsplits.map_eq fun id p call g hp hdistinct hcombiner => congrArg (Prod.mk id) ?_
  obtain ⟨part, hpart, hshare⟩ := (Relation.mem_groupKeys_join hparts).1 hkey
  have hsharing : Relation.sharing groupBy b parts key ≠ 0 := fun h =>
    Multiset.notMem_zero part (h ▸ Multiset.mem_filter.2 ⟨hpart, hshare⟩)
  rw [Relation.groupMembers_bind hkeys, Relation.groupMembers_join (Relation.exists_groupKey hkey)]
  have hrows : (Relation.sharing groupBy b parts key).map
        (fun part => partialRow key (Relation.groupMembers groupBy b part key)) =
      ((Relation.sharing groupBy b parts key).map (fun part => Relation.groupMembers groupBy b part key)).map
        (partialRow key) := by
    rw [Multiset.map_map]
    rfl
  rw [hrows]
  refine value_combined hS hdistinct hcombiner (fun h => hsharing (Multiset.map_eq_zero.1 h)) fun share _ => ?_
  exact with_partial hkey hfresh hpartials hp fun call => call.value S b share

end Aggregation

namespace Rule

variable {σ κ : Type} {ctx : RuleContext σ κ} {columns : Columns}

/-- A partial result is put in a new column, unless its argument is a column nothing is known of. -/
theorem yields_splitCall (call : AggregateCall) (g : AggregateFunction) :
    Yields (splitCall call g) columns
      (fun r t => r = ((columns.size + 1, call), ⟨g, [.column (columns.size + 1)], false⟩) ∧
        ∃ info, t = (columns.append info).2)
      (fun _ _ => ∃ c ∈ call.columns, ∀ info, columns.get c ≠ .ok info) := by
  have hrest : ∀ type : DataType, Yields (do
      let partialColumn ← modifyGet (fun (columns : Columns) =>
        columns.add ⟨"partial_" ++ toString call.func, call.func.returnType type, none⟩)
      pure ((partialColumn, call), (⟨g, [.column partialColumn], false⟩ : AggregateCall)) : RuleM _) columns
      (fun r t => r = ((columns.size + 1, call), ⟨g, [.column (columns.size + 1)], false⟩) ∧
        ∃ info, t = (columns.append info).2)
      (fun _ _ => ∃ c ∈ call.columns, ∀ info, columns.get c ≠ .ok info) :=
    fun type => Yields.bind_modifyGet (Yields.of_pure ⟨rfl, _, rfl⟩)
  unfold splitCall
  split
  · rename_i c rest hc
    have hmem : c ∈ call.columns := by
      unfold AggregateCall.columns
      rw [hc]
      exact SortedSet.mem_union.2 (.inl (List.mem_singleton.2 rfl))
    refine Yields.bind_get (Yields.bind_lift (fun type _ => hrest type) fun e he => ⟨c, hmem, fun info hinfo => ?_⟩)
    rw [hinfo] at he
    cases he
  · exact hrest .int64

/-- Partial results are put in new columns, each in its own. -/
theorem yields_splitCalls_fresh {calls : List (ColumnId × AggregateCall)}
    (hsplittable : ∀ x ∈ calls, x.2.isSplittable = true) :
    Yields (splitCalls calls) columns
      (fun r t => Splits calls r.1 r.2 ∧ (r.1.map Prod.fst).Nodup ∧ columns.size ≤ t.size ∧
        ∀ x ∈ r.1, columns.size < x.1 ∧ x.1 ≤ t.size)
      (fun _ _ => ∃ x ∈ calls, ∃ c ∈ x.2.columns, ∀ info, columns.get c ≠ .ok info) := by
  induction calls generalizing columns with
  | nil => exact Yields.of_pure ⟨.nil, List.nodup_nil, Nat.le_refl _, fun _ h => absurd h List.not_mem_nil⟩
  | cons x calls ih =>
    obtain ⟨id, call⟩ := x
    obtain ⟨hdistinct, hcombines⟩ := Bool.and_eq_true_iff.1 (hsplittable _ (List.mem_cons_self ..))
    obtain ⟨g, hg⟩ := Option.isSome_iff_exists.1 hcombines
    unfold splitCalls
    rw [hg]
    refine ((yields_splitCall call g).mono (fun _ _ h => h) fun _ _ h => ⟨_, List.mem_cons_self .., h⟩).bind ?_
    rintro _ _ ⟨rfl, info, rfl⟩
    have hsize : (columns.append info).2.size = columns.size + 1 := Array.size_push ..
    refine ((ih fun x hx => hsplittable x (List.mem_cons_of_mem _ hx)).mono (fun _ _ h => h) ?_).bind ?_
    · rintro _ _ ⟨x, hx, c, hc, hunknown⟩
      exact ⟨x, List.mem_cons_of_mem _ hx, c, hc, fun known hknown =>
        hunknown known (Columns.get_append info hknown)⟩
    · rintro ⟨partials, others⟩ after ⟨hsplits, hnodup, hle, hfresh⟩
      rw [hsize] at hle hfresh
      refine Yields.of_pure ⟨.cons id _ (by simpa using hdistinct) hg hsplits, ?_, Nat.le_of_succ_le hle, ?_⟩
      · refine List.nodup_cons.2 ⟨fun h => ?_, hnodup⟩
        obtain ⟨x, hx, hid⟩ := List.mem_map.1 h
        exact absurd (hfresh x hx).1 (by rw [hid]; exact lt_irrefl _)
      · refine List.forall_mem_cons.2 ⟨⟨Nat.lt_succ_self _, hle⟩, fun x hx => ?_⟩
        exact (hfresh x hx).imp_left Nat.lt_of_succ_lt

theorem yields_splitCalls {calls : List (ColumnId × AggregateCall)}
    (hsplittable : ∀ x ∈ calls, x.2.isSplittable = true)
    (hargs : ∀ x ∈ calls, ∀ c ∈ x.2.columns, ∃ info, columns.get c = .ok info) :
    Yields (splitCalls calls) columns
      (fun r _ => Splits calls r.1 r.2 ∧ (r.1.map Prod.fst).Nodup ∧ ∀ x ∈ r.1, columns.size < x.1)
      (fun _ _ => False) := by
  refine (yields_splitCalls_fresh hsplittable).mono (fun _ _ h => ⟨h.1, h.2.1, fun x hx => (h.2.2.2 x hx).1⟩) ?_
  rintro _ _ ⟨x, hx, c, hc, hunknown⟩
  obtain ⟨info, hinfo⟩ := hargs x hx c hc
  exact hunknown info hinfo

/-- An aggregation is split into partial results on every part of the rows and their combination, however the rows
are parted. -/
theorem splitAggregate_preserves (S : Interpretation) (hS : S.StandardAggregates) (ctx : RuleContext σ κ)
    {a : Aggregation} (input : Expr) (hsplittable : isSplittable a = true)
    (hgroupBy : ∀ c ∈ a.groupBy, ∃ info, columns.get c = .ok info)
    (hargs : ∀ x ∈ a.aggregates, ∀ c ∈ x.2.columns, ∃ info, columns.get c = .ok info) :
    ∃ lower upper after,
      (splitAggregate.transform ctx (.ofLogical (.aggregate a) [input])).run columns =
        (.ok [.ofLogical (.aggregate upper) [.ofLogical (.aggregate lower) [input]]], after) ∧
      a.stage = .single ∧ lower.stage = .localStage ∧ upper.stage = .globalStage ∧
      (∀ (b : Binding) (parts : Multiset (Multiset Row)), parts ≠ 0 →
        upper.evaluate S b (parts.bind (lower.evaluate S b)) = a.evaluate S b parts.join) ∧
      (Expr.ofLogical (.aggregate upper) [.ofLogical (.aggregate lower) [input]]).meaning S =
        (Expr.ofLogical (.aggregate a) [input]).meaning S := by
  obtain ⟨⟨hstage, -⟩, hcalls⟩ := (Bool.and_eq_true_iff.1 hsplittable).imp_left Bool.and_eq_true_iff.1
  have hcall : ∀ x ∈ a.aggregates, x.2.isSplittable = true := fun x hx =>
    (Bool.and_eq_true_iff.1 (Bool.and_eq_true_iff.1 (List.all_eq_true.1 hcalls x hx)).1).1
  have hyields : Yields (splitAggregate.transform ctx (.ofLogical (.aggregate a) [input])) columns
      (fun l _ => ∃ partials combined, Splits a.aggregates partials combined ∧ (partials.map Prod.fst).Nodup ∧
        (∀ x ∈ partials, columns.size < x.1) ∧ l = [.ofLogical (.aggregate ⟨a.groupBy, combined, .globalStage⟩)
          [.ofLogical (.aggregate ⟨a.groupBy, partials, .localStage⟩) [input]]])
      (fun _ _ => False) := by
    change Yields (if !isSplittable a then _ else _) _ _ _
    rw [hsplittable]
    refine (yields_splitCalls hcall hargs).bind ?_
    rintro ⟨partials, combined⟩ t ⟨hsplits, hnodup, hfresh⟩
    exact Yields.of_pure ⟨partials, combined, hsplits, hnodup, hfresh, rfl⟩
  obtain ⟨_, after, hrun, partials, combined, hsplits, hnodup, hfresh, rfl⟩ := hyields.exists_run
  have hapart : ∀ x ∈ partials, x.1 ∉ a.groupBy := fun x hx hmem => by
    obtain ⟨info, hinfo⟩ := hgroupBy x.1 hmem
    exact absurd (hfresh x hx) (Nat.not_lt.2 (Columns.le_size_of_get hinfo))
  have hparts : ∀ (b : Binding) {parts : Multiset (Multiset Row)}, parts ≠ 0 →
      Aggregation.evaluate S ⟨a.groupBy, combined, .globalStage⟩ b
        (parts.bind (Aggregation.evaluate S ⟨a.groupBy, partials, .localStage⟩ b)) = a.evaluate S b parts.join :=
    fun b _ => Aggregation.evaluate_split hS hsplits hapart hnodup a.stage _ _ b
  refine ⟨_, _, after, hrun, of_decide_eq_true hstage, rfl, rfl, fun b _ => hparts b, ?_⟩
  refine Relation.ext_rows (congrArg (fun l => SortedSet.ofList (a.groupBy ++ l)) ?_) fun s => ?_
  · exact hsplits.map_eq fun _ _ _ _ _ _ _ => rfl
  · rw [Expr.rows_aggregate, Expr.rows_aggregate, Expr.rows_aggregate]
    have hwhole := hparts s.binding (Multiset.singleton_ne_zero ((input.meaning S).rows s))
    rwa [Multiset.singleton_bind, Multiset.singleton_join] at hwhole

end Rule

section

/-- Sales in some years, with the aggregate functions of SQL. -/
noncomputable def countedSalesIn (years : List Value) : Interpretation :=
  { salesIn years with
    aggregate := fun f _ rows =>
      match f with
      | .count => Value.countOf rows
      | .sum => Value.sumOf rows
      | .min => Value.firstOf compare rows
      | .max => Value.firstOf (fun a b => compare b a) rows
      | .avg => .null }

/-- How many sales there are, how many of a known year and which the last of these is. -/
def salesSummary : Aggregation :=
  ⟨[], [(3, ⟨.count, [], false⟩), (4, ⟨.count, [.column 2], false⟩), (5, ⟨.max, [.column 2], false⟩)], .single⟩

theorem splitAggregate_preserves_salesSummary :
    let S := countedSalesIn [.int32 2024, .null]
    let lower : Aggregation :=
      ⟨[], [(3, ⟨.count, [], false⟩), (4, ⟨.count, [.column 2], false⟩), (5, ⟨.max, [.column 2], false⟩)], .localStage⟩
    let upper : Aggregation :=
      ⟨[], [(3, ⟨.sum, [.column 3], false⟩), (4, ⟨.sum, [.column 4], false⟩), (5, ⟨.max, [.column 5], false⟩)],
        .globalStage⟩
    let rows := (sales.meaning S).rows outermost
    ((Rule.splitAggregate.transform salesContext (.ofLogical (.aggregate salesSummary) [sales])).run salesColumns).1 =
        .ok [.ofLogical (.aggregate upper) [.ofLogical (.aggregate lower) [sales]]] ∧
      upper.evaluate S outermost.binding
          (({rows, 0} : Multiset (Multiset Row)).bind (lower.evaluate S outermost.binding)) =
        salesSummary.evaluate S outermost.binding rows := by
  intro S lower upper rows
  have hS : S.StandardAggregates := ⟨fun _ => rfl, fun _ => rfl, fun _ => rfl, fun _ => rfl⟩
  have hrun : ((Rule.splitAggregate.transform salesContext (.ofLogical (.aggregate salesSummary) [sales])).run
      salesColumns).1 = .ok [.ofLogical (.aggregate upper) [.ofLogical (.aggregate lower) [sales]]] := rfl
  have hargs : ∀ x ∈ salesSummary.aggregates, ∀ c ∈ x.2.columns, ∃ info, salesColumns.get c = .ok info := by
    intro x hx c hc
    simp only [salesSummary, List.mem_cons, List.not_mem_nil, or_false] at hx
    obtain rfl | rfl | rfl := hx
    · exact absurd hc List.not_mem_nil
    all_goals
      obtain rfl : c = 2 := List.mem_singleton.1 hc
      exact ⟨_, rfl⟩
  obtain ⟨lower', upper', after, hrun', -, -, -, hparts, -⟩ := Rule.splitAggregate_preserves S hS salesContext sales
    (show Rule.isSplittable salesSummary = true from rfl) (fun c hc => absurd hc List.not_mem_nil) hargs
  have halternative : [Expr.ofLogical (.aggregate upper') [.ofLogical (.aggregate lower') [sales]]] =
      [.ofLogical (.aggregate upper) [.ofLogical (.aggregate lower) [sales]]] :=
    Except.ok.inj ((congrArg Prod.fst hrun').symm.trans hrun)
  obtain ⟨rfl, rfl⟩ : upper' = upper ∧ lower' = lower := by simpa [Expr.ofLogical] using halternative
  refine ⟨hrun, (hparts outermost.binding {rows, 0} Multiset.cons_ne_zero).trans ?_⟩
  exact congrArg _ (add_zero rows)

end

end Cascade
