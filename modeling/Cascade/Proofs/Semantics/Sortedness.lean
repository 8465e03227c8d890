import Cascade.Derivation.Physical
import Cascade.Proofs.Properties.Describing
import Cascade.Proofs.Rules.Implementing
import Cascade.Proofs.Semantics.Execution
import Cascade.Proofs.Semantics.Products

/-!
Derived orderings tell the truth: if the inputs of an operator deliver rows in the orderings derived for them, the operator
delivers rows in the ordering derived for it (`PhysicalOp.derived_sorts`).
-/

namespace Cascade

variable {N : Type}

/-- A physical operator that implementation rules give, or an enforcer. -/
inductive PhysicalOp.Emitted (op : PhysicalOp) : Prop
  | rule {σ κ : Type} {r : RuleId} {ctx : RuleContext σ κ} {e : Expr} {columns after : Columns}
    {alternatives inputs : List Expr} (hr : r.isExploration = false)
    (hrun : ((r.rule : Rule σ κ).transform ctx e).run columns = (.ok alternatives, after))
    (hmem : .ofPhysical op inputs ∈ alternatives)
  | enforcer (h : op.isEnforcer = true)

namespace PhysicalOp.Emitted

/-- An operator that is emitted is an implementation of a logical one or an enforcer. -/
theorem cases_implementation {op : PhysicalOp} (h : op.Emitted) :
    (∃ l : LogicalOp, l.Implementation op) ∨ op.isEnforcer = true := by
  cases h with
  | rule hr hrun hmem =>
    obtain ⟨l, p, inputs, -, hp, -, heq⟩ := Rule.implementation_of_run hr hrun _ hmem
    cases heq
    exact .inl ⟨l, hp⟩
  | enforcer h => exact .inr h

theorem ne_rightOuter {type : JoinType} {on : Scalar} (h : (nestedLoopJoin type on).Emitted) : type ≠ .rightOuter := by
  rcases h.cases_implementation with ⟨l, hl⟩ | h
  · cases hl
    assumption
  · cases h

end PhysicalOp.Emitted

/-! Rows that are delivered for a row of an input. -/

section

variable {pairs : List (ColumnId × ColumnId)} {c d : ColumnId}

theorem mem_of_mappedColumn? (h : mappedColumn? (pairs.map Prod.fst) (pairs.map Prod.snd) c = some d) : (c, d) ∈ pairs := by
  obtain ⟨place, hplace, hd⟩ := Option.bind_eq_some_iff.1 h
  obtain ⟨hlt, hc, -⟩ := List.findIdx?_eq_some_iff_getElem.1 hplace
  rw [List.getElem?_map] at hd
  obtain ⟨x, hx, rfl⟩ := Option.map_eq_some_iff.1 hd
  have hfirst : x.1 = c := by
    obtain ⟨_, rfl⟩ := List.getElem?_eq_some_iff.1 hx
    simpa using hc
  exact hfirst ▸ List.mem_of_getElem? hx

theorem not_mem_of_mappedColumn?_eq_none (h : mappedColumn? (pairs.map Prod.fst) (pairs.map Prod.snd) c = none) :
    (c, d) ∉ pairs := by
  intro hmem
  unfold mappedColumn? at h
  cases hplace : (pairs.map Prod.fst).findIdx? (fun s => decide (s = c)) with
  | none =>
    have := List.findIdx?_eq_none_iff.1 hplace c (List.mem_map_of_mem hmem)
    simp at this
  | some place =>
    obtain ⟨hlt, -⟩ := List.findIdx?_eq_some_iff_getElem.1 hplace
    rw [hplace, Option.bind_some, List.getElem?_eq_none_iff, List.length_map] at h
    rw [List.length_map] at hlt
    omega

end

/-- The columns that are passed on, each with its new name. -/
def renamedColumns (l : List Assignment) : List (ColumnId × ColumnId) :=
  l.filterMap (fun a =>
    match a.2 with
    | .column c => some (c, a.1)
    | _ => none)

theorem mem_renamedColumns {l : List Assignment} {c d : ColumnId} : (c, d) ∈ renamedColumns l ↔ (d, .column c) ∈ l := by
  unfold renamedColumns
  rw [List.mem_filterMap]
  constructor
  · rintro ⟨⟨id, e⟩, ha, h⟩
    cases e <;> cases h
    exact ha
  · exact fun h => ⟨_, h, rfl⟩

/-- A column that is kept has its values under its new name. -/
theorem Assigns.values_renamed {F : Functions} {b : Binding} {l : List Assignment} {r s : Row} (h : Assigns F b l r s)
    {columns : ColumnSet} (hr : r.Over columns) (hassign : ∀ a ∈ l, a.2 = .column a.1 ∨ a.1 ∉ columns) {c d : ColumnId}
    (hc : c ∈ columns)
    (hd : (mappedColumn? ((renamedColumns l).map Prod.fst) ((renamedColumns l).map Prod.snd) c).getD c = d)
    (hkept : d ∈ l.map Prod.fst) : s.values d = r.values c := by
  cases hmapped : mappedColumn? ((renamedColumns l).map Prod.fst) ((renamedColumns l).map Prod.snd) c with
  | some d' =>
    rw [hmapped, Option.getD_some] at hd
    subst hd
    have hvalue := h _ (mem_renamedColumns.1 (mem_of_mappedColumn? hmapped))
    rw [Row.values_of_some hvalue]
    exact Binding.with_eq_values hr hc b
  | none =>
    -- a column that is not passed on is no input column
    rw [hmapped, Option.getD_none] at hd
    subst hd
    obtain ⟨a, ha, rfl⟩ := List.mem_map.1 hkept
    rcases hassign a ha with heq | hnew
    · have hpassed : (a.1, a.1) ∈ renamedColumns l := mem_renamedColumns.2 (heq ▸ ha)
      exact absurd hpassed (not_mem_of_mappedColumn?_eq_none hmapped)
    · exact absurd hc hnew

theorem RowLimit.of_sublist (l : RowLimit) (rows : List Row) : (l.of rows).Sublist rows := by
  unfold RowLimit.of
  cases l.count with
  | none => exact List.drop_sublist ..
  | some count => exact (List.take_sublist ..).trans (List.drop_sublist ..)

/-- An input of an operator: what it delivers and what is derived for it. -/
structure PlanInput (N : Type) where
  stream : Stream N
  derived : Derived

/-- The ordering derived for an input tells the truth, and it mentions columns of the input. -/
structure PlanInput.Sorted (K : Cluster N) (i : PlanInput N) : Prop where
  within : i.derived.ordering.within i.stream.columns = true
  sorts : ∀ n, i.derived.ordering.Sorts K.order (i.stream.rows n)

namespace PlanInput.Sorted

variable {K : Cluster N} {i : PlanInput N} {n : N}

theorem mem (h : i.Sorted K) {c : OrderColumn} (hc : c ∈ i.derived.ordering.columns) : c.column ∈ i.stream.columns :=
  of_decide_eq_true (List.all_eq_true.1 h.within c hc)

theorem sublist (h : i.Sorted K) {rows : List Row} (hrows : rows.Sublist (i.stream.rows n)) :
    i.derived.ordering.Sorts K.order rows := (h.sorts n).sublist hrows

/-- Every row is followed up by what it contributes to a join. -/
theorem contributions (h : i.Sorted K) {type : JoinType} {on : Scalar} {right : ColumnSet} {rs : Multiset Row}
    {parts : List (List Row)}
    (hparts : List.Forall₂ (fun l (part : List Row) => (part : Multiset Row) = K.contribution type on right l rs)
      (i.stream.rows n) parts) : i.derived.ordering.Sorts K.order parts.flatten := by
  have hover := (List.forall₂_and_left _ _).2 ⟨i.stream.rows_over n, hparts⟩
  refine (h.sorts n).expand (hover.imp ?_)
  rintro l part ⟨hl, hpart⟩ t ht c hc
  have ht : t ∈ K.contribution type on right l rs := hpart ▸ Multiset.mem_coe.2 ht
  exact Row.values_congr (JoinType.eq_of_mem_contribution ht hl (h.mem hc))

theorem computeScalar (h : i.Sorted K) {l : List Assignment}
    (hassign : ∀ a ∈ l, a.2 = .column a.1 ∨ a.1 ∉ i.stream.columns) {rows : List Row}
    (hrows : List.Forall₂ (Assigns K.toFunctions K.binding l) (i.stream.rows n) rows) :
    (Derived.ofComputeScalar l (.ofList (l.map Prod.fst)) i.derived).ordering.Sorts K.order rows := by
  let f : OrderColumn → OrderColumn := fun c =>
    { c with
      column := (mappedColumn? ((renamedColumns l).map Prod.fst) ((renamedColumns l).map Prod.snd) c.column).getD c.column }
  let kept : OrderSpec :=
    ⟨i.derived.ordering.columns.takeWhile (fun c => decide ((f c).column ∈ SortedSet.ofList (l.map Prod.fst)))⟩
  have hderived : (Derived.ofComputeScalar l (.ofList (l.map Prod.fst)) i.derived).ordering = ⟨kept.columns.map f⟩ :=
    congrArg OrderSpec.mk (List.takeWhile_map ..)
  have hprefix : i.derived.ordering.satisfies kept = true := List.isPrefixOf_iff_prefix.2 (List.takeWhile_prefix _)
  have hover := (List.forall₂_and_left _ _).2 ⟨i.stream.rows_over n, hrows⟩
  rw [hderived]
  refine ((h.sorts n).of_satisfies hprefix).replace (fun _ => rfl) (hover.imp ?_)
  rintro r s ⟨hr, hs⟩ c hc
  have hcolumn := h.mem ((List.takeWhile_sublist _).subset hc)
  have hkept : (f c).column ∈ SortedSet.ofList (l.map Prod.fst) := of_decide_eq_true (List.all_eq_true.1 List.all_takeWhile c hc)
  exact hs.values_renamed hr hassign hcolumn rfl (SortedSet.mem_ofList.1 hkept)

theorem streamAggregate (h : i.Sorted K) (a : Aggregation) :
    (i.derived.ordering.keepWhile (.ofList a.groupBy)).Sorts K.order
      ((K.runs a (i.stream.rows n)).map (fun (run : List Row) => K.groupRow a (K.key a run.head?) run)) := by
  have hkept : ∀ c ∈ (i.derived.ordering.keepWhile (.ofList a.groupBy)).columns, c.column ∈ a.groupBy := fun c hc =>
    SortedSet.mem_ofList.1 (of_decide_eq_true (List.all_eq_true.1 List.all_takeWhile c hc))
  have hsorts := (h.sorts n).of_satisfies (i.derived.ordering.satisfies_keepWhile (.ofList a.groupBy))
  unfold Cluster.runs
  split
  · -- without grouping columns there is one row
    exact List.pairwise_singleton _ _
  · refine OrderSpec.Sorts.collapse ?_ fun run hrun => ?_
    · rwa [List.flatten_splitBy]
    · cases run with
      | nil => exact absurd hrun (List.nil_notMem_splitBy _ _)
      | cons r run =>
        have hr : r ∈ i.stream.rows n := by
          rw [← List.flatten_splitBy (fun r s => K.key a (some r) = K.key a (some s)) (i.stream.rows n)]
          exact List.mem_flatten.2 ⟨_, hrun, List.mem_cons_self ..⟩
        refine ⟨r, List.mem_cons_self .., fun c hc => ?_⟩
        have hcolumn := h.mem ((List.takeWhile_sublist _).subset hc)
        refine (Row.values_of_some (Relation.ofPairs_groupKey (hkept c hc) _ _)).trans ?_
        exact Binding.with_eq_values (i.stream.rows_over n r hr) hcolumn K.binding

/-- A motion keeps no order, unless it merges. -/
theorem motion [DecidableEq N] (h : i.Sorted K) {kind : MotionKind}
    (hmerge : ∀ o, kind = .gatherMerge o → i.derived.ordering.satisfies o = true) {senders : List N}
    {output : N → List Row} (hmoves : K.Moves i.stream.rows senders output kind) :
    (Derived.ofMotion kind i.derived).ordering.Sorts K.order (output n) := by
  cases kind with
  | gatherMerge o =>
    obtain ⟨hmerged, hnone⟩ := hmoves
    by_cases hn : n = K.coordinator
    · subst hn
      refine hmerged.pairwise (fun hxy hyz => hxy.trans hyz) fun rows hrows => ?_
      obtain ⟨s, -, rfl⟩ := List.mem_map.1 hrows
      exact (h.sorts s).of_satisfies (hmerge o rfl)
    · rw [hnone n hn]
      exact List.Pairwise.nil
  | _ => exact OrderSpec.sorts_none _

end PlanInput.Sorted

/-- Derived orderings tell the truth. Whatever is required of an operator: if its inputs deliver rows sorted in the orderings
derived for them, and these mention columns of the inputs, it delivers rows sorted in the ordering derived for it, and so in
every ordering that this one satisfies. A merging motion needs inputs in its ordering, and computed columns are new ones or
columns passed on under their names. -/
theorem PhysicalOp.derived_sorts [DecidableEq N] {K : Cluster N} {op : PhysicalOp} {p : Position}
    {inputs : List (PlanInput N)} {out : Stream N} (hop : op.Emitted)
    (hmerge : ∀ o, op = .motion (.gatherMerge o) → ∀ i ∈ inputs, i.derived.ordering.satisfies o = true)
    (hassign : ∀ l, op = .computeScalar l →
      ∀ i ∈ inputs, ∀ a ∈ l, a.2 = .column a.1 ∨ a.1 ∉ i.stream.columns)
    (hinputs : ∀ i ∈ inputs, i.Sorted K) (hdelivers : op.Delivers K (inputs.map PlanInput.stream) out)
    (hout : p.logical.output = out.columns) :
    (∀ n, (op.derived p (inputs.map PlanInput.derived)).ordering.Sorts K.order (out.rows n)) ∧
      ∀ required, (op.derived p (inputs.map PlanInput.derived)).ordering.satisfies required = true →
        ∀ n, required.Sorts K.order (out.rows n) := by
  suffices hsorts : ∀ n, (op.derived p (inputs.map PlanInput.derived)).ordering.Sorts K.order (out.rows n) from
    ⟨hsorts, fun _ hrequired n => (hsorts n).of_satisfies hrequired⟩
  intro n
  have hone : ∀ {s : Stream N}, inputs.map PlanInput.stream = [s] → ∃ i, inputs = [i] ∧ i.stream = s ∧ i.Sorted K := by
    intro s hs
    obtain ⟨i, rfl, rfl⟩ := List.map_eq_singleton_iff.1 hs
    exact ⟨i, rfl, rfl, hinputs i (List.mem_singleton_self i)⟩
  have htwo : ∀ {s t : Stream N}, inputs.map PlanInput.stream = [s, t] →
      ∃ i j, inputs = [i, j] ∧ i.stream = s ∧ j.stream = t ∧ i.Sorted K ∧ j.Sorted K := by
    intro s t hst
    obtain ⟨i, rest, rfl, rfl, hrest⟩ := List.map_eq_cons_iff.1 hst
    obtain ⟨j, rfl, rfl⟩ := List.map_eq_singleton_iff.1 hrest
    exact ⟨i, j, rfl, rfl, rfl, hinputs i (by simp), hinputs j (by simp)⟩
  generalize hstreams : inputs.map PlanInput.stream = streams at hdelivers
  cases hdelivers with
  | @tableScan scan =>
    have hnone : ((tableScan scan).derived p (inputs.map PlanInput.derived)).ordering = .none := by
      unfold derived Derived.leaveUnresolved
      dsimp only
      split <;> rfl
    exact hnone ▸ OrderSpec.sorts_none _
  | constTableGet | cteScan | hashJoin | hashAggregate | append | dml => exact OrderSpec.sorts_none _
  | indexScan _ _ hsorted => exact hsorted n
  | sort _ _ hsorted => exact hsorted n
  | filter _ hrows =>
    obtain ⟨i, rfl, rfl, hi⟩ := hone hstreams
    exact hi.sublist (hrows n ▸ List.filter_sublist)
  | limit _ hrows =>
    obtain ⟨i, rfl, rfl, hi⟩ := hone hstreams
    exact hi.sublist (hrows n ▸ RowLimit.of_sublist _ _)
  | computeScalar hcolumns hrows =>
    obtain ⟨i, rfl, rfl, hi⟩ := hone hstreams
    have hsorts := hi.computeScalar (hassign _ rfl i (List.mem_singleton_self i)) (hrows n)
    rw [← hcolumns, ← hout] at hsorts
    exact hsorts
  | nestedLoopJoin _ parts rest hparts hrest hrows =>
    obtain ⟨i, j, rfl, rfl, rfl, hi, -⟩ := htwo hstreams
    have hnone : rest n = [] := by
      have := hrest n
      rwa [Cluster.unmatched, if_neg hop.ne_rightOuter, Multiset.coe_eq_zero] at this
    rw [hrows, hnone, List.append_nil]
    exact hi.contributions (hparts n)
  | indexNestedLoopJoin _ parts hparts hrows =>
    obtain ⟨i, rfl, rfl, hi⟩ := hone hstreams
    rw [hrows]
    exact hi.contributions (hparts n)
  | streamAggregate _ hrows =>
    obtain ⟨i, rfl, rfl, hi⟩ := hone hstreams
    rw [hrows]
    exact hi.streamAggregate _
  | sequence =>
    obtain ⟨i, j, rfl, rfl, rfl, -, hj⟩ := htwo hstreams
    exact hj.sorts n
  | motion _ _ hmoves =>
    obtain ⟨i, rfl, rfl, hi⟩ := hone hstreams
    refine hi.motion (fun o ho => ?_) hmoves
    exact hmerge o (congrArg _ ho) i (List.mem_singleton_self i)
  | spool =>
    obtain ⟨i, rfl, rfl, hi⟩ := hone hstreams
    exact hi.sorts n
  | partitionSelector =>
    obtain ⟨i, rfl, rfl, hi⟩ := hone hstreams
    exact hi.sorts n

section

/-- A segment, and a single node that keeps rows, too. -/
noncomputable def twoNodes : Cluster Bool where
  toInterpretation := .ofTables (fun _ => 0) fun _ => ""
  binding _ := .null
  stored _ _ := 0
  produced _ _ := []
  segments := [false]
  coordinator := true
  hash _ := false
  order := compare
  trans_order := inferInstance

def numberRow (n : Int32) : Row := .ofPairs [(1, .int32 n)]

/-- The nodes deliver these numbers. -/
def numberStream (segment coordinator : List Int32) : Stream Bool where
  columns := .ofList [1]
  rows n := (if n then coordinator else segment).map numberRow
  rows_over n r hr := by
    obtain ⟨x, -, rfl⟩ := List.mem_map.1 hr
    exact Row.over_ofPairs [(1, .int32 x)]

/-- The numbers of two nodes are merged. -/
theorem derived_sorts_numbers :
    ∃ out : Stream Bool, (PhysicalOp.motion (.gatherMerge (.ascending [1]))).Delivers twoNodes
        [numberStream [1, 3] [2]] out ∧
      out.rows true = [numberRow 1, numberRow 2, numberRow 3] ∧
      (OrderSpec.ascending [1]).Sorts twoNodes.order (out.rows true) := by
  let input : PlanInput Bool :=
    ⟨numberStream [1, 3] [2], { Derived.ofDistribution .random with ordering := .ascending [1] }⟩
  have hle : ∀ {a b : Int32}, compare a b = .lt → (OrderSpec.ascending [1]).Le compare (numberRow a) (numberRow b) := by
    intro a b h
    change (Ordering.then (compare a b) .eq).isLE = true
    rw [h]
    rfl
  have hsorted : input.Sorted twoNodes := by
    refine ⟨rfl, fun n => ?_⟩
    cases n with
    | false => exact List.pairwise_pair.2 (hle rfl)
    | true => exact List.pairwise_singleton _ _
  have hmerged : Merged ((OrderSpec.ascending [1]).Le compare) ([[numberRow 2]] ++ [numberRow 1, numberRow 3] :: [])
      [numberRow 1, numberRow 2, numberRow 3] := by
    have hlast : Merged ((OrderSpec.ascending [1]).Le compare) ([[]] ++ [numberRow 3] :: []) [numberRow 3] :=
      .take (by simp) (.done (by simp))
    have hrest : Merged ((OrderSpec.ascending [1]).Le compare) ([] ++ [numberRow 2] :: [[numberRow 3]])
        [numberRow 2, numberRow 3] := .take (by simpa using hle (a := 2) (b := 3) rfl) hlast
    exact .take (by simpa using hle (a := 1) (b := 2) rfl) hrest
  have hdelivers : (PhysicalOp.motion (.gatherMerge (.ascending [1]))).Delivers twoNodes [input.stream]
      (numberStream [] [1, 2, 3]) := by
    refine .motion rfl (.inl rfl) ⟨hmerged, ?_⟩
    rintro (_ | _) hn
    · rfl
    · exact absurd rfl hn
  have hmerge : ∀ o, PhysicalOp.motion (.gatherMerge (.ascending [1])) = .motion (.gatherMerge o) →
      ∀ i ∈ [input], i.derived.ordering.satisfies o = true := by
    rintro o ⟨⟩
    exact List.forall_mem_singleton.2 rfl
  have hassign : ∀ l, PhysicalOp.motion (.gatherMerge (.ascending [1])) = .computeScalar l →
      ∀ i ∈ [input], ∀ a ∈ l, a.2 = .column a.1 ∨ a.1 ∉ i.stream.columns := by
    rintro l ⟨⟩
  have hsorts := PhysicalOp.derived_sorts (p := ⟨.none, { (default : LogicalProperties) with output := .ofList [1] }, []⟩)
    (.enforcer rfl) hmerge hassign (List.forall_mem_singleton.2 hsorted) hdelivers rfl
  exact ⟨_, hdelivers, rfl, hsorts.1 true⟩

end

end Cascade
