import Mathlib.Order.Filter.AtTopBot.Basic
import Mathlib.Order.Filter.Finite
import Mathlib.Data.Set.Finite.List
import Cascade.Proofs.Search.Enforcing
import Cascade.Proofs.Sequence

/-!
The requirements that can arise. Columns, scans and common table expressions are numbers, and no operator asks its
inputs for more columns than it names itself or was asked for. So if all numbers and lengths are below a bound,
they stay below it (`PhysicalOp.Below.required`), and there are only finitely many requirements below a bound
(`finite_below`).
-/

namespace Cascade

open Filter

/-- Numbers below a bound, no more than the bound. -/
structure Short (M : Nat) (l : List Nat) : Prop where
  length_le : l.length ≤ M
  lt : ∀ c ∈ l, c < M

theorem Short.nil (M : Nat) : Short M [] := ⟨Nat.zero_le M, nofun⟩

theorem Short.of_sublist {M : Nat} {l r : List Nat} (h : Short M r) (hlr : l.Sublist r) : Short M l :=
  ⟨Nat.le_trans hlr.length_le h.length_le, fun c hc => h.lt c (hlr.subset hc)⟩

/-- Places of a list that are looked up for each member of another one. -/
theorem Short.mapM {M : Nat} {l r target : List Nat} {f : Nat → Option Nat} (h : l.mapM f = some r)
    (hl : l.length ≤ M) (htarget : Short M target) (hf : ∀ c d, f c = some d → d ∈ target) : Short M r := by
  have hall := forall₂_of_mapM_some h
  refine ⟨hall.length_eq ▸ hl, fun d hd => ?_⟩
  obtain ⟨c, -, hc⟩ := exists_of_mem_right hall hd
  exact htarget.lt d (hf c d hc)

theorem eventually_forall_mem {α : Type} {l : List α} {p : α → Nat → Prop} (h : ∀ a ∈ l, ∀ᶠ M in atTop, p a M) :
    ∀ᶠ M in atTop, ∀ a ∈ l, p a M :=
  (eventually_all_finite l.finite_toSet).2 h

theorem eventually_short (l : List Nat) : ∀ᶠ M in atTop, Short M l := by
  filter_upwards [eventually_ge_atTop l.length, eventually_forall_mem fun c _ => eventually_gt_atTop c] with M hl hlt
  exact ⟨hl, hlt⟩

/-- The columns whose hash a distribution is given by. -/
def Distribution.columns : Distribution → List ColumnId
  | .hashed columns => columns
  | _ => []

def Distribution.Below (M : Nat) (d : Distribution) : Prop := Short M d.columns

def OrderSpec.Below (M : Nat) (o : OrderSpec) : Prop := Short M (o.columns.map OrderColumn.column)

/-- All numbers and lengths of a requirement are below a bound. -/
structure Required.Below (M : Nat) (r : Required) : Prop where
  ordering : r.ordering.Below M
  distribution : r.distribution.spec.Below M
  unresolved : ∀ s ∈ r.partition.allowedUnresolved, s < M
  propagators : ∀ e ∈ r.partition.propagators.entries, e.1 < M ∧ e.2 < M
  producers : ∀ e ∈ r.cte.producers.entries, e.1 < M ∧ e.2.Below M

theorem Required.eventually_below (r : Required) : ∀ᶠ M in atTop, r.Below M := by
  have hpropagators : ∀ᶠ M in atTop, ∀ e ∈ r.partition.propagators.entries, e.1 < M ∧ e.2 < M :=
    eventually_forall_mem fun e _ => (eventually_gt_atTop e.1).and (eventually_gt_atTop e.2)
  have hproducers : ∀ᶠ M in atTop, ∀ e ∈ r.cte.producers.entries, e.1 < M ∧ e.2.Below M :=
    eventually_forall_mem fun e _ => (eventually_gt_atTop e.1).and (eventually_short e.2.columns)
  filter_upwards [eventually_short (r.ordering.columns.map OrderColumn.column),
    eventually_short r.distribution.spec.columns,
    eventually_short r.partition.allowedUnresolved.toList, hpropagators, hproducers] with M ho hd hu hp hc
  exact ⟨ho, hd, hu.lt, hp, hc⟩

/-! Finitely many. -/

theorem finite_lists {α : Type} {s : Set α} (hs : s.Finite) (n : Nat) :
    {l : List α | l.length ≤ n ∧ ∀ a ∈ l, a ∈ s}.Finite := by
  have := hs.to_subtype
  refine ((List.finite_length_le s n).image (List.map Subtype.val)).subset ?_
  rintro l ⟨hlength, hl⟩
  exact ⟨l.pmap Subtype.mk hl, by simpa using hlength, by simp [List.map_pmap]⟩

theorem finite_short (M : Nat) : {l : List Nat | Short M l}.Finite :=
  (finite_lists (Set.finite_lt_nat M) M).subset fun _ hl => ⟨hl.length_le, hl.lt⟩

theorem Distribution.finite_below (M : Nat) : {d : Distribution | d.Below M}.Finite := by
  refine (((finite_short M).image Distribution.hashed).union
    (Set.toFinite {.any, .singleton, .strictSingleton, .replicated, .random, .nonSingleton, .universal})).subset ?_
  intro d hd
  cases d with
  | hashed columns => exact .inl ⟨columns, hd, rfl⟩
  | _ => exact .inr (by simp)

theorem RequiredDistribution.finite_below (M : Nat) : {d : RequiredDistribution | d.spec.Below M}.Finite := by
  refine ((Distribution.finite_below M).image2 RequiredDistribution.mk
    (Set.toFinite {HashMatching.satisfy, HashMatching.exact})).subset ?_
  rintro ⟨spec, matching⟩ hd
  exact ⟨spec, hd, matching, by cases matching <;> simp, rfl⟩

theorem OrderSpec.finite_below (M : Nat) : {o : OrderSpec | o.Below M}.Finite := by
  have hcolumns : {c : OrderColumn | c.column < M}.Finite := by
    refine ((Set.finite_lt_nat M).image2 OrderColumn.mk (Set.toFinite {true, false})).subset ?_
    rintro ⟨column, descending⟩ hc
    exact ⟨column, hc, descending, by cases descending <;> simp, rfl⟩
  refine ((finite_lists hcolumns M).image OrderSpec.mk).subset ?_
  rintro ⟨columns⟩ ho
  refine ⟨columns, ⟨by simpa using ho.length_le, fun c hc => ?_⟩, rfl⟩
  exact ho.lt c.column (List.mem_map_of_mem hc)

/-- A list of different numbers below a bound is no longer than the bound. -/
theorem length_le_of_sorted {l : List Nat} {M : Nat} (hsorted : l.Pairwise (fun a b => compare a b = .lt))
    (hlt : ∀ a ∈ l, a < M) : l.length ≤ M := by
  have hnodup : l.Nodup := hsorted.imp fun h hab => by
    subst hab
    simp at h
  have hsubset : l.toFinset ⊆ Finset.range M := fun a ha => Finset.mem_range.2 (hlt a (List.mem_toFinset.1 ha))
  simpa [List.toFinset_card_of_nodup hnodup] using Finset.card_le_card hsubset

theorem finite_sortedSets (M : Nat) : {s : SortedSet Nat | ∀ a ∈ s, a < M}.Finite := by
  refine ((finite_short M).preimage (f := SortedSet.toList) ?_).subset ?_
  · rintro ⟨l, _⟩ - ⟨r, _⟩ - rfl
    rfl
  · exact fun s hs => ⟨length_le_of_sorted s.sorted hs, hs⟩

theorem finite_sortedMaps {β : Type} {s : Set β} (hs : s.Finite) (M : Nat) :
    {m : SortedMap Nat β | ∀ e ∈ m.entries, e.1 < M ∧ e.2 ∈ s}.Finite := by
  refine ((finite_lists ((Set.finite_lt_nat M).prod hs) M).preimage (f := SortedMap.entries) ?_).subset ?_
  · rintro ⟨l, _⟩ - ⟨r, _⟩ - rfl
    rfl
  · intro m hm
    refine ⟨?_, fun e he => hm e he⟩
    have hkeys := length_le_of_sorted (List.pairwise_map.2 m.sorted) fun a ha => by
      obtain ⟨e, he, rfl⟩ := List.mem_map.1 ha
      exact (hm e he).1
    simpa using hkeys

/-- There are finitely many requirements below a bound. -/
theorem Required.finite_below (M : Nat) : {r : Required | r.Below M}.Finite := by
  have hparts := (OrderSpec.finite_below M).prod ((RequiredDistribution.finite_below M).prod
    ((Set.toFinite {Rewindability.notRewindable, Rewindability.rewindable}).prod
      ((finite_sortedSets M).prod ((finite_sortedMaps (Set.finite_lt_nat M) M).prod
        (finite_sortedMaps (Distribution.finite_below M) M)))))
  refine (hparts.image fun x => (⟨x.1, x.2.1, x.2.2.1, ⟨x.2.2.2.1, x.2.2.2.2.1⟩, ⟨x.2.2.2.2.2⟩⟩ : Required)).subset ?_
  rintro ⟨ordering, distribution, rewindability, partition, cte⟩ hr
  refine ⟨(ordering, distribution, rewindability, partition.allowedUnresolved, partition.propagators, cte.producers),
    ⟨hr.ordering, hr.distribution, ?_, hr.unresolved, hr.propagators, hr.producers⟩, rfl⟩
  cases rewindability <;> simp

/-! What operators ask for. -/

/-- The numbers an operator can bring into requirements and distributions. -/
def PhysicalOp.numbers : PhysicalOp → List (List Nat)
  | tableScan s => [s.distribution.columns]
  | indexScan s => [s.distribution.columns]
  | computeScalar assignments => [assignments.map Prod.fst]
  | hashJoin j => [j.leftKeys, j.rightKeys, j.partitionScans.map Prod.fst, j.partitionScans.map Prod.snd]
  | indexNestedLoopJoin j => [j.outerKeys, j.distribution.columns]
  | hashAggregate a => [a.groupBy]
  | streamAggregate a => [a.groupBy]
  | limit l => [l.ordering.columns.map OrderColumn.column]
  | append u => [u.output]
  | dml _ _ _ distribution => [distribution.columns]
  | sequence cte => [[cte]]
  | cteScan r => [r.columns]
  | motion (.redistribute columns) => [columns]
  | _ => []

/-- All numbers that an operator names are below a bound. -/
def PhysicalOp.Below (M : Nat) (op : PhysicalOp) : Prop := ∀ l ∈ op.numbers, Short M l

theorem PhysicalOp.eventually_below (op : PhysicalOp) : ∀ᶠ M in atTop, op.Below M :=
  eventually_forall_mem fun l _ => eventually_short l

section

variable {M : Nat} {p : Position} {input : LogicalProperties} {before : List Derived}

theorem Distribution.Below.mapped {d : Distribution} (hd : d.Below M) (source : List ColumnId) {target : List ColumnId}
    (htarget : Short M target) : (d.mapped source target).Below M := by
  unfold Distribution.mapped
  cases d with
  | hashed columns =>
    dsimp only
    split
    · rename_i renamed hrenamed
      refine Short.mapM hrenamed hd.length_le htarget fun c k hk => ?_
      obtain ⟨place, -, hplace⟩ := Option.bind_eq_some_iff.1 hk
      exact List.mem_of_getElem? hplace
    · exact .nil M
  | _ => exact hd

theorem Required.Below.base (h : p.required.Below M) (input : LogicalProperties) : (p.baseRequirement input).Below M where
  ordering := .nil M
  distribution := .nil M
  unresolved s hs := h.unresolved s (SortedSet.mem_filter.1 hs).1
  propagators e he := h.propagators e (List.mem_filter.1 he).1
  producers := h.producers

theorem Required.Below.withDistribution {r : Required} (h : r.Below M) {d : RequiredDistribution}
    (hd : d.spec.Below M) : Required.Below M { r with distribution := d } :=
  { h with distribution := hd }

theorem Required.Below.outerOrdering (h : p.required.Below M) (input : LogicalProperties) :
    (p.outerOrdering input).Below M := by
  unfold Position.outerOrdering
  split
  · exact h.ordering
  · exact .nil M

theorem Required.Below.passThrough (h : p.required.Below M) {ordering distribution : Bool} {r : Required}
    (hr : p.passThrough input ordering distribution = some r) : r.Below M := by
  unfold Position.passThrough at hr
  split at hr
  · cases hr
  · split at hr
    · cases hr
    · cases hr
      have hbase := h.base input
      refine { hbase with ordering := ?_, distribution := ?_ }
      · dsimp only
        split
        · exact h.ordering
        · exact .nil M
      · dsimp only
        split
        · exact h.distribution
        · exact .nil M

theorem Required.Below.unaryInput (h : p.required.Below M) {request : Nat} {r : Required}
    (hr : PhysicalOp.unaryInput p input request = some r) : r.Below M := by
  unfold PhysicalOp.unaryInput at hr
  split at hr
  · exact h.passThrough hr
  · split at hr
    · cases hr
    · exact h.passThrough hr
  · split at hr
    · cases hr
    · exact h.passThrough hr
  · cases hr

theorem mem_of_findIdx?_bind {l target : List ColumnId} {q : ColumnId → Bool} {c : ColumnId}
    (h : (l.findIdx? q).bind (fun place => target[place]?) = some c) : c ∈ target := by
  obtain ⟨place, -, hplace⟩ := Option.bind_eq_some_iff.1 h
  exact List.mem_of_getElem? hplace

theorem HashJoin.below_outer {j : HashJoin} (hj : (PhysicalOp.hashJoin j).Below M) {request : Nat}
    {d : RequiredDistribution} (hd : j.outerDistribution request = some d) : d.spec.Below M := by
  unfold outerDistribution at hd
  split at hd
  · split at hd
    · cases hd
    · cases hd
      exact hj _ (by simp [PhysicalOp.numbers, RequiredDistribution.hashed, Distribution.columns])
  · split at hd
    · cases hd
    · cases hd
      exact .nil M
  · cases hd
    exact .nil M
  · cases hd

theorem HashJoin.below_inner {j : HashJoin} (hj : (PhysicalOp.hashJoin j).Below M) {e : EquivalenceClasses}
    {request : Nat} {outer : Distribution} (houter : outer.Below M) {d : RequiredDistribution}
    (hd : j.innerDistribution e request outer = some d) : d.spec.Below M := by
  have hright : Short M j.rightKeys := hj _ (by simp [PhysicalOp.numbers])
  unfold innerDistribution at hd
  split at hd
  · cases hd
    exact .nil M
  · split at hd
    · split at hd
      · rename_i columns _
        cases hd
        change Short M ((j.matchingKeys? e columns).getD j.rightKeys)
        cases hkeys : j.matchingKeys? e columns with
        | none => exact hright
        | some keys => exact Short.mapM hkeys houter.length_le hright fun _ _ => mem_of_findIdx?_bind
      · repeat' split at hd
        all_goals cases hd
        all_goals exact .nil M
    · repeat' split at hd
      all_goals cases hd
      all_goals exact .nil M
    · cases hd
      exact .nil M
    · cases hd

theorem HashJoin.below_requiredInput {j : HashJoin} (hj : (PhysicalOp.hashJoin j).Below M) (h : p.required.Below M)
    (hbefore : ∀ d ∈ before, d.distribution.Below M) {request child : Nat} {r : Required}
    (hr : j.requiredInput p request child before = some r) : r.Below M := by
  obtain ⟨outer, -, hr⟩ := Option.bind_eq_some_iff.1 hr
  obtain ⟨inner, -, hr⟩ := Option.bind_eq_some_iff.1 hr
  have hscans : Short M (j.partitionScans.map Prod.fst) := hj _ (by simp [PhysicalOp.numbers])
  have hcolumns : Short M (j.partitionScans.map Prod.snd) := hj _ (by simp [PhysicalOp.numbers])
  split at hr
  · obtain ⟨d, hd, hr⟩ := Option.bind_eq_some_iff.1 hr
    cases hr
    have hbase := (h.base outer).withDistribution (HashJoin.below_outer hj hd)
    refine { hbase with propagators := fun e he => ?_ }
    rcases SortedMap.mem_entries_insertAll he with he | he
    · exact hbase.propagators e he
    · exact ⟨hscans.lt e.1 (List.mem_map_of_mem he), hcolumns.lt e.2 (List.mem_map_of_mem he)⟩
  · obtain ⟨provided, hprovided, hr⟩ := Option.bind_eq_some_iff.1 hr
    obtain ⟨d, hd, hr⟩ := Option.bind_eq_some_iff.1 hr
    cases hr
    have hprovided := hbefore provided (List.mem_of_mem_head? hprovided)
    have hbase := (h.base inner).withDistribution (HashJoin.below_inner hj hprovided hd)
    refine { hbase with unresolved := fun s hs => ?_ }
    rcases SortedSet.mem_insertAll.1 hs with hs | hs
    · exact hbase.unresolved s hs
    · exact hscans.lt s hs

theorem IndexJoin.below_outer {j : IndexJoin} (hj : (PhysicalOp.indexNestedLoopJoin j).Below M) {request : Nat}
    {d : RequiredDistribution} (hd : j.outerDistribution request = some d) : d.spec.Below M := by
  have houter : Short M j.outerKeys := hj _ (by simp [PhysicalOp.numbers])
  have hstored : Short M j.distribution.columns := hj _ (by simp [PhysicalOp.numbers])
  unfold outerDistribution at hd
  split at hd
  · cases hd
    exact .nil M
  · cases hd
    exact .nil M
  · rename_i columns hcolumns
    obtain ⟨keys, hkeys, rfl⟩ := Option.map_eq_some_iff.1 hd
    rw [hcolumns] at hstored
    exact Short.mapM hkeys hstored.length_le houter fun _ _ => mem_of_findIdx?_bind
  all_goals
    repeat' split at hd
    all_goals cases hd
    all_goals exact .nil M

theorem Aggregation.below_input {a : Aggregation} (ha : Short M a.groupBy) {request : Nat} {d : RequiredDistribution}
    (hd : a.inputDistribution request = some d) : d.spec.Below M := by
  unfold inputDistribution at hd
  split at hd
  · repeat' split at hd
    all_goals cases hd
    · exact .nil M
    · exact .nil M
    · exact ha
  · cases hd
    exact .nil M
  · cases hd

/-- What an operator asks of its inputs is below a bound if all it can depend on is. -/
theorem PhysicalOp.Below.required {op : PhysicalOp} (hop : op.Below M) (h : p.required.Below M)
    (hbefore : ∀ d ∈ before, d.distribution.Below M) {request child : Nat} {r : Required}
    (hr : op.requiredInput p request child before = some r) : r.Below M := by
  obtain ⟨input, -, hr⟩ := Option.bind_eq_some_iff.1 hr
  have hbase := h.base input
  cases op with
  | filter => exact h.unaryInput hr
  | computeScalar => exact h.unaryInput hr
  | hashJoin j => exact HashJoin.below_requiredInput hop h hbefore hr
  | nestedLoopJoin type on =>
    obtain ⟨d, hd, hr⟩ := Option.bind_eq_some_iff.1 hr
    have hd : d.spec.Below M := by
      unfold nestedLoopDistribution at hd
      repeat' split at hd
      all_goals cases hd
      all_goals exact .nil M
    split at hr
    · cases hr
      exact { hbase.withDistribution hd with ordering := h.outerOrdering input }
    · cases hr
      exact { hbase.withDistribution hd with }
  | indexNestedLoopJoin j =>
    obtain ⟨d, hd, hr⟩ := Option.bind_eq_some_iff.1 hr
    cases hr
    exact { hbase.withDistribution (IndexJoin.below_outer hop hd) with ordering := h.outerOrdering input }
  | hashAggregate a =>
    obtain ⟨d, hd, hr⟩ := Option.bind_eq_some_iff.1 hr
    cases hr
    exact hbase.withDistribution (Aggregation.below_input (hop _ (List.mem_singleton.2 rfl)) hd)
  | streamAggregate a =>
    have ha : Short M a.groupBy := hop _ (List.mem_singleton.2 rfl)
    obtain ⟨d, hd, hr⟩ := Option.bind_eq_some_iff.1 hr
    cases hr
    refine { hbase.withDistribution (Aggregation.below_input ha hd) with ordering := ?_ }
    simpa [OrderSpec.Below, OrderSpec.ascending, Function.comp_def] using ha
  | limit l =>
    cases hr
    exact { hbase.withDistribution (d := .singleton) (.nil M) with ordering := hop _ (List.mem_singleton.2 rfl) }
  | append u =>
    dsimp only at hr
    split at hr
    all_goals cases hr
    · exact hbase.withDistribution (.nil M)
    · exact hbase.withDistribution (.nil M)
  | dml kind table columns d =>
    cases hr
    refine hbase.withDistribution ?_
    unfold storedDistribution
    split
    all_goals exact hop _ (List.mem_singleton.2 rfl)
  | sequence cte =>
    dsimp only at hr
    split at hr
    · cases hr
      exact hbase
    · obtain ⟨producer, hproducer, hr⟩ := Option.bind_eq_some_iff.1 hr
      obtain ⟨passed, hpassed, hr⟩ := Option.bind_eq_some_iff.1 hr
      cases hr
      refine { h.passThrough hpassed with producers := fun e he => ?_ }
      have hcte : Short M [cte] := hop _ (List.mem_singleton.2 rfl)
      rcases SortedMap.mem_entries_insertAll (l := [(cte, producer.distribution)]) he with he | he
      · exact h.producers e he
      · rw [List.mem_singleton.1 he]
        exact ⟨hcte.lt cte (List.mem_singleton.2 rfl), hbefore producer (List.mem_of_mem_head? hproducer)⟩
  | _ => cases hr

/-! What operators provide. -/

theorem Derived.below_ofJoin {inputs : List Derived} (h : ∀ d ∈ inputs, d.distribution.Below M) :
    (Derived.ofJoin inputs).distribution.Below M := by
  have houter : ((inputs[0]?.map Derived.distribution).getD .random).Below M := by
    cases hinput : inputs[0]? with
    | none => exact .nil M
    | some d => exact h d (List.mem_of_getElem? hinput)
  unfold ofJoin
  dsimp only [gathered, ofDistribution]
  split
  · rename_i inner _ hinner
    exact h inner (List.mem_of_getElem? hinner)
  · exact houter

theorem Derived.below_ofHashJoin (j : HashJoin) {inputs : List Derived} (h : ∀ d ∈ inputs, d.distribution.Below M) :
    (Derived.ofHashJoin j inputs).distribution.Below M := by
  unfold ofHashJoin
  dsimp only
  split
  · rename_i inner _ hinner
    exact h inner (List.mem_of_getElem? hinner)
  · exact below_ofJoin h

theorem Derived.below_ofAppend {u : Concatenation} (hu : Short M u.output) {inputs : List Derived}
    (h : ∀ d ∈ inputs, d.distribution.Below M) : (Derived.ofAppend u inputs).distribution.Below M := by
  unfold ofAppend
  dsimp only [gathered, ofDistribution]
  split
  · exact .nil M
  · split
    · exact (h _ (List.mem_singleton.2 rfl)).mapped _ hu
    · exact .nil M

theorem Derived.below_ofCteScan {r : CteRead} (hr : Short M r.columns) (h : p.required.Below M) :
    (Derived.ofCteScan r p.required.cte).distribution.Below M := by
  unfold ofCteScan
  dsimp only [ofSource, ofDistribution]
  split
  · rename_i d hd
    obtain ⟨e, he, rfl⟩ := Option.map_eq_some_iff.1 hd
    exact (h.producers e (List.mem_of_find?_eq_some he)).2.mapped _ hr
  · exact .nil M

theorem Derived.below_leaveUnresolved {d : Derived} (h : d.distribution.Below M) (dynamic : Bool) (scan : ScanId) :
    (d.leaveUnresolved dynamic scan).distribution.Below M := by
  unfold leaveUnresolved
  split <;> exact h

theorem renamed_sublist (assignments : List Assignment) :
    ((assignments.filterMap (fun a =>
      match a.2 with
      | .column c => some (c, a.1)
      | _ => none)).map Prod.snd).Sublist (assignments.map Prod.fst) := by
  induction assignments with
  | nil => exact .slnil
  | cons a rest ih =>
    rw [List.filterMap_cons, List.map_cons]
    split
    · exact ih.cons _
    · rename_i x hx
      split at hx
      · cases hx
        exact ih.cons_cons _
      · cases hx

/-- What an operator provides is below a bound if all it can depend on is. -/
theorem PhysicalOp.Below.derived {op : PhysicalOp} (hop : op.Below M) (h : p.required.Below M) {inputs : List Derived}
    (hinputs : ∀ d ∈ inputs, d.distribution.Below M) : (op.derived p inputs).distribution.Below M := by
  have hfirst : (inputs.head?.getD default).distribution.Below M := by
    cases hinput : inputs.head? with
    | none => exact .nil M
    | some d => exact hinputs d (List.mem_of_mem_head? hinput)
  have hlists : ∀ l, op.numbers = [l] → Short M l := fun l hl => hop l (hl ▸ List.mem_singleton.2 rfl)
  cases op with
  | tableScan s =>
    exact Derived.below_leaveUnresolved (d := .ofSource s.distribution) (hlists _ rfl) s.dynamic s.scanId
  | indexScan s =>
    exact Derived.below_leaveUnresolved (d := .ofSource s.distribution) (hlists _ rfl) s.dynamic s.scanId
  | constTableGet => exact .nil M
  | cteScan r => exact Derived.below_ofCteScan (hlists _ rfl) h
  | computeScalar assignments =>
    exact hfirst.mapped _ ((hlists _ rfl).of_sublist (renamed_sublist assignments))
  | hashJoin j => exact Derived.below_ofHashJoin j hinputs
  | nestedLoopJoin => exact Derived.below_ofJoin hinputs
  | indexNestedLoopJoin j =>
    have hj : Short M j.distribution.columns := hop _ (by simp [PhysicalOp.numbers])
    dsimp only [PhysicalOp.derived]
    split
    · exact hj
    · exact hfirst
  | append u => exact Derived.below_ofAppend (hlists _ rfl) hinputs
  | dml kind table columns d => exact hlists _ rfl
  | sequence cte =>
    match inputs with
    | [] => exact .nil M
    | [producer] => exact hinputs producer (List.mem_singleton.2 rfl)
    | producer :: body :: _ => exact hinputs body (by simp)
  | motion kind =>
    cases kind with
    | redistribute columns => exact hlists _ rfl
    | _ => exact .nil M
  | _ => exact hfirst

theorem Required.Enforcer.below {r : Required} (hr : r.Below M) {op : PhysicalOp} (h : r.Enforcer op) : op.Below M := by
  cases h with
  | @motion kind hkind =>
    cases kind with
    | redistribute columns =>
      have hspec : r.distribution.spec.columns = columns := by rw [hkind columns rfl]; rfl
      exact List.forall_mem_singleton.2 (hspec ▸ hr.distribution)
    | _ => exact List.forall_mem_nil _
  | _ => exact List.forall_mem_nil _

/-- What a plan with enforcers provides is below a bound if what the plan provides is. -/
theorem Enforced.Above.below {x : Enforced} {d : Derived} (h : x.Above p d) (hp : p.required.Below M)
    (hd : d.distribution.Below M) : x.derived.distribution.Below M := by
  have henforcers := h.enforcers
  rw [h.derived_eq]
  unfold providedBy
  clear h
  generalize x.ops = ops at henforcers
  induction ops generalizing d with
  | nil => exact hd
  | cons op ops ih =>
    have hop := (henforcers op (List.mem_cons_self ..)).below hp
    exact ih (hop.derived hp (List.forall_mem_singleton.2 hd)) fun o ho => henforcers o (List.mem_cons_of_mem _ ho)

end

end Cascade
