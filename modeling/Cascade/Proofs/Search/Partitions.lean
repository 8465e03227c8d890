import Cascade.Proofs.Search.Places

/-!
Dynamic scans. A scan whose partitions nothing has selected is carried up as unresolved until a selector
above it resolves it, or until a hash join allows it, whose left input then propagates the selection.
-/

namespace Cascade

variable {σ κ : Type}

theorem PartitionInfo.mem_propagated_unionAll {l : List PartitionInfo} {s : ScanId} :
    s ∈ (PartitionInfo.unionAll l).propagated ↔ ∃ i ∈ l, s ∈ i.propagated := by
  suffices h : ∀ acc : PartitionInfo,
      s ∈ (l.foldl (fun acc i => ⟨acc.unresolved ∪ i.unresolved, acc.propagated ∪ i.propagated⟩) acc).propagated ↔
        s ∈ acc.propagated ∨ ∃ i ∈ l, s ∈ i.propagated by
    refine (h .none).trans (or_iff_right fun hs => ?_)
    cases hs
  induction l with
  | nil => simp
  | cons i l ih =>
    intro acc
    rw [List.foldl_cons, ih, SortedSet.mem_union, List.exists_mem_cons_iff, or_assoc]

theorem PartitionInfo.satisfies_iff {i : PartitionInfo} {r : PartitionRequirement} : i.satisfies r = true ↔
    (∀ s ∈ i.unresolved, s ∈ r.allowedUnresolved) ∧ ∀ s ∈ r.propagators.keys, s ∈ i.propagated := by
  unfold satisfies
  rw [Bool.and_eq_true, SortedSet.subset_iff, SortedSet.subset_iff]

theorem Derived.partition_of_satisfies {d : Derived} {r : Required} {e : EquivalenceClasses} {subset : Bool}
    (h : d.satisfies r e subset = true) : d.partition.satisfies r.partition = true := by
  unfold satisfies at h
  simp only [Bool.and_eq_true] at h
  exact h.1.2

namespace PhysicalOp

/-- The number of a scan that reads only the partitions selected for it. -/
def dynamicScan? : PhysicalOp → Option ScanId
  | tableScan s => if s.dynamic then some s.scanId else none
  | indexScan s => if s.dynamic then some s.scanId else none
  | _ => none

section

variable {op : PhysicalOp} {p : Position} {s : ScanId}

/-- The selections an operator propagates come from below, unless it makes them itself. -/
theorem mem_propagated_derived {inputs : List Derived} (h : s ∈ (op.derived p inputs).partition.propagated) :
    (∃ c, op = .partitionSelector s (some c)) ∨ ∃ d ∈ inputs, s ∈ d.partition.propagated := by
  have hfirst : s ∈ (inputs.head?.getD default).partition.propagated → ∃ d ∈ inputs, s ∈ d.partition.propagated := by
    intro hs
    cases inputs with
    | nil => cases hs
    | cons d rest => exact ⟨d, List.mem_cons_self .., hs⟩
  have hall : s ∈ (PartitionInfo.unionAll (inputs.map Derived.partition)).propagated →
      ∃ d ∈ inputs, s ∈ d.partition.propagated := by
    intro hs
    obtain ⟨i, hi, hs⟩ := PartitionInfo.mem_propagated_unionAll.1 hs
    obtain ⟨d, hd, rfl⟩ := List.mem_map.1 hi
    exact ⟨d, hd, hs⟩
  cases op with
  | tableScan t =>
    unfold derived Derived.leaveUnresolved at h
    dsimp only at h
    split at h <;> cases h
  | indexScan t =>
    unfold derived Derived.leaveUnresolved at h
    dsimp only at h
    split at h <;> cases h
  | constTableGet _ | cteScan _ => cases h
  | filter _ | computeScalar _ | indexNestedLoopJoin _ | hashAggregate _ | streamAggregate _ | limit _
  | dml _ _ _ _ | sort _ | spool => exact .inr (hfirst h)
  | motion kind => cases kind <;> exact .inr (hfirst h)
  | nestedLoopJoin _ _ | append _ => exact .inr (hall h)
  | hashJoin j => exact .inr (hall (SortedSet.mem_diff.1 h).1)
  | sequence cte =>
    cases inputs with
    | nil => cases h
    | cons producer rest =>
      cases rest with
      | nil => exact .inr (hfirst h)
      | cons body rest =>
        refine .inr ?_
        obtain ⟨i, hi, hs⟩ := PartitionInfo.mem_propagated_unionAll.1 h
        rcases List.mem_pair.1 hi with rfl | rfl
        · exact ⟨producer, List.mem_cons_self .., hs⟩
        · exact ⟨body, List.mem_cons_of_mem _ (List.mem_cons_self ..), hs⟩
  | partitionSelector t c =>
    cases c with
    | none => exact .inr (hfirst h)
    | some c =>
      rcases SortedSet.mem_insert.1 h with rfl | h
      · exact .inl ⟨c, rfl⟩
      · exact .inr (hfirst h)

/-- An enforcer leaves unresolved what its input does, apart from a scan that it selects for good. -/
theorem mem_unresolved_enforcer (hop : op.isEnforcer = true) {d : Derived} (hs : s ∈ d.partition.unresolved) :
    op = .partitionSelector s none ∨ s ∈ (op.derived p [d]).partition.unresolved := by
  cases op with
  | sort _ | spool => exact .inr hs
  | motion kind => cases kind <;> exact .inr hs
  | partitionSelector t c =>
    cases c with
    | some c => exact .inr hs
    | none =>
      by_cases hst : s = t
      · exact .inl (hst ▸ rfl)
      · exact .inr (SortedSet.mem_filter.2 ⟨hs, by simpa using hst⟩)
  | _ => cases hop

theorem mem_unresolved_scan (hop : op.dynamicScan? = some s) (inputs : List Derived) :
    s ∈ (op.derived p inputs).partition.unresolved := by
  have hleft : ∀ (d : Derived) (dynamic : Bool) (t : ScanId), (if dynamic then some t else none) = some s →
      s ∈ (d.leaveUnresolved dynamic t).partition.unresolved := by
    intro d dynamic t ht
    cases dynamic with
    | false => cases ht
    | true =>
      cases ht
      exact SortedSet.mem_insert.2 (.inl rfl)
  cases op with
  | tableScan t => exact hleft _ t.dynamic t.scanId hop
  | indexScan t => exact hleft _ t.dynamic t.scanId hop
  | _ => cases hop

/-- What a request allows an input to leave unresolved is allowed of the operator itself, or the operator is
a hash join that eliminates the scan from its right input. -/
theorem mem_allowedUnresolved_requiredInput {request i : Nat} {optimized : List Derived} {r : Required}
    (h : op.requiredInput p request i optimized = some r) (hs : s ∈ r.partition.allowedUnresolved) :
    s ∈ p.required.partition.allowedUnresolved ∨
      ∃ j, op = .hashJoin j ∧ i ≠ 0 ∧ s ∈ j.partitionScans.map Prod.fst := by
  cases passedOn_of_requiredInput h with
  | unchanged input noJoin noReader partition | selecting j input op_eq first partition
  | producing c input producer op_eq later head_eq partition =>
    rw [partition] at hs
    exact .inl (SortedSet.mem_filter.1 hs).1
  | eliminating j input op_eq later partition =>
    rw [partition] at hs
    rcases SortedSet.mem_insertAll.1 hs with hs | hs
    · exact .inl (SortedSet.mem_filter.1 hs).1
    · exact .inr ⟨j, op_eq, later, hs⟩

end

/-- A hash join asks its left input to select the partitions of all listed scans. -/
theorem mem_propagators_requiredInput {j : HashJoin} {request : Nat} {optimized : List Derived} {r : Required}
    (h : (hashJoin j).requiredInput p request 0 optimized = some r) (hs : s ∈ j.partitionScans.map Prod.fst) :
    s ∈ r.partition.propagators.keys := by
  cases passedOn_of_requiredInput h with
  | selecting k input op_eq first partition =>
    cases op_eq
    rw [partition]
    exact SortedMap.mem_keys_insertAll.2 (.inr hs)
  | unchanged input noJoin => exact absurd rfl (noJoin j)
  | eliminating j input op_eq later partition => exact absurd rfl later
  | producing c input producer op_eq => cases op_eq

end PhysicalOp

namespace ValidPlan

variable {m : Memo σ κ} {subset : Bool} {g : GroupId} {required : Required} {plan : Plan κ} {s : ScanId}

/-- What a plan propagates is selected by the values of a column somewhere in it. -/
theorem exists_propagator (h : ValidPlan m subset g required plan) (hs : s ∈ plan.derived.partition.propagated) :
    ∃ c, .partitionSelector s (some c) ∈ plan.ops := by
  have hinput : ∀ (plan child : Plan κ) (i : Nat), plan.inputs[i]? = some child →
      (∃ c, .partitionSelector s (some c) ∈ child.ops) → ∃ c, .partitionSelector s (some c) ∈ plan.ops :=
    fun plan child i hi hc => hc.imp fun c hc => Plan.mem_ops_of_input hi hc
  induction h with
  | @expr g required id e op p request asked inputs cost known op_eq member position request_lt length_eq arity asks
      meets valid ih =>
    rcases PhysicalOp.mem_propagated_derived hs with ⟨c, rfl⟩ | ⟨d, hd, hs⟩
    · exact ⟨c, Plan.op_mem_ops _⟩
    · obtain ⟨child, hchild, rfl⟩ := List.mem_map.1 hd
      obtain ⟨i, hi⟩ := List.getElem?_of_mem hchild
      have hlt : i < e.inputs.length := length_eq ▸ (List.getElem?_eq_some_iff.1 hi).1
      exact hinput _ child i hi (ih i child _ hi (List.getElem?_eq_getElem hlt) hs)
  | @enforcer g required op p input cost isEnforcer arity required_eq logical valid ih =>
    rcases PhysicalOp.mem_propagated_derived hs with ⟨c, rfl⟩ | ⟨d, hd, hs⟩
    · exact ⟨c, Plan.op_mem_ops _⟩
    · rw [List.mem_singleton.1 hd] at hs
      exact hinput _ input 0 rfl (ih hs)

end ValidPlan

namespace Plan

/-- The partitions of a scan are selected by an operator above it: by a static selector, or by a hash join
whose left input propagates the selection to its right one. -/
def Selects (above : Plan κ) (input : Nat) (s : ScanId) : Prop :=
  above.op = .partitionSelector s none ∨
    ∃ j left c, above.op = .hashJoin j ∧ input = 1 ∧ s ∈ j.partitionScans.map Prod.fst ∧
      above.inputs[0]? = some left ∧ .partitionSelector s (some c) ∈ left.ops

/-- Some node above a place selects the partitions of a scan. -/
def Resolved (plan : Plan κ) (path : List Nat) (s : ScanId) : Prop :=
  ∃ level above input, plan.Through path level above input ∧ above.Selects input s

theorem Resolved.of_input {plan child : Plan κ} {i : Nat} {path : List Nat} {s : ScanId}
    (h : child.Resolved path s) (hi : plan.inputs[i]? = some child) : plan.Resolved (i :: path) s := by
  obtain ⟨level, above, input, hthrough, hselects⟩ := h
  exact ⟨level + 1, above, input, (through_succ hi).2 hthrough, hselects⟩

theorem Selects.resolved {plan : Plan κ} {i : Nat} {s : ScanId} (h : plan.Selects i s) (path : List Nat) :
    plan.Resolved (i :: path) s :=
  ⟨0, plan, i, through_root plan i path, h⟩

end Plan

namespace ValidPlan

variable {m : Memo σ κ} {subset : Bool} {g : GroupId} {required : Required} {plan : Plan κ} {s : ScanId}

/-- A hash join in a plan resolves the scans it lists in its right input. -/
theorem selects_hashJoin (h : ValidPlan m subset g required plan) {j : HashJoin} (hop : plan.op = .hashJoin j)
    {i : Nat} {child : Plan κ} (hi : plan.inputs[i]? = some child) (hlater : i ≠ 0)
    (hs : s ∈ j.partitionScans.map Prod.fst) : plan.Selects i s := by
  have harity : plan.inputs.length = 2 := h.arity (by rw [hop]; rfl)
  have hlt : i < plan.inputs.length := (List.getElem?_eq_some_iff.1 hi).1
  have hleft : plan.inputs[0]? = some plan.inputs[0] := List.getElem?_eq_getElem (by omega)
  obtain ⟨p, request, r, k, e, -, hr, hmeets, hvalid⟩ := h.asked (by rw [hop]; rfl) hleft
  rw [hop] at hr
  have hselected := PhysicalOp.mem_propagators_requiredInput hr hs
  obtain ⟨-, hpropagated⟩ := PartitionInfo.satisfies_iff.1 (Derived.partition_of_satisfies hmeets)
  obtain ⟨c, hc⟩ := hvalid.exists_propagator (hpropagated s hselected)
  exact .inr ⟨j, _, c, hop, by omega, hs, hleft, hc⟩

/-- A dynamic scan is resolved above it, or the plan leaves it unresolved, or it may be left unresolved. -/
theorem resolved_or_unresolved (h : ValidPlan m subset g required plan) {path : List Nat} {node : Plan κ}
    (hnode : plan.at? path = some node) (hscan : node.op.dynamicScan? = some s) :
    plan.Resolved path s ∨ s ∈ plan.derived.partition.unresolved ∨
      s ∈ required.partition.allowedUnresolved := by
  -- on the way to the scan
  induction path generalizing plan g required with
  | nil =>
    cases hnode
    obtain ⟨p, -, hderived⟩ := h.derived_eq
    rw [hderived]
    exact .inr (.inl (PhysicalOp.mem_unresolved_scan hscan _))
  | cons i path ih =>
    obtain ⟨child, hi, hnode⟩ := Plan.exists_input_of_at? hnode
    cases hop : plan.op.isEnforcer with
    | true =>
      obtain ⟨input, p, hinputs, hderived, hvalid⟩ := h.below_enforcer hop
      rw [hinputs] at hi
      obtain ⟨rfl, rfl⟩ : i = 0 ∧ input = child := by
        cases i with
        | zero => exact ⟨rfl, Option.some.inj hi⟩
        | succ i => cases hi
      rcases ih hvalid hnode with hresolved | hunresolved | hallowed
      · exact .inl (hresolved.of_input (hinputs ▸ rfl))
      · rcases PhysicalOp.mem_unresolved_enforcer (p := p) hop hunresolved with hselector | hunresolved
        · exact .inl (Plan.Selects.resolved (.inl hselector) path)
        · exact .inr (.inl (hderived ▸ hunresolved))
      · exact .inr (.inr hallowed)
    | false =>
      obtain ⟨p, request, r, k, e, rfl, hr, hmeets, hvalid⟩ := h.asked hop hi
      obtain ⟨hopen, -⟩ := PartitionInfo.satisfies_iff.1 (Derived.partition_of_satisfies hmeets)
      -- what the input leaves unresolved it was allowed to
      have hchild : child.Resolved path s ∨ s ∈ r.partition.allowedUnresolved :=
        (ih hvalid hnode).imp_right fun hs => hs.elim (hopen s) id
      rcases hchild with hresolved | hallowed
      · exact .inl (hresolved.of_input hi)
      · rcases PhysicalOp.mem_allowedUnresolved_requiredInput hr hallowed with hs | ⟨j, hj, hlater, hs⟩
        · exact .inr (.inr hs)
        · exact .inl ((h.selects_hashJoin hj hi hlater hs).resolved path)

end ValidPlan

section

variable [Zero κ] [Add κ] [LT κ] [DecidableLT κ] (setup : OptimizerSetup σ κ)

/-- In a plan that is found for a requirement that leaves no scan to others, every dynamic scan is below an
operator that selects its partitions. -/
theorem optimize_resolves (e : Expr) (required : Required) (columns : Columns) {o : Optimized κ} {after : Columns}
    (h : optimize setup e required columns = (.ok o, after)) (hrequired : required.partition.allowedUnresolved = ∅)
    {path : List Nat} {node : Plan κ} {s : ScanId} (hnode : o.plan.at? path = some node)
    (hscan : node.op.dynamicScan? = some s) : o.plan.Resolved path s := by
  obtain ⟨m, root, equal, hvalid, hmeets⟩ := validPlan_of_optimize setup h
  obtain ⟨hopen, -⟩ := PartitionInfo.satisfies_iff.1 (Derived.partition_of_satisfies hmeets)
  rw [hrequired] at hopen
  rcases hvalid.resolved_or_unresolved hnode hscan with hresolved | hunresolved | hallowed
  · exact hresolved
  · cases hopen s hunresolved
  · rw [hrequired] at hallowed
    cases hallowed

end

section

/-- A catalog with one table, partitioned by its only column. -/
def partitionedCatalog : Catalog :=
  ⟨⟨[("sale", ⟨"sale", [⟨"year", "sale", .int32, false⟩], .random, some "year", [], none⟩)]⟩, ∅⟩

def partitionedSetup : OptimizerSetup Unit Nat :=
  { unitSetup with
    catalog := partitionedCatalog
    source := fun columns =>
      { logical := LogicalOp.properties partitionedCatalog columns, statistics := fun _ _ _ => .ok () }
    order := [.getToTableScan, .joinToHashJoin, .valuesToConstTableGet] }

/-- A row of constants joined with the partitioned table on the column of its partitions. -/
def partitionedJoin : Expr :=
  .node (.logical (.join .inner (.binary (.column 1) .eq (.column 2))))
    [.node (.logical (.values ⟨[1], [[.int32 2024]]⟩)) [],
      .node (.logical (.get ⟨"sale", "sale", [2], 1, some 2⟩)) []]

def partitionedColumns : Columns := ⟨#[⟨"wanted", .int32, none⟩, ⟨"year", .int32, some ⟨"sale", "sale"⟩⟩]⟩

/-- The scan stands below a motion on the right of a hash join, which selects its partitions. -/
theorem optimize_resolves_partitionedJoin :
    ∃ o after node, optimize partitionedSetup partitionedJoin .none partitionedColumns = (.ok o, after) ∧
      o.plan.at? [1, 0] = some node ∧ node.op.dynamicScan? = some 1 ∧ o.plan.Resolved [1, 0] 1 := by
  have hscan : (optimize partitionedSetup partitionedJoin .none partitionedColumns).1.toOption.bind
      (fun o => (o.plan.at? [1, 0]).bind (fun node => node.op.dynamicScan?)) = some 1 := by decide +kernel
  cases h : optimize partitionedSetup partitionedJoin .none partitionedColumns with
  | mk r after =>
    rw [h] at hscan
    cases r with
    | error e => cases hscan
    | ok o =>
      replace hscan : (o.plan.at? [1, 0]).bind (fun node => node.op.dynamicScan?) = some 1 := hscan
      obtain ⟨node, hnode, hscan⟩ := Option.bind_eq_some_iff.1 hscan
      exact ⟨o, after, node, rfl, hnode, hscan,
        optimize_resolves partitionedSetup partitionedJoin .none partitionedColumns h rfl hnode hscan⟩

end

end Cascade
