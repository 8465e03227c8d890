import Cascade.Proofs.Search.Optimum

/-!
Places in plans. A node is found by the inputs that lead to it, and the way to it passes the nodes that
stand above it. A valid plan is valid at every place (`ValidPlan.asked`, `ValidPlan.below_enforcer`).
-/

namespace Cascade

variable {σ κ : Type}

namespace Plan

/-- The node that is reached by an input of the root, an input of that input and so on. -/
def at? : Plan κ → List Nat → Option (Plan κ)
  | p, [] => some p
  | p, i :: path => p.inputs[i]?.bind (fun input => input.at? path)

/-- The way to a place passes a node, so many levels below the root, and leaves it by an input. -/
def Through (plan : Plan κ) (path : List Nat) (level : Nat) (node : Plan κ) (input : Nat) : Prop :=
  path[level]? = some input ∧ plan.at? (path.take level) = some node

section

variable {plan child node : Plan κ} {i : Nat} {path : List Nat}

theorem at?_cons (h : plan.inputs[i]? = some child) (path : List Nat) : plan.at? (i :: path) = child.at? path := by
  unfold at?
  rw [h, Option.bind_some]
  cases path <;> rfl

theorem exists_input_of_at? (h : plan.at? (i :: path) = some node) :
    ∃ child, plan.inputs[i]? = some child ∧ child.at? path = some node := by
  obtain ⟨child, hi, hnode⟩ := Option.bind_eq_some_iff.1 h
  exact ⟨child, hi, hnode⟩

theorem through_root (plan : Plan κ) (i : Nat) (path : List Nat) : plan.Through (i :: path) 0 plan i :=
  ⟨rfl, rfl⟩

theorem through_succ (h : plan.inputs[i]? = some child) {level : Nat} {j : Nat} :
    plan.Through (i :: path) (level + 1) node j ↔ child.Through path level node j := by
  unfold Through
  rw [List.getElem?_cons_succ, List.take_succ_cons, at?_cons h]

theorem through_zero_iff {j : Nat} : plan.Through (i :: path) 0 node j ↔ node = plan ∧ j = i := by
  constructor
  · rintro ⟨hj, hnode⟩
    exact ⟨(Option.some.inj hnode).symm, (Option.some.inj hj).symm⟩
  · rintro ⟨rfl, rfl⟩
    exact through_root _ _ _

/-- The operators of an input are among those of the plan. -/
theorem mem_ops_of_input {op : PhysicalOp} (h : plan.inputs[i]? = some child) (hop : op ∈ child.ops) :
    op ∈ plan.ops := by
  have hinputs : ∀ ps : List (Plan κ), child ∈ ps → op ∈ inputOps ps := by
    intro ps hmem
    induction ps with
    | nil => cases hmem
    | cons p ps ih =>
      rcases List.mem_cons.1 hmem with rfl | hmem
      · exact List.mem_append_left _ hop
      · exact List.mem_append_right _ (ih hmem)
  cases plan with
  | node root inputs cost derived => exact List.mem_cons_of_mem _ (hinputs inputs (List.mem_of_getElem? h))

theorem op_mem_ops (plan : Plan κ) : plan.op ∈ plan.ops := by
  cases plan with
  | node op inputs cost derived => exact List.mem_cons_self ..

end

end Plan

theorem requestCount_of_isEnforcer {op : PhysicalOp} (h : op.isEnforcer = true) : op.requestCount = 0 := by
  cases op with
  | sort _ | motion _ | spool | partitionSelector _ _ => rfl
  | _ => cases h

/-! What a request passes on, of what is asked about partitions and common table expressions. -/

/-- A request passes on what is asked of the operator. A hash join makes its left input select the partitions
of the listed scans and lets the other leave them unresolved; a sequence lets the other inputs read what the
first one produces. -/
inductive PassedOn (op : PhysicalOp) (p : Position) (i : Nat) (optimized : List Derived) (r : Required) : Prop
  | unchanged (input : LogicalProperties) (noJoin : ∀ j, op ≠ .hashJoin j) (noReader : ∀ c, op = .sequence c → i = 0)
      (partition : r.partition = p.required.partition.restrict input) (cte : r.cte = p.required.cte)
  | selecting (j : HashJoin) (input : LogicalProperties) (op_eq : op = .hashJoin j) (first : i = 0)
      (partition : r.partition =
        { p.required.partition.restrict input with
          propagators := (p.required.partition.restrict input).propagators.insertAll j.partitionScans })
      (cte : r.cte = p.required.cte)
  | eliminating (j : HashJoin) (input : LogicalProperties) (op_eq : op = .hashJoin j) (later : i ≠ 0)
      (partition : r.partition =
        { p.required.partition.restrict input with
          allowedUnresolved :=
            (p.required.partition.restrict input).allowedUnresolved.insertAll (j.partitionScans.map Prod.fst) })
      (cte : r.cte = p.required.cte)
  | producing (c : CteId) (input : LogicalProperties) (producer : Derived) (op_eq : op = .sequence c)
      (later : i ≠ 0) (head_eq : optimized.head? = some producer)
      (partition : r.partition = p.required.partition.restrict input)
      (cte : r.cte = p.required.cte.withProducer c producer.distribution)

section

variable {op : PhysicalOp} {p : Position} {input : LogicalProperties} {request i : Nat} {optimized : List Derived}
  {r : Required}

theorem passThrough_passes {ordering distribution : Bool} (h : p.passThrough input ordering distribution = some r) :
    r.partition = p.required.partition.restrict input ∧ r.cte = p.required.cte := by
  unfold Position.passThrough at h
  split at h
  · cases h
  · split at h
    · cases h
    · cases h
      exact ⟨rfl, rfl⟩

theorem unaryInput_passes (h : PhysicalOp.unaryInput p input request = some r) :
    r.partition = p.required.partition.restrict input ∧ r.cte = p.required.cte := by
  unfold PhysicalOp.unaryInput at h
  split at h
  · exact passThrough_passes h
  · split at h
    · cases h
    · exact passThrough_passes h
  · split at h
    · cases h
    · exact passThrough_passes h
  · cases h

theorem passedOn_of_requiredInput (h : op.requiredInput p request i optimized = some r) :
    PassedOn op p i optimized r := by
  unfold PhysicalOp.requiredInput at h
  obtain ⟨input, -, h⟩ := Option.bind_eq_some_iff.1 h
  cases op with
  | filter _ | computeScalar _ =>
    obtain ⟨hpartition, hcte⟩ := unaryInput_passes h
    exact .unchanged input nofun nofun hpartition hcte
  | hashJoin j =>
    obtain ⟨outer, -, h⟩ := Option.bind_eq_some_iff.1 h
    obtain ⟨inner, -, h⟩ := Option.bind_eq_some_iff.1 h
    split at h
    · rename_i hi
      obtain ⟨distribution, -, h⟩ := Option.bind_eq_some_iff.1 h
      cases h
      exact .selecting j outer rfl hi rfl rfl
    · rename_i hi
      obtain ⟨provided, -, h⟩ := Option.bind_eq_some_iff.1 h
      obtain ⟨distribution, -, h⟩ := Option.bind_eq_some_iff.1 h
      cases h
      exact .eliminating j inner rfl hi rfl rfl
  | nestedLoopJoin _ _ =>
    obtain ⟨distribution, -, h⟩ := Option.bind_eq_some_iff.1 h
    split at h <;> cases h <;> exact .unchanged input nofun nofun rfl rfl
  | indexNestedLoopJoin _ | hashAggregate _ | streamAggregate _ =>
    obtain ⟨distribution, -, h⟩ := Option.bind_eq_some_iff.1 h
    cases h
    exact .unchanged input nofun nofun rfl rfl
  | limit _ | dml _ _ _ _ =>
    cases h
    exact .unchanged input nofun nofun rfl rfl
  | append _ =>
    dsimp only at h
    split at h <;> cases h <;> exact .unchanged input nofun nofun rfl rfl
  | sequence c =>
    dsimp only at h
    split at h
    · rename_i hi
      cases h
      exact .unchanged input nofun (fun _ _ => hi) rfl rfl
    · rename_i hi
      obtain ⟨producer, hproducer, h⟩ := Option.bind_eq_some_iff.1 h
      obtain ⟨required, hrequired, h⟩ := Option.bind_eq_some_iff.1 h
      cases h
      exact .producing c input producer rfl hi hproducer (passThrough_passes hrequired).1 rfl
  | tableScan _ | indexScan _ | constTableGet _ | cteScan _ | sort _ | motion _ | spool
  | partitionSelector _ _ => cases h

end

namespace ValidPlan

variable {m : Memo σ κ} {subset : Bool} {g : GroupId} {required : Required} {plan child : Plan κ}

/-- What an operator that is no enforcer asks an input for is what the input was planned for. -/
theorem asked (h : ValidPlan m subset g required plan) (hop : plan.op.isEnforcer = false) {i : Nat}
    (hi : plan.inputs[i]? = some child) :
    ∃ p request r k e, p.required = required ∧
      plan.op.requiredInput p request i ((plan.inputs.take i).map Plan.derived) = some r ∧
      child.derived.satisfies r e subset = true ∧ ValidPlan m subset k r child := by
  cases h with
  | enforcer henforcer => cases hop.symm.trans henforcer
  | @expr _ _ id e op p request asked inputs cost known op_eq member position request_lt length_eq arity asks
      meets valid =>
    obtain ⟨hrequired, -, hlogical⟩ := (position_ok_iff m e required p).1 position
    have hlt : i < inputs.length := (List.getElem?_eq_some_iff.1 hi).1
    have hk : e.inputs[i]? = some e.inputs[i] := List.getElem?_eq_getElem (length_eq ▸ hlt)
    obtain ⟨l, hl, -⟩ := getElem?_of_forall₂ hlogical hk
    exact ⟨p, request, asked i, e.inputs[i], l.equivalences, hrequired, asks i hlt, meets i child l hi hl,
      valid i child _ hi hk⟩

/-- The plan below an enforcer was planned for what the enforcer stands in for. -/
theorem below_enforcer (h : ValidPlan m subset g required plan) (hop : plan.op.isEnforcer = true) :
    ∃ input p, plan.inputs = [input] ∧ plan.derived = plan.op.derived p [input.derived] ∧
      ValidPlan m subset g required input := by
  cases h with
  | @enforcer _ _ op p input cost henforcer harity hrequired hlogical hvalid => exact ⟨input, p, rfl, rfl, hvalid⟩
  | expr known op_eq member position request_lt =>
    exact absurd (requestCount_of_isEnforcer hop) (Nat.ne_of_gt (Nat.zero_lt_of_lt request_lt))

/-- What a node provides is what its operator derives at a position with the requirement of the plan. -/
theorem derived_eq (h : ValidPlan m subset g required plan) :
    ∃ p, p.required = required ∧ plan.derived = plan.op.derived p (plan.inputs.map Plan.derived) := by
  cases h with
  | expr known op_eq member position => exact ⟨_, ((position_ok_iff _ _ _ _).1 position).1, rfl⟩
  | enforcer isEnforcer arity required_eq => exact ⟨_, required_eq, rfl⟩

theorem arity (h : ValidPlan m subset g required plan) {n : Nat} (hn : plan.op.arity = some n) :
    plan.inputs.length = n := by
  cases h with
  | expr known op_eq member position request_lt length_eq arity => exact arity n hn
  | enforcer isEnforcer arity => exact Option.some.inj (arity.symm.trans hn)

end ValidPlan

section

variable [Zero κ] [Add κ] [LT κ] [DecidableLT κ] (setup : OptimizerSetup σ κ)

open Memo Search

/-- The plan that is found is valid in the memo the search leaves, and it provides what was required. -/
theorem validPlan_of_optimize {e : Expr} {required : Required} {columns after : Columns} {o : Optimized κ}
    (h : optimize setup e required columns = (.ok o, after)) :
    ∃ (m : Memo σ κ) (root : GroupId) (equal : EquivalenceClasses),
      ValidPlan m setup.config.subsetHashMatching root required o.plan ∧
      o.plan.derived.satisfies required equal setup.config.subsetHashMatching = true := by
  obtain ⟨root, inserted, exhausted, last, id, -, -, hlast, hoffered, hplan⟩ := offered_of_optimize setup h
  obtain ⟨c, -, -, hvalid⟩ := planOf_planAt hlast.sound _ hplan
  obtain ⟨hvalid, l, -, hmeets⟩ := hvalid root required hoffered
  exact ⟨_, root, l.equivalences, hvalid, hmeets⟩

end

end Cascade
