import Cascade.Proofs.Search.Places

/-!
Common table expressions in plans. A reader provides the distribution that its requirement has for the
common table expression, and only the sequences above it put distributions there, each the one of its
producer.
-/

namespace Cascade

variable {σ κ : Type}

theorem Derived.cte_of_satisfies {d : Derived} {r : Required} {e : EquivalenceClasses} {subset : Bool}
    (h : d.satisfies r e subset = true) : r.cte.allows d.cteConsumers = true := by
  unfold satisfies at h
  simp only [Bool.and_eq_true] at h
  exact h.2

namespace PhysicalOp

theorem cteConsumers_enforcer {op : PhysicalOp} (hop : op.isEnforcer = true) (p : Position) (d : Derived) :
    (op.derived p [d]).cteConsumers = d.cteConsumers := by
  cases op with
  | sort _ | spool | partitionSelector _ _ => rfl
  | motion kind => cases kind <;> rfl
  | _ => cases hop

end PhysicalOp

namespace Plan

/-- The way to a place passes a sequence of a common table expression and goes on by the input that may read
it. -/
def Sequenced (plan : Plan κ) (path : List Nat) (c : CteId) (level : Nat) (sequence : Plan κ) : Prop :=
  plan.Through path level sequence 1 ∧ sequence.op = .sequence c

/-- The nearest such sequence above a place. -/
def NearestSequence (plan : Plan κ) (path : List Nat) (c : CteId) (sequence : Plan κ) : Prop :=
  ∃ level, plan.Sequenced path c level sequence ∧
    ∀ deeper other, plan.Sequenced path c deeper other → deeper ≤ level

section

variable {plan child sequence : Plan κ} {i : Nat} {path : List Nat} {c : CteId}

theorem sequenced_succ (hi : plan.inputs[i]? = some child) {level : Nat} :
    plan.Sequenced (i :: path) c (level + 1) sequence ↔ child.Sequenced path c level sequence :=
  and_congr_left' (through_succ hi)

theorem NearestSequence.of_input (h : child.NearestSequence path c sequence) (hi : plan.inputs[i]? = some child) :
    plan.NearestSequence (i :: path) c sequence := by
  obtain ⟨level, hsequenced, hnearest⟩ := h
  refine ⟨level + 1, (sequenced_succ hi).2 hsequenced, fun deeper other hother => ?_⟩
  cases deeper with
  | zero => omega
  | succ deeper => exact Nat.succ_le_succ (hnearest deeper other ((sequenced_succ hi).1 hother))

/-- A sequence is the nearest one of a place in its second input if none stands between them. -/
theorem nearestSequence_root (hop : plan.op = .sequence c) (hi : plan.inputs[1]? = some child)
    (hnone : ∀ level other, ¬child.Sequenced path c level other) : plan.NearestSequence (1 :: path) c plan := by
  refine ⟨0, ⟨through_root plan 1 path, hop⟩, fun deeper other hother => ?_⟩
  cases deeper with
  | zero => exact Nat.le_refl 0
  | succ deeper => exact absurd ((sequenced_succ hi).1 hother) (hnone deeper other)

theorem not_sequenced_of_input (hroot : i = 1 → plan.op ≠ .sequence c) (hi : plan.inputs[i]? = some child)
    (hnone : ∀ level other, ¬child.Sequenced path c level other) (level : Nat) (other : Plan κ) :
    ¬plan.Sequenced (i :: path) c level other := by
  intro h
  cases level with
  | zero =>
    obtain ⟨rfl, hone⟩ := through_zero_iff.1 h.1
    exact hroot hone.symm h.2
  | succ level => exact hnone level other ((sequenced_succ hi).1 h)

end

/-- A reader has the distribution of the producer of a sequence, under its own names. -/
def ReadsProducer (sequence node : Plan κ) (r : CteRead) : Prop :=
  ∃ producer, sequence.inputs[0]? = some producer ∧
    node.derived.distribution = producer.derived.distribution.mapped r.producerColumns r.columns

end Plan

namespace ValidPlan

variable {m : Memo σ κ} {subset : Bool} {g : GroupId} {required : Required} {plan node : Plan κ}

/-- A sequence has one input beside its producer, and what that input is told is what the producer provides. -/
theorem sequence_inputs (h : ValidPlan m subset g required plan) {c : CteId} (hop : plan.op = .sequence c) {i : Nat}
    {child : Plan κ} (hi : plan.inputs[i]? = some child) (hlater : i ≠ 0) {provided : Derived}
    (hhead : ((plan.inputs.take i).map Plan.derived).head? = some provided) :
    i = 1 ∧ ∃ producer, plan.inputs[0]? = some producer ∧ producer.derived = provided := by
  have harity : plan.inputs.length = 2 := h.arity (by rw [hop]; rfl)
  have hlt : i < plan.inputs.length := (List.getElem?_eq_some_iff.1 hi).1
  obtain rfl : i = 1 := by omega
  have hfirst : plan.inputs[0]? = some plan.inputs[0] := List.getElem?_eq_getElem (by omega)
  rw [List.head?_eq_getElem?, List.getElem?_map, List.getElem?_take_of_lt Nat.one_pos, hfirst] at hhead
  exact ⟨rfl, _, hfirst, Option.some.inj hhead⟩

/-- A reader reads the producer of the nearest sequence above it. Below no sequence it has the distribution
that the requirement of the plan has for it. -/
theorem reads_sequence_or_required (h : ValidPlan m subset g required plan)
    (hallows : required.cte.allows plan.derived.cteConsumers = true) {path : List Nat}
    (hnode : plan.at? path = some node) {r : CteRead} (hread : node.op = .cteScan r) :
    (∃ sequence, plan.NearestSequence path r.cte sequence ∧ sequence.ReadsProducer node r) ∨
      (∀ level other, ¬plan.Sequenced path r.cte level other) ∧
        ∃ d, required.cte.producers.get? r.cte = some d ∧
          node.derived.distribution = d.mapped r.producerColumns r.columns := by
  -- on the way to the reader
  induction path generalizing plan g required with
  | nil =>
    cases hnode
    obtain ⟨p, rfl, hderived⟩ := h.derived_eq
    rw [hread] at hderived
    rw [hderived] at hallows
    have hcontains : p.required.cte.producers.contains r.cte = true := by
      simpa [PhysicalOp.derived, Derived.ofCteScan, CteRequirement.allows, SortedSet.singleton] using hallows
    obtain ⟨d, hd⟩ := SortedMap.contains_iff.1 hcontains
    refine .inr ⟨fun level other hother => ?_, d, hd, ?_⟩
    · cases hother.1.1
    · rw [hderived]
      simp only [PhysicalOp.derived, Derived.ofCteScan, hd]
      rfl
  | cons i path ih =>
    obtain ⟨child, hi, hnode⟩ := Plan.exists_input_of_at? hnode
    cases hop : plan.op.isEnforcer with
    | true =>
      obtain ⟨input, p, hinputs, hderived, hvalid⟩ := h.below_enforcer hop
      have hchild : input = child := by
        rw [hinputs] at hi
        cases i with
        | zero => exact Option.some.inj hi
        | succ i => cases hi
      subst hchild
      rw [hderived, PhysicalOp.cteConsumers_enforcer hop] at hallows
      have hroot : i = 1 → plan.op ≠ .sequence r.cte := fun _ hsequence => by rw [hsequence] at hop; cases hop
      rcases ih hvalid hallows hnode with ⟨sequence, hnearest, hreads⟩ | ⟨hnone, hrequired⟩
      · exact .inl ⟨sequence, hnearest.of_input hi, hreads⟩
      · exact .inr ⟨Plan.not_sequenced_of_input hroot hi hnone, hrequired⟩
    | false =>
      obtain ⟨p, request, asked, k, e, rfl, hasked, hmeets, hvalid⟩ := h.asked hop hi
      rcases ih hvalid (Derived.cte_of_satisfies hmeets) hnode with
        ⟨sequence, hnearest, hreads⟩ | ⟨hnone, d, hd, hmapped⟩
      · exact .inl ⟨sequence, hnearest.of_input hi, hreads⟩
      -- the reader takes what the input was asked for, which is what was required or what a producer provides
      · have hbelow := fun hroot => Plan.not_sequenced_of_input hroot hi hnone
        cases passedOn_of_requiredInput hasked with
        | unchanged input noJoin noReader partition cte =>
          have hroot : i = 1 → plan.op ≠ .sequence r.cte := fun hone hsequence =>
            Nat.one_ne_zero (hone.symm.trans (noReader r.cte hsequence))
          exact .inr ⟨hbelow hroot, d, cte ▸ hd, hmapped⟩
        | selecting j input op_eq first partition cte | eliminating j input op_eq later partition cte =>
          have hroot : i = 1 → plan.op ≠ .sequence r.cte := fun _ hsequence => by
            cases op_eq.symm.trans hsequence
          exact .inr ⟨hbelow hroot, d, cte ▸ hd, hmapped⟩
        | producing c input provided op_eq later head_eq partition cte =>
          obtain ⟨rfl, producer, hproducer, rfl⟩ := h.sequence_inputs op_eq hi later head_eq
          rw [cte] at hd
          by_cases hc : r.cte = c
          · subst hc
            have hd : producer.derived.distribution = d :=
              Option.some.inj ((SortedMap.get?_insert_self _ r.cte producer.derived.distribution).symm.trans hd)
            exact .inl ⟨plan, Plan.nearestSequence_root op_eq hi hnone, producer, hproducer, hd ▸ hmapped⟩
          · have hroot : 1 = 1 → plan.op ≠ .sequence r.cte := fun _ hsequence => by
              cases op_eq.symm.trans hsequence
              exact hc rfl
            exact .inr ⟨hbelow hroot, d, (SortedMap.get?_insert_of_ne _ _ hc).symm.trans hd, hmapped⟩

end ValidPlan

section

variable [Zero κ] [Add κ] [LT κ] [DecidableLT κ] (setup : OptimizerSetup σ κ)

/-- In a plan that is found for a requirement without common table expressions, every reader is below a
sequence that computes what it reads, and it provides what the producer of the nearest one provides. -/
theorem optimize_scopes (e : Expr) (required : Required) (columns : Columns) {o : Optimized κ} {after : Columns}
    (h : optimize setup e required columns = (.ok o, after)) (hrequired : required.cte = .none)
    {path : List Nat} {node : Plan κ} {r : CteRead} (hnode : o.plan.at? path = some node)
    (hread : node.op = .cteScan r) :
    ∃ sequence producer, o.plan.NearestSequence path r.cte sequence ∧ sequence.inputs[0]? = some producer ∧
      node.derived.distribution = producer.derived.distribution.mapped r.producerColumns r.columns := by
  obtain ⟨m, root, equal, hvalid, hmeets⟩ := validPlan_of_optimize setup h
  rcases hvalid.reads_sequence_or_required (Derived.cte_of_satisfies hmeets) hnode hread with
    ⟨sequence, hnearest, producer, hproducer, hmapped⟩ | ⟨-, d, hd, -⟩
  · exact ⟨sequence, producer, hnearest, hproducer, hmapped⟩
  · rw [hrequired] at hd
    cases hd

end

section

/-- A common table expression of one row, read once. -/
def anchoredRow : Expr :=
  .node (.logical (.cteAnchor 1))
    [.node (.logical (.values ⟨[1], [[.int32 1]]⟩)) [], .node (.logical (.cteConsumer ⟨1, [2], [1]⟩)) []]

def anchoredColumns : Columns := ⟨#[⟨"a", .int32, none⟩, ⟨"b", .int32, none⟩]⟩

def anchoredSetup : OptimizerSetup Unit Nat :=
  { unitSetup with order := [.valuesToConstTableGet, .cteAnchorToSequence, .cteConsumerToCteScan] }

/-- The reader is the second input of the sequence and has the distribution of the constants. -/
theorem optimize_scopes_anchoredRow :
    ∃ o after node sequence producer, optimize anchoredSetup anchoredRow .none anchoredColumns = (.ok o, after) ∧
      o.plan.at? [1] = some node ∧ o.plan.NearestSequence [1] 1 sequence ∧ sequence.inputs[0]? = some producer ∧
      node.derived.distribution = producer.derived.distribution.mapped [1] [2] := by
  have hread : (optimize anchoredSetup anchoredRow .none anchoredColumns).1.toOption.bind
      (fun o => (o.plan.at? [1]).map Plan.op) = some (.cteScan ⟨1, [2], [1]⟩) := by decide +kernel
  cases h : optimize anchoredSetup anchoredRow .none anchoredColumns with
  | mk result after =>
    rw [h] at hread
    cases result with
    | error e => cases hread
    | ok o =>
      replace hread : (o.plan.at? [1]).map Plan.op = some (.cteScan ⟨1, [2], [1]⟩) := hread
      obtain ⟨node, hnode, hread⟩ := Option.map_eq_some_iff.1 hread
      obtain ⟨sequence, producer, hscoped⟩ :=
        optimize_scopes anchoredSetup anchoredRow .none anchoredColumns h rfl hnode hread
      exact ⟨o, after, node, sequence, producer, rfl, hnode, hscoped⟩

end

end Cascade
