import Cascade.Proofs.Search.Validity
import Cascade.Search.Extract

/-!
Plans. In a sound memo the plan of a context is valid in every node: its inputs are plans that its operator
has asked for, and it provides what the operator derives from them (`planOf_planAt`).
-/

namespace Cascade

open Memo Search

variable {σ κ : Type}

/-- A plan of a group for a requirement. What a node provides is what its operator derives from its inputs,
and below an expression they meet what one request of its operator asks for. -/
inductive ValidPlan (m : Memo σ κ) (subset : Bool) : GroupId → Required → Plan κ → Prop
  /-- an expression of the group over plans of its inputs -/
  | expr {g : GroupId} {required : Required} {id : ExprId} {e : MemoExpr} {op : PhysicalOp} {p : Position}
      {request : Nat} {asked : Nat → Required} {inputs : List (Plan κ)} {cost : κ}
      (known : m.expr? id = some e) (op_eq : e.op = .physical op) (member : m.find e.group = m.find g)
      (position : position m e required = .ok p) (request_lt : request < op.requestCount)
      (length_eq : inputs.length = e.inputs.length) (arity : ∀ n, op.arity = some n → inputs.length = n)
      (asks : ∀ i < inputs.length,
        op.requiredInput p request i ((inputs.take i).map Plan.derived) = some (asked i))
      (meets : ∀ i (child : Plan κ) l, inputs[i]? = some child → p.inputs[i]? = some l →
        child.derived.satisfies (asked i) l.equivalences subset = true)
      (valid : ∀ i child k, inputs[i]? = some child → e.inputs[i]? = some k → ValidPlan m subset k (asked i) child) :
      ValidPlan m subset g required (.node op inputs cost (op.derived p (inputs.map Plan.derived)))
  /-- an enforcer above a plan for the same requirement -/
  | enforcer {g : GroupId} {required : Required} {op : PhysicalOp} {p : Position} {input : Plan κ} {cost : κ}
      (isEnforcer : op.isEnforcer = true) (arity : op.arity = some 1) (required_eq : p.required = required)
      (logical : m.logical? g = some p.logical) (valid : ValidPlan m subset g required input) :
      ValidPlan m subset g required (.node op [input] cost (op.derived p [input.derived]))

theorem arity_of_isEnforcer {op : PhysicalOp} (h : op.isEnforcer = true) : op.arity = some 1 := by
  cases op with
  | sort _ | motion _ | spool | partitionSelector _ _ => rfl
  | _ => cases h

section

variable {m : Memo σ κ} {subset : Bool}

theorem validPlan_enforcers {g : GroupId} {p : Position} (hlogical : m.logical? g = some p.logical)
    (steps : List (EnforcerStep κ)) {top : Derived} {plan : Plan κ} (hvalid : ValidPlan m subset g p.required plan)
    (hsteps : Enforces p plan.derived steps top) :
    ValidPlan m subset g p.required (steps.foldl (fun p x => .node x.op [p] x.cost x.derived) plan) ∧
      (steps.foldl (fun p x => Plan.node x.op [p] x.cost x.derived) plan).derived = top := by
  -- on the enforcers, from the lowest to the highest
  induction steps generalizing plan with
  | nil => exact ⟨hvalid, hsteps.symm⟩
  | cons x steps ih =>
    obtain ⟨henforcer, hderived, hsteps⟩ := hsteps
    have hnext : ValidPlan m subset g p.required (.node x.op [plan] x.cost x.derived) := by
      rw [hderived]
      exact .enforcer henforcer.isEnforcer (arity_of_isEnforcer henforcer.isEnforcer) rfl hlogical hvalid
    exact ih hnext hsteps

/-- The plan of a context provides what the context says, and is a plan of the group and the requirement
that the context is for. -/
def PlanOf (m : Memo σ κ) (subset : Bool) (id : ContextId) (plan : Plan κ) : Prop :=
  ∃ c, m.contexts.get id = .ok c ∧ plan.derived = c.derived ∧ ∀ g r, m.Offered id g r →
    ValidPlan m subset g r plan ∧ ∃ l, m.logical? g = some l ∧ plan.derived.satisfies r l.equivalences subset = true

section

variable {e : MemoExpr} {op : PhysicalOp} {p : Position} {derived : List Derived} {plans : List (Plan κ)}

/-- What the plans of the chosen inputs provide is what the operator was told. -/
theorem derived_eq_of_planOf {request : Nat} {ids : List ContextId}
    (hchosen : Chosen m e op p request ids derived) (hplans : List.Forall₂ (PlanOf m subset) ids plans) :
    derived = plans.map Plan.derived := by
  apply List.ext_getElem?
  intro i
  rw [List.getElem?_map]
  cases hid : ids[i]? with
  | some id =>
    obtain ⟨plan, hplan, c, hc, hd, -⟩ := getElem?_of_forall₂ hplans hid
    rw [hchosen.derived_eq hid hc, hplan, Option.map_some, hd]
  | none =>
    have hi := List.getElem?_eq_none_iff.1 hid
    rw [List.getElem?_eq_none (hchosen.length_eq ▸ hi), List.getElem?_eq_none (hplans.length_eq ▸ hi)]
    rfl

theorem validPlan_node {c : CostContext κ} (w : m.WellFormed) (hc : ContextOf m subset c e op p derived)
    (hplans : List.Forall₂ (PlanOf m subset) c.inputs plans) {g : GroupId} (hg : m.find e.group = m.find g) :
    ValidPlan m subset g c.required (.node op plans c.exprCost c.exprDerived) := by
  have hlength : plans.length = e.inputs.length := hplans.length_eq.symm.trans hc.inputs_length
  obtain ⟨-, -, hinputs⟩ := (position_ok_iff m e _ p).1 hc.position
  -- what every input was asked for, and for which group
  have hasked : ∀ i, ∃ r, ∀ k, c.inputs[i]? = some k → ∃ g, e.inputs[i]? = some g ∧
      op.requiredInput p c.request i (derived.take i) = some r ∧ m.Offered k g r := by
    intro i
    cases hi : c.inputs[i]? with
    | none => exact ⟨.none, fun k hk => by cases hk⟩
    | some id =>
      obtain ⟨g, r, hg, hr, ho⟩ := hc.chosen.offered hi
      exact ⟨r, fun k hk => ⟨g, hg, hr, Option.some.inj hk ▸ ho⟩⟩
  choose asked hasked using hasked
  have hinput : ∀ i (child : Plan κ), plans[i]? = some child → ∃ g, e.inputs[i]? = some g ∧
      op.requiredInput p c.request i (derived.take i) = some (asked i) ∧ ValidPlan m subset g (asked i) child ∧
      ∃ l, m.logical? g = some l ∧ child.derived.satisfies (asked i) l.equivalences subset = true := by
    intro i child hchild
    obtain ⟨k, hk, d, -, -, hvalid⟩ := getElem?_of_forall₂ hplans.flip hchild
    obtain ⟨g, hg, hr, ho⟩ := hasked i k hk
    exact ⟨g, hg, hr, hvalid g (asked i) ho⟩
  have hderived := derived_eq_of_planOf hc.chosen hplans
  have harity : ∀ n, op.arity = some n → plans.length = n := fun n hn =>
    hlength.trans (w.coherent.arity hc.expr n (hc.op_eq ▸ hn))
  have hasks : ∀ i < plans.length,
      op.requiredInput p c.request i ((plans.take i).map Plan.derived) = some (asked i) := by
    intro i hi
    obtain ⟨-, -, hr, -⟩ := hinput i _ (List.getElem?_eq_getElem hi)
    rwa [List.map_take, ← hderived]
  have hmeets : ∀ i (child : Plan κ) l, plans[i]? = some child → p.inputs[i]? = some l →
      child.derived.satisfies (asked i) l.equivalences subset = true := by
    intro i child l hchild hl
    obtain ⟨g, hg, -, -, l', hl', hmeets⟩ := hinput i child hchild
    obtain ⟨l'', hl'', hgl⟩ := getElem?_of_forall₂ hinputs hg
    cases hl.symm.trans hl''
    cases hl'.symm.trans hgl
    exact hmeets
  have hvalid : ∀ i (child : Plan κ) k, plans[i]? = some child → e.inputs[i]? = some k →
      ValidPlan m subset k (asked i) child := by
    intro i child k hchild hk
    obtain ⟨g, hg, -, hvalid, -⟩ := hinput i child hchild
    exact Option.some.inj (hg.symm.trans hk) ▸ hvalid
  rw [hc.derived_eq, hderived]
  exact .expr hc.expr hc.op_eq hg hc.position hc.request_lt hlength harity hasks hmeets hvalid

end

/-- A plan has the enforcers of a context above the expression of the context, over plans of its inputs. -/
theorem exists_of_planAt (h : m.Sound subset) {levels : Nat} {id : ContextId} {plan : Plan κ}
    (hplan : m.planAt (levels + 1) id = .ok plan) :
    ∃ c e op p derived plans, m.contexts.get id = .ok c ∧ ContextOf m subset c e op p derived ∧
      List.Forall₂ (fun id plan => m.planAt levels id = .ok plan) c.inputs plans ∧
      plan = c.enforcers.foldl (fun p x => .node x.op [p] x.cost x.derived)
        (.node op plans c.exprCost c.exprDerived) := by
  unfold planAt at hplan
  obtain ⟨c, hget, hplan⟩ := exists_of_bind_ok hplan
  obtain ⟨e, he, hplan⟩ := exists_of_bind_ok hplan
  obtain ⟨e', op, p, derived, hc⟩ := h.contexts hget
  cases hc.expr.symm.trans (expr_ok he)
  rw [hc.op_eq] at hplan
  obtain ⟨plans, hplans, hplan⟩ := exists_of_bind_ok hplan
  exact ⟨c, e, op, p, derived, plans, hget, hc, forall₂_of_mapM_ok hplans, (Except.ok.inj hplan).symm⟩

theorem planOf_planAt (h : m.Sound subset) (levels : Nat) {id : ContextId} {plan : Plan κ}
    (hplan : m.planAt levels id = .ok plan) : PlanOf m subset id plan := by
  -- on the levels a plan may have
  induction levels generalizing id plan with
  | zero => cases hplan
  | succ levels ih =>
    obtain ⟨c, e, op, p, derived, plans, hget, hc, hplans, rfl⟩ := exists_of_planAt h hplan
    have hplans : List.Forall₂ (PlanOf m subset) c.inputs plans := hplans.imp fun _ _ => ih
    obtain ⟨hrequired, hlogical, -⟩ := (position_ok_iff m e _ p).1 hc.position
    have hnode : ∀ g, m.find e.group = m.find g →
        ValidPlan m subset g p.required (.node op plans c.exprCost c.exprDerived) := fun g hg =>
      hrequired ▸ validPlan_node h.wellFormed hc hplans hg
    have hwhole := fun g (hg : m.find e.group = m.find g) =>
      validPlan_enforcers ((logical?_congr hg).symm.trans hlogical) c.enforcers (hnode g hg) hc.enforces
    refine ⟨c, hget, (hwhole e.group rfl).2, fun g r ho => ?_⟩
    obtain ⟨rfl, f, hf, hgroup⟩ := ho.2 c hget
    cases hc.expr.symm.trans hf
    refine ⟨hrequired ▸ (hwhole g hgroup).1, p.logical, (logical?_congr hgroup).symm.trans hlogical, ?_⟩
    rw [(hwhole g hgroup).2]
    exact hc.satisfies

end

end Cascade
