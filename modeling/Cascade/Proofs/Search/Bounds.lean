import Cascade.Proofs.Search.Requirements
import Cascade.Proofs.Search.Steps

/-!
Bounds on what a search works on. All numbers of a memo and of the waiting jobs are below some bound. Until a rule adds
to the memo they stay below it, since what jobs ask for comes from the memo and from requirements below the bound.
-/

namespace Cascade

open Filter Memo Search

variable {σ κ : Type}

namespace JobKey

/-- All numbers of a key are below a bound. -/
def Below (M : Nat) : JobKey → Prop
  | optimizeGroup g r => g.index < M ∧ r.Below M
  | implementGroup g => g.index < M
  | exploreGroup g => g.index < M
  | implementExpr e => e.index < M
  | exploreExpr e => e.index < M
  | applyRule e _ => e.index < M
  | optimizeExpr e r => e.index < M ∧ r.Below M

theorem eventually_below (k : JobKey) : ∀ᶠ M in atTop, k.Below M := by
  cases k with
  | optimizeGroup g r => exact (eventually_gt_atTop g.index).and r.eventually_below
  | optimizeExpr e r => exact (eventually_gt_atTop e.index).and r.eventually_below
  | implementGroup g => exact eventually_gt_atTop g.index
  | exploreGroup g => exact eventually_gt_atTop g.index
  | implementExpr e => exact eventually_gt_atTop e.index
  | exploreExpr e => exact eventually_gt_atTop e.index
  | applyRule e r => exact eventually_gt_atTop e.index

/-- There are finitely many keys below a bound. -/
theorem finite_below (M : Nat) : {k : JobKey | k.Below M}.Finite := by
  have hgroups : {g : GroupId | g.index < M}.Finite :=
    ((Set.finite_lt_nat M).image GroupId.mk).subset fun g hg => ⟨g.index, hg, rfl⟩
  have hexprs : {e : ExprId | e.index < M}.Finite :=
    ((Set.finite_lt_nat M).image ExprId.mk).subset fun e he => ⟨e.index, he, rfl⟩
  have hrules : (Set.univ : Set RuleId).Finite :=
    (RuleId.all.finite_toSet).subset fun r _ => by cases r <;> decide
  refine (((hgroups.image2 optimizeGroup (Required.finite_below M)).union (hgroups.image implementGroup)).union
    ((hgroups.image exploreGroup).union (hexprs.image implementExpr))).union
      (((hexprs.image exploreExpr).union (hexprs.image2 applyRule hrules)).union
        (hexprs.image2 optimizeExpr (Required.finite_below M))) |>.subset ?_
  intro k hk
  cases k with
  | optimizeGroup g r => exact .inl (.inl (.inl ⟨g, hk.1, r, hk.2, rfl⟩))
  | implementGroup g => exact .inl (.inl (.inr ⟨g, hk, rfl⟩))
  | exploreGroup g => exact .inl (.inr (.inl ⟨g, hk, rfl⟩))
  | implementExpr e => exact .inl (.inr (.inr ⟨e, hk, rfl⟩))
  | exploreExpr e => exact .inr (.inl (.inl ⟨e, hk, rfl⟩))
  | applyRule e r => exact .inr (.inl (.inr ⟨e, hk, r, trivial, rfl⟩))
  | optimizeExpr e r => exact .inr (.inr ⟨e, hk.1, r, hk.2, rfl⟩)

end JobKey

/-- What the inputs that a job has chosen provide. -/
def SearchJob.derived : SearchJob → List Derived
  | .optimizeExpr _ _ (some q) => q.derived
  | _ => []

/-- What a job is about, and what it has chosen, is below a bound. -/
structure SearchJob.Below (M : Nat) (job : SearchJob) : Prop where
  key : job.key.Below M
  derived : ∀ d ∈ job.derived, d.distribution.Below M

theorem SearchJob.eventually_below (job : SearchJob) : ∀ᶠ M in atTop, job.Below M :=
  (job.key.eventually_below.and (eventually_forall_mem fun d _ => eventually_short d.distribution.columns)).mono
    fun _ h => ⟨h.1, h.2⟩

theorem JobKey.below_start {M : Nat} {k : JobKey} (h : k.Below M) : k.start.Below M := by
  refine ⟨k.key_start.symm ▸ h, ?_⟩
  cases k <;> exact List.forall_mem_nil _

namespace Memo

/-- All numbers of a memo are below a bound. -/
structure Bounded (M : Nat) (m : Memo σ κ) : Prop where
  length_exprs : m.exprs.length ≤ M
  members : ∀ {g x}, m.Stores g x → x.members.length ≤ M
  inputs : ∀ {id e}, m.expr? id = some e → e.inputs.length ≤ M ∧ ∀ g ∈ e.inputs, g.index < M
  ops : ∀ {id e op}, m.expr? id = some e → e.op = .physical op → op.Below M
  contexts : ∀ {id c}, m.contexts.get id = .ok c → c.derived.distribution.Below M

theorem eventually_bounded (m : Memo σ κ) : ∀ᶠ M in atTop, m.Bounded M := by
  have hmembers : ∀ᶠ M in atTop, ∀ x ∈ m.groups, x.members.length ≤ M :=
    eventually_forall_mem fun x _ => eventually_ge_atTop x.members.length
  have hinputs : ∀ᶠ M in atTop, ∀ e ∈ m.exprs, e.inputs.length ≤ M ∧ ∀ g ∈ e.inputs, g.index < M :=
    eventually_forall_mem fun e _ =>
      (eventually_ge_atTop e.inputs.length).and (eventually_forall_mem fun g _ => eventually_gt_atTop g.index)
  have hops : ∀ᶠ M in atTop, ∀ e ∈ m.exprs, ∀ op ∈ e.op.physical?.toList, op.Below M :=
    eventually_forall_mem fun e _ => eventually_forall_mem fun op _ => op.eventually_below
  have hcontexts : ∀ᶠ M in atTop, ∀ slot ∈ m.contexts.slots, ∀ c ∈ slot.context.toList, c.derived.distribution.Below M :=
    eventually_forall_mem fun slot _ =>
      eventually_forall_mem fun c _ => eventually_short c.derived.distribution.columns
  filter_upwards [eventually_ge_atTop m.exprs.length, hmembers, hinputs, hops, hcontexts] with M he hm hi ho hc
  refine ⟨he, fun hx => hm _ (List.mem_of_getElem? hx), fun hx => hi _ (List.mem_of_getElem? hx), ?_, ?_⟩
  · intro id e op hx hop
    exact ho e (List.mem_of_getElem? hx) op (by simp [hop, Operator.physical?])
  · intro id c hget
    obtain ⟨slot, hslot, hcontext⟩ := Option.bind_eq_some_iff.1 ((m.contexts.get_ok_iff id c).1 hget)
    exact hc slot (List.mem_of_getElem? hslot) c (by simp [hcontext])

section

variable {M : Nat} {m n : Memo σ κ}

theorem Bounded.sameShape (h : m.Bounded M) (k : SameShape m n)
    (hcontexts : ∀ {id c}, n.contexts.get id = .ok c → c.derived.distribution.Below M) : n.Bounded M where
  length_exprs := k.length_exprs ▸ h.length_exprs
  members hy := by
    obtain ⟨x, hx, hmembers, -⟩ := k.group_back hy
    exact hmembers ▸ h.members hx
  inputs he := by
    obtain ⟨f, hf, hef⟩ := k.expr_back he
    exact ((exprShape_eq_iff _ _).1 hef).2.2.1 ▸ h.inputs hf
  ops he hop := by
    obtain ⟨f, hf, hef⟩ := k.expr_back he
    exact h.ops hf (((exprShape_eq_iff _ _).1 hef).2.1 ▸ hop)
  contexts := hcontexts

theorem Bounded.pruned (h : m.Bounded M) {c : ContextStore κ} (hc : m.contexts.PrunedTo c) :
    Bounded M { m with contexts := c } :=
  h.sameShape (sameShape_contexts m c) fun hget => h.contexts (hc.get hget)

theorem Bounded.settle (h : m.Bounded M) {k : JobKey} (hk : ∀ e r, k ≠ .applyRule e r) : (m.settle k).Bounded M := by
  refine h.sameShape (quiet_settle m hk).toSameShape fun {id c} hget => ?_
  have hcontexts : (m.settle k).contexts = m.contexts := by cases k <;> rfl
  exact h.contexts (hcontexts ▸ hget)

theorem Bounded.releaseInputs (h : m.Bounded M) (inputs : List ContextId) :
    (releaseInputs inputs m).Bounded M ∧ Quiet m (releaseInputs inputs m) := by
  induction inputs generalizing m with
  | nil => exact ⟨h, .refl m⟩
  | cons id inputs ih =>
    obtain ⟨hbounded, hquiet⟩ := ih (h.pruned (m.contexts.prunedTo_release id))
    exact ⟨hbounded, (quiet_contexts m _).trans hquiet⟩

theorem Bounded.addContext [LT κ] [DecidableLT κ] (h : m.Bounded M) {c : CostContext κ} {r : Option ContextId}
    (hc : c.derived.distribution.Below M) (hadd : m.addContext c = .ok (r, n)) : n.Bounded M := by
  refine h.sameShape (quiet_addContext hadd).toSameShape fun {id d} hd => ?_
  obtain ⟨e, -, rfl | ⟨s, hs, rfl⟩⟩ := addContext_cases hadd
  · exact h.contexts ((m.contexts.prunedTo_discard).get hd)
  · rcases ContextStore.get_add (hs.get hd) with hold | ⟨-, rfl⟩
    · exact h.contexts hold
    · exact hc

theorem Bounded.winner (h : m.Bounded M) {g : GroupId} {r : Required} {id : ContextId} {c : CostContext κ}
    (hw : m.winner? g r = some (id, c)) : c.derived.distribution.Below M := by
  obtain ⟨x, -, hw⟩ := Option.bind_eq_some_iff.1 hw
  obtain ⟨k, -, hw⟩ := Option.bind_eq_some_iff.1 hw
  obtain ⟨slot, hslot, hw⟩ := Option.bind_eq_some_iff.1 hw
  obtain ⟨d, hd, hw⟩ := Option.bind_eq_some_iff.1 hw
  cases hw
  exact h.contexts ((m.contexts.get_ok_iff id c).2 (Option.bind_eq_some_iff.2 ⟨slot, hslot, hd⟩))

/-- Groups that a number below the bound leads to have numbers below it. -/
theorem find_lt {g : GroupId} (h : g.index < M) : (m.find g).index < M := Nat.lt_of_le_of_lt (m.find_le g) h

theorem Bounded.newMembers (h : m.Bounded M) {g : GroupId} {test : MemoExpr → Bool} {spawned ids : List ExprId}
    (hids : NewMembers m g test spawned ids) :
    ids.length ≤ M ∧ ∀ id ∈ ids, id.index < M := by
  have hmembers : (m.members g).length ≤ M ∧ ∀ x ∈ m.members g, x.1.index < M := by
    unfold Memo.members
    split
    · rename_i x hx
      refine ⟨(List.length_filterMap_le ..).trans (h.members (g := m.find g) hx), fun y hy => ?_⟩
      obtain ⟨id, -, hid⟩ := List.mem_filterMap.1 hy
      obtain ⟨e, he, rfl⟩ := Option.map_eq_some_iff.1 hid
      exact Nat.lt_of_lt_of_le (List.getElem?_eq_some_iff.1 he).1 h.length_exprs
    · exact ⟨Nat.zero_le M, List.forall_mem_nil _⟩
  refine ⟨hids.members.length_le.trans (by simpa using hmembers.1), fun id hid => ?_⟩
  obtain ⟨x, hx, rfl⟩ := List.mem_map.1 (hids.members.subset hid)
  exact hmembers.2 x (List.mem_reverse.1 hx)

end

end Memo
end Cascade
