import Cascade.Proofs.Rules.Alternatives
import Cascade.Proofs.Rules.Implementing
import Cascade.Proofs.Search.Obeying
import Cascade.Proofs.Search.Partitions

/-!
Negative hints. What is forbidden for a table is forbidden for every operator that reads it, also for a join that looks
its rows up; what is forbidden for a set of tables is forbidden in every group that reads just these (`Hints.Permits`).
A rule checks this when it promises something or when it is applied. The promise outlives merges, as they never change
the tables of a group, so at no time there is a forbidden operator in the memo or in a plan (`permits_search`).
-/

namespace Cascade

open Memo Search Scheduler

variable {σ κ : Type}

namespace Hints

/-- No negative hint forbids an operator in a group that reads the given tables. -/
def Permits (h : Hints) (relations : SortedSet String) : PhysicalOp → Prop
  | .tableScan t => (t.relation, .avoid .seq) ∉ h.scans
  | .indexScan t => (t.relation, .avoid .index) ∉ h.scans
  | .indexNestedLoopJoin j => (j.relation, .avoid .index) ∉ h.scans ∧ (relations, .avoid .nestLoop) ∉ h.joins
  | .hashJoin _ => (relations, .avoid .hash) ∉ h.joins
  | .nestedLoopJoin _ _ => (relations, .avoid .nestLoop) ∉ h.joins
  | _ => True

/-- Physical operators are permitted in their groups. -/
def demand (h : Hints) : Demand := fun op p _ => ∀ o, op = .physical o → h.Permits p.relations o

/-- All operators of a plan of a group are permitted in the groups to which their expressions belong. -/
inductive Permitted (h : Hints) (m : Memo σ κ) : GroupId → Plan κ → Prop
  | expr {g : GroupId} {id : ExprId} {e : MemoExpr} {op : PhysicalOp} {p : LogicalProperties} {inputs : List (Plan κ)}
      {cost : κ} {derived : Derived} (known : m.expr? id = some e) (op_eq : e.op = .physical op)
      (member : m.find e.group = m.find g) (logical : m.logical? g = some p) (permits : h.Permits p.relations op)
      (length_eq : inputs.length = e.inputs.length)
      (below : ∀ (i : Nat) child k, inputs[i]? = some child → e.inputs[i]? = some k → Permitted h m k child) :
      Permitted h m g (.node op inputs cost derived)
  | enforcer {g : GroupId} {op : PhysicalOp} {input : Plan κ} {cost : κ} {derived : Derived}
      (isEnforcer : op.isEnforcer = true) (below : Permitted h m g input) :
      Permitted h m g (.node op [input] cost derived)

theorem allowsScan_iff {h : Hints} {relation : String} {s : ScanMethod} :
    h.allowsScan relation s = true ↔ (relation, .avoid s) ∉ h.scans := by
  simp only [allowsScan, Bool.not_eq_true', List.any_eq_false, decide_eq_true_eq]
  exact ⟨fun h hmem => h _ hmem rfl, fun h x hx hxe => h (hxe ▸ hx)⟩

theorem allowsJoin_iff {h : Hints} {relations : SortedSet String} {j : JoinMethod} :
    h.allowsJoin relations j = true ↔ (relations, .avoid j) ∉ h.joins := by
  simp only [allowsJoin, Bool.not_eq_true', List.any_eq_false, decide_eq_true_eq]
  exact ⟨fun h hmem => h _ hmem rfl, fun h x hx hxe => h (hxe ▸ hx)⟩

/-- Hints can forbid only operators that read tables or join. -/
theorem permits_of_method? {h : Hints} {relations : SortedSet String} {op : PhysicalOp} (hop : op.method? = .none) :
    h.Permits relations op := by
  cases op with
  | tableScan _ | indexScan _ | indexNestedLoopJoin _ | hashJoin _ | nestedLoopJoin _ _ => cases hop
  | _ => trivial

/-- What a rule has found out before it is applied to an operator of a group that reads the given tables. -/
def Promised (h : Hints) (relations : SortedSet String) (op : LogicalOp) : RuleId → Prop
  | .getToTableScan => ∀ g, op = .get g → (g.relation, .avoid .seq) ∉ h.scans
  | .joinToHashJoin => (relations, .avoid .hash) ∉ h.joins
  | .joinToNestedLoopJoin | .joinToIndexNestedLoopJoin => (relations, .avoid .nestLoop) ∉ h.joins
  | _ => True

/-- A rule has found that out for an expression. -/
def Worth (h : Hints) (m : Memo σ κ) (id : ExprId) (rule : RuleId) : Prop :=
  ∃ e op p, m.expr? id = some e ∧ e.op = .logical op ∧ m.logical? e.group = some p ∧ h.Promised p.relations op rule

theorem Worth.mono {h : Hints} {m n : Memo σ κ} (k : Extends m n) {id : ExprId} {rule : RuleId} (hw : h.Worth m id rule) :
    h.Worth n id rule := by
  obtain ⟨e, op, p, he, hop, hp, hpromised⟩ := hw
  obtain ⟨f, hf, hsame, hgroup, -⟩ := k.exprs he
  exact ⟨f, op, p, hf, hsame.trans hop, (logical?_congr hgroup).trans (logical?_mono k hp), hpromised⟩

end Hints

/-! Rules. -/

namespace Rule

variable {ctx : RuleContext σ κ} {relations : SortedSet String} {op : LogicalOp}

/-- The physical ones among the alternatives of a rule for an operator are permitted. -/
def Respects (rule : Rule σ κ) (ctx : RuleContext σ κ) (relations : SortedSet String) (op : LogicalOp) : Prop :=
  ∀ inputs columns, Yields (rule.transform ctx (.node (.logical op) inputs)) columns
    (fun l _ => ∀ x ∈ l, ∀ p inputs, x = .node (.physical p) inputs → ctx.hints.Permits relations p) (fun _ _ => True)

theorem promised_of_promise {rule : RuleId} (hlogical : ctx.logical.relations = relations)
    (h : (rule.rule : Rule σ κ).promise ctx op ≠ .none) : ctx.hints.Promised relations op rule := by
  subst hlogical
  cases rule with
  | getToTableScan =>
    rintro g rfl
    refine Hints.allowsScan_iff.1 ?_
    by_contra hnot
    exact h (if_neg hnot)
  | joinToHashJoin =>
    refine Hints.allowsJoin_iff.1 ?_
    by_contra hnot
    exact h (if_neg hnot)
  | joinToNestedLoopJoin | joinToIndexNestedLoopJoin =>
    refine Hints.allowsJoin_iff.1 ?_
    by_contra hnot
    cases op with
    | join type on => exact h (if_neg fun hboth => hnot hboth.2)
    | _ => exact h rfl
  | _ => trivial

/-- Every alternative is a permitted physical operator. -/
theorem respects_of_physical {rule : Rule σ κ} (h : ∀ inputs columns,
    Yields (rule.transform ctx (.node (.logical op) inputs)) columns
      (fun l _ => ∀ x ∈ l, ∃ p inputs, x = .ofPhysical p inputs ∧ ctx.hints.Permits relations p) (fun _ _ => True)) :
    rule.Respects ctx relations op := by
  intro inputs columns
  refine (h inputs columns).mono (fun l _ hl x hx p inputs hp => ?_) fun _ _ _ => trivial
  obtain ⟨p', inputs', rfl, hpermits⟩ := hl x hx
  cases hp
  exact hpermits

/-- No alternative is physical. -/
theorem respects_of_run {rule : Rule σ κ} (h : ∀ {e : Expr} {columns after : Columns} {alternatives : List Expr},
    (rule.transform ctx e).run columns = (.ok alternatives, after) →
    ∀ x ∈ alternatives, x.operator?.bind Operator.physical? = .none) : rule.Respects ctx relations op := by
  refine fun inputs columns => .of_run fun alternatives after hrun => ?_
  rintro x hx p inputs rfl
  cases h hrun _ hx

theorem respects_oneToOne (kind : LogicalKind) (places : Nat) {f : LogicalOp → Option PhysicalOp}
    (hf : ∀ {p}, f op = some p → p.method? = .none) :
    (oneToOne kind places f : Rule σ κ).Respects ctx relations op := by
  refine respects_of_physical fun inputs columns => .of_pure fun x hx => ?_
  obtain ⟨p, hp, rfl⟩ := List.mem_map.1 hx
  exact ⟨p, inputs, rfl, Hints.permits_of_method? (hf (Option.mem_toList.1 hp))⟩

theorem respects_unionAllToAppend : (unionAllToAppend : Rule σ κ).Respects ctx relations op := by
  refine respects_of_physical fun inputs columns => .of_pure fun x hx => ?_
  obtain ⟨p, hp, rfl⟩ := List.mem_map.1 hx
  refine ⟨p, inputs, rfl, Hints.permits_of_method? ?_⟩
  cases op <;> cases Option.mem_toList.1 hp
  rfl

theorem respects_getToTableScan (h : ctx.hints.Promised relations op .getToTableScan) :
    (getToTableScan : Rule σ κ).Respects ctx relations op := by
  refine respects_of_physical fun inputs columns => ?_
  unfold getToTableScan
  dsimp only
  split
  · rename_i g _ heq
    cases heq
    refine .bind_lift (fun t _ => .bind_get (.bind_lift (fun d _ => .of_pure fun x hx => ?_) fun _ _ => trivial))
      fun _ _ => trivial
    exact ⟨_, [], List.mem_singleton.1 hx, h g rfl⟩
  · exact yields_nothing

theorem respects_selectToIndex (dynamic : Bool) (promise : RuleContext σ κ → LogicalOp → Promise) :
    (selectToIndex dynamic promise).Respects ctx relations op := by
  refine respects_of_physical fun inputs columns => ?_
  unfold selectToIndex
  dsimp only
  split
  · rename_i filter g _ heq
    unfold indexScans
    split
    · exact yields_nothing
    · rename_i hallowed
      have hallowed : ctx.hints.allowsScan g.relation .index = true := by simpa using (not_or.1 hallowed).2
      refine .bind_lift (fun t _ => .bind_get (.bind_lift (fun d _ => .bind_lift (fun indexes _ => ?_) ?_) ?_)) ?_
      · refine .of_pure fun x hx => ?_
        obtain ⟨index, -, rfl⟩ := List.mem_map.1 hx
        exact ⟨_, [], rfl, Hints.allowsScan_iff.1 hallowed⟩
      all_goals exact fun _ _ => trivial
  · exact yields_nothing

theorem respects_joinToHashJoin (h : ctx.hints.Promised relations op .joinToHashJoin) :
    (joinToHashJoin : Rule σ κ).Respects ctx relations op := by
  refine respects_of_physical fun inputs columns => ?_
  unfold joinToHashJoin
  dsimp only
  split
  · rename_i left right _
    refine (Yields.any _ _).bind fun l cs _ => (Yields.any _ _).bind fun r cs _ => ?_
    split
    · exact yields_nothing
    · exact .of_pure fun x hx => ⟨_, [left, right], List.mem_singleton.1 hx, h⟩
  · exact yields_nothing

theorem respects_joinToNestedLoopJoin (h : ctx.hints.Promised relations op .joinToNestedLoopJoin) :
    (joinToNestedLoopJoin : Rule σ κ).Respects ctx relations op := by
  refine respects_of_physical fun inputs columns => ?_
  unfold joinToNestedLoopJoin
  dsimp only
  split
  · rename_i inputs _
    split
    · exact yields_nothing
    · exact .of_pure fun x hx => ⟨_, inputs, List.mem_singleton.1 hx, h⟩
  · exact yields_nothing

/-- The table that is looked up has no scan of its own, so the join itself is checked for it. -/
theorem respects_joinToIndexNestedLoopJoin (h : ctx.hints.Promised relations op .joinToIndexNestedLoopJoin) :
    (joinToIndexNestedLoopJoin : Rule σ κ).Respects ctx relations op := by
  refine respects_of_physical fun inputs columns => ?_
  unfold joinToIndexNestedLoopJoin
  dsimp only
  split
  · rename_i on outer g _ _
    split
    · exact yields_nothing
    · rename_i hallowed
      have hallowed : ctx.hints.allowsScan g.relation .index = true := by
        simp only [Bool.or_eq_true, Bool.not_eq_true', not_or] at hallowed
        simpa using hallowed.2
      refine (Yields.any _ _).bind fun o cs _ => (Yields.any _ _).bind fun i cs _ => ?_
      split
      · exact yields_nothing
      · refine .bind_lift (fun t _ => .bind_get (.bind_lift (fun d _ => .bind_lift (fun indexes _ => ?_) ?_) ?_)) ?_
        · refine .of_pure fun x hx => ?_
          obtain ⟨index, -, rfl⟩ := List.mem_map.1 hx
          exact ⟨_, [outer], rfl, Hints.allowsScan_iff.1 hallowed, h⟩
        all_goals exact fun _ _ => trivial
  · exact yields_nothing

theorem respects_implementDml : (implementDml : Rule σ κ).Respects ctx relations op := by
  refine respects_of_physical fun inputs columns => ?_
  unfold implementDml
  dsimp only
  split
  · rename_i inputs _
    refine .bind_lift (fun t _ => .of_pure fun x hx => ?_) fun _ _ => trivial
    exact ⟨_, inputs, List.mem_singleton.1 hx, trivial⟩
  · exact yields_nothing

/-- Exploration gives logical operators. -/
theorem respects_of_isExploration {rule : RuleId} (hrule : rule.isExploration = true) :
    (rule.rule : Rule σ κ).Respects ctx relations op := by
  cases rule with
  | joinCommutativity =>
    refine respects_of_run fun hrun x hx => ?_
    obtain ⟨on, l, r, -, rfl⟩ := of_joinCommutativity hrun x hx
    rfl
  | joinAssociativity =>
    refine respects_of_run fun hrun x hx => ?_
    obtain ⟨top, bottom, a, b, c, pb, pc, -, -, -, rfl⟩ := of_joinAssociativity hrun x hx
    rfl
  | expandNAryJoin =>
    refine respects_of_run fun hrun x hx => ?_
    rcases of_expandNAryJoin hrun x hx with ⟨on, only, -, rfl⟩ | ⟨on, first, next, rest, p, -, -, hdeep⟩
    · rfl
    · obtain ⟨on, l, r, rfl⟩ := hdeep.exists_join
      rfl
  | pushSelectIntoJoin =>
    refine respects_of_run fun hrun x hx => ?_
    obtain ⟨filter, type, on, l, r, pl, pr, -, -, -, rfl⟩ := of_pushSelectIntoJoin hrun x hx
    unfold Expr.selectAll
    split <;> rfl
  | semiJoinToInnerJoin =>
    refine respects_of_run fun hrun x hx => ?_
    obtain ⟨on, l, r, pl, -, -, rfl⟩ := of_semiJoinToInnerJoin hrun x hx
    rfl
  | applyToJoin =>
    refine respects_of_run fun hrun x hx => ?_
    obtain ⟨type, on, l, r, pl, pr, -, -, -, -, rfl⟩ := of_applyToJoin hrun x hx
    rfl
  | splitAggregate =>
    refine respects_of_run fun hrun x hx => ?_
    obtain ⟨a, input, partials, combined, -, -, rfl⟩ := of_splitAggregate hrun x hx
    rfl
  | leftJoinToRightJoin =>
    refine respects_of_run fun hrun x hx => ?_
    obtain ⟨on, l, r, -, rfl⟩ := of_leftJoinToRightJoin hrun x hx
    rfl
  | _ => cases hrule

/-- Every rule respects the hints, if it has found out what it promises on. -/
theorem respects_of_promised {rule : RuleId} (h : ctx.hints.Promised relations op rule) :
    (rule.rule : Rule σ κ).Respects ctx relations op := by
  cases rule with
  | getToTableScan => exact respects_getToTableScan h
  | selectToIndexScan => exact respects_selectToIndex false _
  | selectToDynamicIndexScan => exact respects_selectToIndex true _
  | joinToHashJoin => exact respects_joinToHashJoin h
  | joinToNestedLoopJoin => exact respects_joinToNestedLoopJoin h
  | joinToIndexNestedLoopJoin => exact respects_joinToIndexNestedLoopJoin h
  | implementDml => exact respects_implementDml
  | unionAllToAppend => exact respects_unionAllToAppend
  | selectToFilter | projectToComputeScalar | aggregateToHashAggregate | aggregateToStreamAggregate | implementLimit
  | valuesToConstTableGet | cteAnchorToSequence | cteConsumerToCteScan =>
    refine respects_oneToOne _ _ fun {p} hp => ?_
    cases op <;> cases hp
    rfl
  | _ => exact respects_of_isExploration rfl

end Rule

/-! The search. -/

section

variable {env : SearchEnv σ κ} {m : Memo σ κ}

/-- Hints say nothing about logical operators, so any tree can be placed. -/
theorem Hints.placeable (h : Hints) (source : PropertySource σ) (e : Expr) :
    Placeable m source h.demand (fun _ _ => True) e := by
  induction e using Expr.induction with
  | group g => exact .group fun _ _ _ _ => trivial
  | node op inputs ih =>
    cases op with
    | physical op => exact .physical
    | logical op => exact .logical ih (fun _ _ _ _ _ _ h => by cases h) fun _ _ _ _ => trivial

theorem Hints.heeds (env : SearchEnv σ κ) : Heeds env env.hints.demand env.hints.Worth where
  lasts h hw := hw.mono h
  worth := by
    intro m id e op rule w he hop hpromise
    obtain ⟨p, hp⟩ := exists_logical? (w.coherent.group_known he)
    have hlogical : m.logical? (m.find e.group) = some p := (logical?_congr (m.find_find _)).trans hp
    have hrelations : (ruleContext env (m.find e.group) m).logical.relations = p.relations := by
      change (((m.group? (m.find e.group)).map Group.logical).getD default).relations = p.relations
      rw [show (m.group? (m.find e.group)).map Group.logical = some p from hlogical, Option.getD_some]
    exact ⟨e, op, p, he, hop, hp, Rule.promised_of_promise hrelations hpromise⟩
  fits := by
    intro m id e rule columns w _ he ⟨e', op, p, he', hop, hp, hpromised⟩
    cases he'.symm.trans he
    refine Rule.yields_alternatives _ w.coherent fun t ht columns => ?_
    cases ht with | @intro f op' inputs hf hop' hroot _ => ?_
    cases hf.symm.trans he
    cases hop.symm.trans hop'
    have hrespects : (rule.rule : Rule σ κ).Respects (ruleContext env (m.find e.group) m) p.relations op :=
      Rule.respects_of_promised hpromised
    refine (hrespects inputs columns).mono (fun l _ hl x hx => ⟨fun _ _ => True, fun cs => ?_⟩) fun _ _ _ => trivial
    cases x with
    | group g => exact .group
    | node o inputs =>
      cases o with
      | logical o => exact .logical (fun i _ => env.hints.placeable (env.source cs) i) fun _ _ _ _ _ _ _ h => by cases h
      | physical o =>
        refine .physical fun n named q ps hextends _ hq _ o' ho' => ?_
        cases ho'
        have hsame : n.logical? (m.find e.group) = some p :=
          logical?_mono hextends ((logical?_congr (m.find_find _)).trans hp)
        cases hsame.symm.trans hq
        exact hl _ hx o inputs rfl

/-- A valid plan is permitted if the expressions of the memo are. -/
theorem ValidPlan.permitted {subset : Bool} {h : Hints} (hm : m.Obeys h.demand) {g : GroupId} {required : Required}
    {plan : Plan κ} (hplan : ValidPlan m subset g required plan) : h.Permitted m g plan := by
  induction hplan with
  | expr known op_eq member position _ length_eq _ _ _ _ ih =>
    obtain ⟨p, ps, hp, -, hd⟩ := hm _ _ known
    exact .expr known op_eq member ((logical?_congr member).symm.trans hp) (hd _ op_eq) length_eq ih
  | enforcer isEnforcer _ _ _ _ ih => exact .enforcer isEnforcer ih

variable [Zero κ] [Add κ] [LT κ] [DecidableLT κ]

/-- No operator that a negative hint forbids is in the memo of a search, in whatever order rules are applied, between
any two runs of jobs, in all stages, and none is in a plan that is found. -/
theorem permits_search (setup : OptimizerSetup σ κ) (e : Expr) (required : Required) (columns : Columns) :
    (∀ root s, Staged setup e columns root required s → s.memo.Obeys setup.hints.demand ∧
      ∀ clock fuel stage turns, StageTurns { setup with clock, fuel } stage root required (nextStage s) turns →
        ∀ t ∈ turns, t.seen.memo.Obeys setup.hints.demand) ∧
    ∀ o after, optimize setup e required columns = (.ok o, after) →
      ∃ root s, Staged setup e columns root required s ∧ setup.hints.Permitted s.memo root o.plan := by
  have hinsert : ∀ root m, (Memo.empty setup.config.verifyProperties (some setup.config.memoLimit) : Memo σ κ).insert
      (setup.source columns) e = (.ok root, m) → m.Obeys setup.hints.demand := fun root m h =>
    ((setup.hints.placeable _ e).insert (obeys_empty _ _ _) (wellFormed_empty _ _) h).1
  have hheeds : ∀ stage, Heeds (environment setup stage) setup.hints.demand setup.hints.Worth := fun stage =>
    Hints.heeds (environment setup stage)
  refine ⟨fun root s hs => ⟨(hs.obeys hheeds (hinsert root)).2, fun clock fuel stage turns hturns t ht => ?_⟩,
    fun o after h => ?_⟩
  · exact (hs.obeys_turns hheeds (hinsert root) hturns t ht).2
  · obtain ⟨root, s, id, hs, hoffered, hplan⟩ := Staged.of_optimize h
    obtain ⟨hsound, hobeys⟩ := hs.obeys hheeds (hinsert root)
    obtain ⟨c, -, -, hvalid⟩ := planOf_planAt hsound _ hplan
    exact ⟨root, s, hs, (hvalid root required hoffered).1.permitted hobeys⟩

end

section

/-- The partitioned table is not to be joined by a hash join. -/
def hintedSetup : OptimizerSetup Unit Nat :=
  { partitionedSetup with
    hints := Hints.none.addJoin (.singleton "sale") (.avoid .hash)
    order := [.getToTableScan, .joinToHashJoin, .joinToNestedLoopJoin, .valuesToConstTableGet] }

/-- The table is joined by a nested loop, whose right rows are spooled. -/
theorem permits_search_sale :
    ∃ o after root s, optimize hintedSetup partitionedJoin .none partitionedColumns = (.ok o, after) ∧
      o.plan.ops.map PhysicalOp.name =
        ["NestedLoopJoin", "ConstTableGet", "Spool", "Motion", "PartitionSelector", "DynamicTableScan"] ∧
      Staged hintedSetup partitionedJoin partitionedColumns root .none s ∧
      hintedSetup.hints.Permitted s.memo root o.plan ∧ s.memo.Obeys hintedSetup.hints.demand ∧
      ∃ turns, StageTurns hintedSetup {} root .none (nextStage s) turns ∧
        ∀ t ∈ turns, t.seen.memo.Obeys hintedSetup.hints.demand := by
  have hops : (optimize hintedSetup partitionedJoin .none partitionedColumns).1.toOption.map
      (fun o => o.plan.ops.map PhysicalOp.name) =
        some ["NestedLoopJoin", "ConstTableGet", "Spool", "Motion", "PartitionSelector", "DynamicTableScan"] := by
    decide +kernel
  cases h : optimize hintedSetup partitionedJoin .none partitionedColumns with
  | mk r after =>
    rw [h] at hops
    cases r with
    | error err => cases hops
    | ok o =>
      obtain ⟨hpoints, hplans⟩ := permits_search hintedSetup partitionedJoin .none partitionedColumns
      obtain ⟨root, s, hs, hplan⟩ := hplans o after h
      obtain ⟨hobeys, hstages⟩ := hpoints root s hs
      obtain ⟨turns, hturns⟩ := exists_stageTurns hintedSetup {} root .none (nextStage s)
      exact ⟨o, after, root, s, rfl, Option.some.inj hops, hs, hplan, hobeys, turns, hturns,
        hstages hintedSetup.clock hintedSetup.fuel {} turns hturns⟩

end

end Cascade
