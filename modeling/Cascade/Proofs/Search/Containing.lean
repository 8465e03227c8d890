import Cascade.Proofs.Properties.Building
import Cascade.Proofs.Search.Confining
import Cascade.Proofs.Search.Naming
import Cascade.Proofs.Search.Partitions

/-!
Enforcers over the columns of their groups. A requirement within the columns of a group leads to plans of that group in
which every enforcer refers only to columns of the group above whose expression it stands (`confined_planAt`). As the
search keeps all operators in scope, this is so of the plans that are found for queries of a builder
(`optimize_confined`).
-/

namespace Cascade

open Memo

variable {σ κ : Type} {m : Memo σ κ}

/-- A plan of a group in which no enforcer refers to columns that the group does not have for which it is placed. -/
inductive ConfinedPlan (m : Memo σ κ) : GroupId → Plan κ → Prop
  /-- an expression of the group over plans of its inputs -/
  | expr {g : GroupId} {id : ExprId} {e : MemoExpr} {op : PhysicalOp} {inputs : List (Plan κ)} {cost : κ}
      {derived : Derived} (known : m.expr? id = some e) (op_eq : e.op = .physical op) (noEnforcer : op.isEnforcer = false)
      (member : m.find e.group = m.find g) (length_eq : inputs.length = e.inputs.length)
      (below : ∀ (i : Nat) child k, inputs[i]? = some child → e.inputs[i]? = some k → ConfinedPlan m k child) :
      ConfinedPlan m g (.node op inputs cost derived)
  /-- an enforcer above a plan of the same group -/
  | enforcer {g : GroupId} {op : PhysicalOp} {p : LogicalProperties} {input : Plan κ} {cost : κ} {derived : Derived}
      (isEnforcer : op.isEnforcer = true) (logical : m.logical? g = some p) (refers : ∀ c ∈ op.referred, c ∈ p.output)
      (below : ConfinedPlan m g input) : ConfinedPlan m g (.node op [input] cost derived)

/-- What an operator names are columns of its inputs. -/
theorem inScope_of_obeys (hm : m.Obeys scoping) {id : ExprId} {e : MemoExpr} (he : m.expr? id = some e)
    {op : PhysicalOp} (hop : e.op = .physical op) {ps : List LogicalProperties}
    (hps : List.Forall₂ (fun g p => m.logical? g = some p) e.inputs ps) :
    op.isEnforcer = false ∧ op.InScope (ps.map LogicalProperties.output) := by
  obtain ⟨p, qs, -, hqs, hd⟩ := hm id e he
  rw [hop, forall₂_logical?_unique hqs hps] at hd
  exact hd

theorem confined_enforcers {g : GroupId} {p : Position} (hlogical : m.logical? g = some p.logical)
    (hr : p.required.Within p.logical.output) (steps : List (EnforcerStep κ)) {below top : Derived} {plan : Plan κ}
    (hplan : ConfinedPlan m g plan) (hsteps : Enforces p below steps top) :
    ConfinedPlan m g (steps.foldl (fun p x => .node x.op [p] x.cost x.derived) plan) := by
  induction steps generalizing below plan with
  | nil => exact hplan
  | cons x steps ih =>
    obtain ⟨henforcer, -, hsteps⟩ := hsteps
    exact ih (.enforcer henforcer.isEnforcer hlogical (henforcer.referred hr) hplan) hsteps

/-- Operators in scope ask their inputs only for what concerns their columns, so requirements stay within the columns of
the groups down to the leaves. -/
theorem confined_planAt {subset : Bool} (h : m.Sound subset) (hm : m.Obeys scoping) (levels : Nat) {id : ContextId}
    {plan : Plan κ} (hplan : m.planAt levels id = .ok plan) {g : GroupId} {r : Required} (ho : m.Offered id g r)
    {p : LogicalProperties} (hp : m.logical? g = some p) (hr : r.Within p.output) : ConfinedPlan m g plan := by
  -- on the levels a plan may have
  induction levels generalizing id plan g r p with
  | zero => cases hplan
  | succ levels ih =>
    obtain ⟨c, e, op, place, derived, plans, hget, hc, hplans, rfl⟩ := exists_of_planAt h hplan
    obtain ⟨rfl, f, hf, hgroup⟩ := ho.2 c hget
    cases hc.expr.symm.trans hf
    obtain ⟨hrequired, hlogical, hinputs⟩ := (position_ok_iff m e _ place).1 hc.position
    have hlogical : m.logical? g = some place.logical := (logical?_congr hgroup).symm.trans hlogical
    cases hlogical.symm.trans hp
    obtain ⟨noEnforcer, hop⟩ := inScope_of_obeys hm hc.expr hc.op_eq hinputs
    have harity : ∀ n, op.arity = some n → place.inputs.length = n := fun n hn =>
      hinputs.length_eq.symm.trans (h.wellFormed.coherent.arity hc.expr n (hc.op_eq ▸ hn))
    have hbelow : ∀ (i : Nat) child k, plans[i]? = some child → e.inputs[i]? = some k → ConfinedPlan m k child := by
      intro i child k hchild hk
      obtain ⟨chosen, hchosen, hchild⟩ := getElem?_of_forall₂ hplans.flip hchild
      obtain ⟨k', asked, hk', hasked, hoffered⟩ := hc.chosen.offered hchosen
      cases hk.symm.trans hk'
      obtain ⟨l, hl, hkl⟩ := getElem?_of_forall₂ hinputs hk
      exact ih hchild hoffered hkl (PhysicalOp.within_requiredInput hop harity hl hasked)
    have hlength : plans.length = e.inputs.length := hplans.length_eq.symm.trans hc.inputs_length
    exact confined_enforcers hlogical (hrequired ▸ hr) c.enforcers
      (.expr hc.expr hc.op_eq noEnforcer hgroup hlength hbelow) hc.enforces

variable [Zero κ] [Add κ] [LT κ] [DecidableLT κ]

/-- In a plan for a query of a builder, enforcers refer only to columns of the groups above whose expressions they are
placed, if what is required concerns columns of the query. The memo is the one the search leaves: its groups have the
columns that their operators produce, and the group of the query has those of the query. -/
theorem optimize_confined (setup : OptimizerSetup σ κ)
    (hsource : ∀ cs, (setup.source cs).logical = LogicalOp.properties setup.catalog cs) {b : Builder}
    (hb : b.Made setup.catalog) {q : Query} (hq : b.current = some q) {required : Required}
    (hr : required.Within (.ofList q.columns)) {columns after : Columns} {o : Optimized κ}
    (h : optimize setup q.expr required columns = (.ok o, after)) :
    ∃ root s p, Staged setup q.expr columns root required s ∧ s.memo.Obeys scoping ∧
      s.memo.logical? root = some p ∧ p.output = .ofList q.columns ∧ ConfinedPlan s.memo root o.plan := by
  obtain ⟨root, s, id, hs, hoffered, hplan⟩ := Staged.of_optimize h
  have hscope := hb.inScope (Memo.empty setup.config.verifyProperties (some setup.config.memoLimit) : Memo σ κ) q hq
  have hinsert := fun m => (hscope.expr.placeable (hsource columns)).insert (n := m) (obeys_empty _ _ _)
    (wellFormed_empty _ _) (g := root)
  have hheeds : ∀ stage, Heeds (Search.environment setup stage) scoping fun _ _ _ => True := fun stage =>
    heeds_scoping hsource
  obtain ⟨hsound, hobeys⟩ := hs.obeys hheeds fun m h => (hinsert m h).1
  obtain ⟨p, hp, houtput⟩ := hs.logical? fun m h => (hinsert m h).2
  have houtput : p.output = .ofList q.columns := houtput.trans hscope.output
  exact ⟨root, s, p, hs, hobeys, hp, houtput, confined_planAt hsound hobeys _ hplan hoffered hp (houtput ▸ hr)⟩

/-- A row of constants joined with the partitioned table, built step by step. -/
def wantedSales : BuildM Builder := do
  let rows ← Builder.values .empty [[.int32 2024]]
  let sales ← Builder.get partitionedCatalog .empty "sale" "sale"
  rows.join sales .inner (.binary (.column 1) .eq (.column 2))

theorem made_wantedSales {s t : Session} {b : Builder} (h : wantedSales.run s = (.ok b, t)) :
    b.Made partitionedCatalog := by
  have hsteps : Yields wantedSales s (fun b _ => b.Made partitionedCatalog) (fun _ _ => True) :=
    ((Builder.Steps.values .empty _).yields_made _).bind fun _ _ hrows =>
      ((Builder.Steps.get .empty _ _).yields_made _).bind fun _ _ hsales =>
        (Builder.Steps.join hrows hsales _ _).yields_made _
  exact hsteps.of_ok h

/-- The rows are to be distributed and ordered by the column of the partitions. -/
def rowsByYear : Required :=
  { Required.none with ordering := .ascending [2], distribution := ⟨.hashed [2], .satisfy⟩ }

/-- A sort and a motion refer to a column of the join, a partition selector to one of the left input. -/
theorem optimize_confined_wantedSales :
    ∃ b t q o after root s p, wantedSales.run .empty = (.ok b, t) ∧ b.current = some q ∧
      optimize partitionedSetup q.expr rowsByYear t.columns = (.ok o, after) ∧
      o.plan.ops.map (fun op => (op.name, op.referred)) =
        [("Sort", [2]), ("Motion", [2]), ("HashJoin", []), ("PartitionSelector", [1]), ("ConstTableGet", []),
          ("Motion", []), ("DynamicTableScan", [])] ∧
      Staged partitionedSetup q.expr t.columns root rowsByYear s ∧ s.memo.logical? root = some p ∧
      p.output = .ofList [1, 2] ∧ ConfinedPlan s.memo root o.plan := by
  have hrun : ((wantedSales.run .empty).1.toOption.bind Builder.current).bind (fun q =>
      (optimize partitionedSetup q.expr rowsByYear (wantedSales.run .empty).2.columns).1.toOption.map fun o =>
        (q.columns, o.plan.ops.map fun op => (op.name, op.referred))) =
      some ([1, 2], [("Sort", [2]), ("Motion", [2]), ("HashJoin", []), ("PartitionSelector", [1]),
        ("ConstTableGet", []), ("Motion", []), ("DynamicTableScan", [])]) := by decide +kernel
  obtain ⟨q, hq, hrun⟩ := Option.bind_eq_some_iff.1 hrun
  obtain ⟨o, ho, hops⟩ := Option.map_eq_some_iff.1 hrun
  obtain ⟨hcolumns, hops⟩ := Prod.mk.inj hops
  cases hbuild : wantedSales.run .empty with
  | mk built t =>
    rw [hbuild] at hq ho
    cases built with
    | error e => cases hq
    | ok b =>
      cases h : optimize partitionedSetup q.expr rowsByYear t.columns with
      | mk r after =>
        rw [h] at ho
        cases r with
        | error e => cases ho
        | ok o' =>
          cases ho
          have hwithin : rowsByYear.Within (.ofList q.columns) := hcolumns ▸ ⟨by decide, by decide, by decide⟩
          obtain ⟨root, s, p, hs, -, hp, houtput, hplan⟩ :=
            optimize_confined partitionedSetup (fun _ => rfl) (made_wantedSales hbuild) hq hwithin h
          exact ⟨b, t, q, o, after, root, s, p, rfl, hq, h, hops, hs, hp, houtput.trans (hcolumns ▸ rfl), hplan⟩

end Cascade
