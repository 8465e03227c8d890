import Cascade.Proofs.Search.Pins
import Mathlib.Algebra.Order.Group.Nat

/-!
Requests that are given up. If the chosen inputs of a request alone cost as much as the best plan of the group, or hints
prefer that plan, the contexts the request can still come to are not better than it (`not_isBetterThan_of_canBePruned`).
The best plans of groups are replaced just by ones that are not worse, so this stays so (`pruned_never_wins`).
-/

namespace Cascade

theorem Cost.sum_le_sum_append {κ : Type} [AddZeroClass κ] [Preorder κ] [AddLeftMono κ] (hzero : ∀ x : κ, 0 ≤ x)
    (l more : List κ) : Cost.sum l ≤ Cost.sum (l ++ more) := by
  unfold Cost.sum
  rw [List.foldl_append]
  generalize l.foldl (· + ·) 0 = x
  induction more generalizing x with
  | nil => exact le_refl x
  | cons a more ih => exact le_trans (le_add_of_nonneg_right (hzero a)) (ih (x + a))

namespace Search

open Memo

variable {σ κ : Type} {m n : Memo σ κ} {env : SearchEnv σ κ} {id : ExprId} {e : MemoExpr} {op : PhysicalOp}
  {required : Required} {inputs more : List ContextId} {c : CostContext κ}

/-- A context that a request for an expression over chosen inputs can come to: it has the cost of the operator over those
of the inputs, and above it the costs of enforcers, whichever they are. -/
structure Requested (env : SearchEnv σ κ) (m : Memo σ κ) (id : ExprId) (op : PhysicalOp) (required : Required)
    (inputs : List ContextId) (c : CostContext κ) : Prop where
  expr_eq : c.expr = id
  required_eq : c.required = required
  inputs_eq : c.inputs = inputs
  estimated : ∃ (e : MemoExpr) (x : Group σ) (s : CostSituation σ κ) (p : Position) (ops : List PhysicalOp),
    m.expr? id = some e ∧ m.group? e.group = some x ∧ contextCosts m inputs = .ok s.inputCosts ∧
      c.exprCost = env.costModel op s ∧
      c.enforcers = placeEnforcers env p x.statistics c.exprDerived c.exprCost ops ∧
      c.rank = env.hints.rank op x.logical.relations
  cost_eq : c.cost = (c.enforcers.getLast?.map EnforcerStep.cost).getD c.exprCost

theorem requested_of_buildContext {progress : RequestProgress} (he : m.expr? id = some e)
    (h : buildContext env m id e op required progress = .ok (some c)) :
    Requested env m id op required progress.inputs c := by
  obtain ⟨x, hx, h⟩ := exists_of_bind_ok h
  obtain ⟨p, hp, h⟩ := exists_of_bind_ok h
  obtain ⟨statistics, -, h⟩ := exists_of_bind_ok h
  obtain ⟨costs, hcosts, h⟩ := exists_of_bind_ok h
  dsimp only at h
  split at h
  · cases h
  · rename_i enforced _
    cases h
    exact ⟨rfl, rfl, rfl, ⟨e, x, ⟨x.statistics, statistics, costs, progress.derived, required⟩, p, enforced.ops, he,
      group_ok hx, hcosts, rfl, rfl, rfl⟩, rfl⟩

/-- What present contexts cost does not change. -/
theorem contextCosts_append (k : Extends m n) {costs all : List κ} (h : contextCosts m inputs = .ok costs)
    (hall : contextCosts n (inputs ++ more) = .ok all) : ∃ rest, all = costs ++ rest := by
  induction inputs generalizing costs all with
  | nil =>
    cases h
    exact ⟨all, rfl⟩
  | cons id inputs ih =>
    unfold contextCosts at h hall
    rw [List.mapM_cons] at h
    rw [List.cons_append, List.mapM_cons] at hall
    obtain ⟨a, ha, h⟩ := exists_of_bind_ok h
    obtain ⟨costs, hcosts, h⟩ := exists_of_bind_ok h
    obtain ⟨b, hb, hall⟩ := exists_of_bind_ok hall
    obtain ⟨all, hrest, hall⟩ := exists_of_bind_ok hall
    cases h
    cases hall
    obtain ⟨rest, rfl⟩ := ih hcosts hrest
    obtain ⟨c, hc, rfl⟩ := exists_of_map_ok ha
    obtain ⟨d, hd, rfl⟩ := exists_of_map_ok hb
    cases (k.contexts hd (ContextStore.lt_of_get_ok hc)).symm.trans hc
    exact ⟨rest, rfl⟩

section

variable [LinearOrder κ] [AddZeroClass κ]

/-- Why a request can be given up. -/
theorem of_canBePruned (h : canBePruned env m e op required inputs = .ok true) : ∃ winner w x,
    m.winner? e.group required = some (winner, w) ∧ m.group? e.group = some x ∧
      (env.hints.rank op x.logical.relations < w.rank ∨ env.hints.rank op x.logical.relations = w.rank ∧
        ∃ costs, contextCosts m inputs = .ok costs ∧ w.cost ≤ Cost.sum costs) := by
  unfold canBePruned at h
  split at h
  · cases h
  · split at h
    · cases h
    · rename_i winner w hw
      obtain ⟨x, hx, h⟩ := exists_of_bind_ok h
      refine ⟨winner, w, x, hw, group_ok hx, ?_⟩
      dsimp only at h
      split at h
      · exact .inl (of_decide_eq_true (Except.ok.inj h))
      · rename_i hrank
        obtain ⟨costs, hcosts, h⟩ := exists_of_bind_ok h
        have hle : (!decide (Cost.sum costs < w.cost)) = true := Except.ok.inj h
        exact .inr ⟨(not_not.1 hrank).symm, costs, hcosts, by simpa using hle⟩

section

variable (hcost : ∀ op s, s.inputCost ≤ env.costModel op s)
include hcost

/-- Enforcers do not make a plan cheaper. -/
theorem le_placeEnforcers (p : Position) (statistics : σ) (below : Derived) (cost : κ) (ops : List PhysicalOp) :
    cost ≤ ((placeEnforcers env p statistics below cost ops).getLast?.map EnforcerStep.cost).getD cost := by
  induction ops generalizing below cost with
  | nil => exact le_refl cost
  | cons op ops ih =>
    let s : CostSituation σ κ :=
      { statistics, inputs := [statistics], inputCosts := [cost], derived := [below], required := p.required }
    calc
      cost ≤ env.costModel op s := by
        have hinput : s.inputCost = cost := zero_add cost
        exact hinput ▸ hcost op s
      _ ≤ _ := ih (op.derived p [below]) (env.costModel op s)
      _ = _ := by
        rw [placeEnforcers, List.getLast?_cons]
        cases (placeEnforcers env p statistics _ _ ops).getLast? <;> rfl

theorem Requested.le_cost (h : Requested env m id op required inputs c) {costs : List κ}
    (hcosts : contextCosts m inputs = .ok costs) : Cost.sum costs ≤ c.cost := by
  obtain ⟨e, x, s, p, ops, -, -, hs, hexpr, henforcers, -⟩ := h.estimated
  cases hs.symm.trans hcosts
  calc
    Cost.sum s.inputCosts ≤ c.exprCost := hexpr ▸ hcost op s
    _ ≤ c.cost := by
      rw [h.cost_eq, henforcers]
      exact le_placeEnforcers hcost p x.statistics c.exprDerived c.exprCost ops

variable [AddLeftMono κ] (hzero : ∀ x : κ, 0 ≤ x)
include hzero

/-- Where a request can be given up, no context that it can come to beats the winner of the group. -/
theorem not_isBetterThan_of_canBePruned (he : m.expr? id = some e)
    (h : canBePruned env m e op required inputs = .ok true) :
    ∃ winner w, m.winner? e.group required = some (winner, w) ∧ ∀ {n}, Extends m n → ∀ {more c},
      Requested env n id op required (inputs ++ more) c → c.isBetterThan w = false := by
  obtain ⟨winner, w, x, hw, hx, hreason⟩ := of_canBePruned h
  refine ⟨winner, w, hw, fun {n} k {more c} hc => (CostContext.not_isBetterThan_iff c w).2 ?_⟩
  obtain ⟨f, y, s, p, ops, hf, hy, hs, -, -, hrank⟩ := hc.estimated
  obtain ⟨f', hf', -, hgroup, -⟩ := k.exprs he
  cases hf.symm.trans hf'
  obtain ⟨y', hy', hlogical⟩ := k.groups hx
  cases hy.symm.trans ((group?_congr hgroup).trans hy')
  rw [hrank, hlogical]
  refine hreason.imp_right fun ⟨hequal, costs, hcosts, hle⟩ => ⟨hequal, ?_⟩
  obtain ⟨rest, hrest⟩ := contextCosts_append k hcosts hs
  calc
    w.cost ≤ Cost.sum costs := hle
    _ ≤ Cost.sum s.inputCosts := hrest ▸ Cost.sum_le_sum_append hzero costs rest
    _ ≤ c.cost := hc.le_cost hcost hs

/-- If a request can be given up in a memo that operations have brought about, whichever they were, then the group of the
expression has a winner from then on, and no context that the request could come to, then or later, with any inputs chosen
after those before and any enforcers, ever beats the winner there is. So the request never offers a plan that would have
won. The memos that a search goes through are brought about in this way, one from the other. -/
theorem pruned_never_wins :
    (∀ {verify : Bool} {limit : Option Nat} {m : Memo σ κ} {pins : List ContextId},
      (empty verify limit).Evolves [] m pins → ∀ {id e op required inputs}, m.expr? id = some e →
      canBePruned env m e op required inputs = .ok true →
      ∀ {n others}, m.Evolves pins n others → ∃ f winner w, n.expr? id = some f ∧
        n.winner? f.group required = some (winner, w) ∧
        ∀ {k rest}, m.Evolves pins k rest →
          (∀ more c, Requested env k id op required (inputs ++ more) c → c.isBetterThan w = false) ∧
          ∀ f progress more c, k.expr? id = some f → progress.inputs = inputs ++ more →
            buildContext env k id f op required progress = .ok (some c) → c.isBetterThan w = false) ∧
    ∀ {setup : OptimizerSetup σ κ} {tree columns root required s stage turns},
      Staged setup tree columns root required s → StageTurns setup stage root required (nextStage s) turns →
      (empty setup.config.verifyProperties (some setup.config.memoLimit)).Evolves [] s.memo [] ∧
      (∀ t ∈ turns, s.memo.Evolves [] t.seen.memo t.before.pins) ∧
      turns.Pairwise (fun t u => t.seen.memo.Evolves t.before.pins u.seen.memo u.before.pins) ∧
      ((runStage setup stage root required (nextStage s)).1.isRegular = true → ∀ t ∈ turns,
        t.seen.memo.Evolves t.before.pins (runStage setup stage root required (nextStage s)).2.memo []) := by
  refine ⟨fun {verify limit m pins} hm {id e op required inputs} he hpruned {n others} hn => ?_,
    fun {setup tree columns root required s stage turns} hs hturns => ?_⟩
  · have hretained := hm.retained (retained_empty verify limit)
    obtain ⟨winner, w, hw, hbeaten⟩ := not_isBetterThan_of_canBePruned hcost hzero he hpruned
    obtain ⟨f, hf, -, hgroup, -⟩ := (hn.extends hretained).exprs he
    obtain ⟨later, v, hv, hwv⟩ := hm.winner? hn hw
    have hnever : ∀ {k rest}, m.Evolves pins k rest → ∀ {more c}, Requested env k id op required (inputs ++ more) c →
        c.isBetterThan v = false := fun hk _ _ hc =>
      CostContext.not_isBetterThan_trans (hbeaten (hk.extends hretained) hc) hwv
    refine ⟨f, later, v, hf, (winner?_congr hgroup required).trans hv, fun hk => ⟨fun more c => hnever hk, ?_⟩⟩
    intro f progress more c hf hinputs hbuild
    exact hnever hk (hinputs ▸ requested_of_buildContext hf hbuild)
  · obtain ⟨hsound, hevolves⟩ := hs.evolves setup
    obtain ⟨hseen, hlater, hend⟩ := hturns.evolves setup (follows_resetSearch hsound).sound
    exact ⟨hevolves, fun t ht => (evolves_nextStage s).trans (hseen t ht), hlater, fun hr => (hend hr).2⟩

end

end

section

/-- First rows that can be had at cost 4, while the rows they could be the first of cost 5 and are pinned. -/
def dearRows : List (Operation Unit Nat) :=
  [.insert (rowSource false) (firstOf (constants 0)),
    .insertInto (rowSource false) ⟨0⟩ (.node (.physical (.constTableGet ⟨[], []⟩)) []),
    .insertInto (rowSource false) ⟨1⟩ (.node (.physical (.limit ⟨0, some 1, .none⟩)) [.group ⟨0⟩]),
    .insertInto (rowSource false) ⟨1⟩ (.node (.physical (.constTableGet ⟨[], [[]]⟩)) []),
    .addContext { constantsAt 5 with expr := ⟨2⟩ }, .addContext { constantsAt 4 with expr := ⟨4⟩ }, .pin ⟨0⟩]

/-- The first rows at an even lower cost. -/
def cheapRows : Operation Unit Nat := .addContext { constantsAt 3 with expr := ⟨4⟩ }

theorem inputCost_le_unitSetup (op : PhysicalOp) (s : CostSituation Unit Nat) :
    s.inputCost ≤ (environment unitSetup {}).costModel op s := by
  show s.inputCosts.foldl (· + ·) 0 ≤ 1 + s.inputCosts.sum
  rw [← List.sum_eq_foldl]
  omega

/-- The first rows are not read from the pinned rows, neither over the plan at cost 4 nor over the one at cost 3. The memos
of the search for the rows of two tables come from each other. -/
theorem pruned_never_wins_dearRows :
    (∃ e f winner w c, (runAll false none dearRows).expr? ⟨3⟩ = some e ∧
      canBePruned (environment unitSetup {}) (runAll false none dearRows) e (.limit ⟨0, some 1, .none⟩) .none [⟨0⟩] =
        .ok true ∧
      ((runAll false none dearRows).apply cheapRows).expr? ⟨3⟩ = some f ∧
      ((runAll false none dearRows).apply cheapRows).winner? f.group .none = some (winner, w) ∧ w.cost = 3 ∧
      buildContext (environment unitSetup {}) (runAll false none dearRows) ⟨3⟩ e (.limit ⟨0, some 1, .none⟩) .none
        ⟨0, [⟨0⟩], [(constantsAt 5).derived], none⟩ = .ok (some c) ∧ c.cost = 6 ∧ c.isBetterThan w = false) ∧
    ∃ m turns, (Memo.empty true (some 100000) : Memo Unit Nat).insert (unitSetup.source threeColumns) twoTables =
        (.ok ⟨2⟩, m) ∧
      StageTurns (timedSetup 100) {} ⟨2⟩ .none (nextStage ⟨m, threeColumns, .none⟩) turns ∧
      ∀ t ∈ turns, t.seen.memo.Evolves t.before.pins
        (runStage (timedSetup 100) {} ⟨2⟩ .none (nextStage ⟨m, threeColumns, .none⟩)).2.memo [] := by
  have hzero : ∀ x : Nat, 0 ≤ x := Nat.zero_le
  constructor
  · have hrequest : ((runAll false none dearRows).expr? ⟨3⟩).map (fun e =>
          ((canBePruned (environment unitSetup {}) (runAll false none dearRows) e (.limit ⟨0, some 1, .none⟩) .none
              [⟨0⟩]).toOption,
            (buildContext (environment unitSetup {}) (runAll false none dearRows) ⟨3⟩ e (.limit ⟨0, some 1, .none⟩) .none
              ⟨0, [⟨0⟩], [(constantsAt 5).derived], none⟩).toOption.map (Option.map CostContext.cost))) =
        some (some true, some (some 6)) := by decide +kernel
    have hlater : (((runAll false none dearRows).apply cheapRows).expr? ⟨3⟩).map (fun f =>
        (((runAll false none dearRows).apply cheapRows).winner? f.group .none).map (fun w => w.2.cost)) =
          some (some 3) := by decide +kernel
    have hmatched : (empty false none : Memo Unit Nat).Matched [] dearRows :=
      ⟨trivial, trivial, trivial, trivial, trivial, trivial, trivial, trivial⟩
    have hm : (empty false none).Evolves [] (runAll false none dearRows) ((empty false none).outstanding [] dearRows) :=
      ⟨dearRows, hmatched, rfl, .refl _⟩
    obtain ⟨e, he, hrequest⟩ := Option.map_eq_some_iff.1 hrequest
    simp only [Prod.mk.injEq] at hrequest
    obtain ⟨hpruned, hbuild⟩ := hrequest
    obtain ⟨built, hbuilt, hbuild⟩ := Option.map_eq_some_iff.1 hbuild
    obtain ⟨c, rfl, hc⟩ := Option.map_eq_some_iff.1 hbuild
    obtain ⟨f, winner, w, hf, hw, hnever⟩ := (pruned_never_wins inputCost_le_unitSetup hzero).1 hm he
      (eq_ok_of_toOption hpruned) (.apply _ _ cheapRows trivial)
    rw [hf, Option.map_some, hw] at hlater
    refine ⟨e, f, winner, w, c, he, eq_ok_of_toOption hpruned, hf, hw, by simpa using hlater, eq_ok_of_toOption hbuilt, hc,
      (hnever (.refl _ (.refl _))).2 e _ [] c he rfl (eq_ok_of_toOption hbuilt)⟩
  · have hroot : ((Memo.empty true (some 100000) : Memo Unit Nat).insert (unitSetup.source threeColumns)
        twoTables).1.toOption = some ⟨2⟩ := by decide +kernel
    have hregular : (runStage (timedSetup 100) {} ⟨2⟩ .none (nextStage
        ⟨((Memo.empty true (some 100000) : Memo Unit Nat).insert (unitSetup.source threeColumns) twoTables).2,
          threeColumns, .none⟩)).1.isRegular = true := by decide +kernel
    cases h : (Memo.empty true (some 100000) : Memo Unit Nat).insert (unitSetup.source threeColumns) twoTables with
    | mk r m =>
      rw [h] at hroot hregular
      cases r with
      | error err => cases hroot
      | ok root =>
        obtain rfl : root = ⟨2⟩ := Option.some.inj hroot
        obtain ⟨turns, hturns⟩ := exists_stageTurns (timedSetup 100) {} ⟨2⟩ .none (nextStage ⟨m, threeColumns, .none⟩)
        have hstaged : Staged (timedSetup 100) twoTables threeColumns ⟨2⟩ .none ⟨m, threeColumns, .none⟩ := .inserted h
        obtain ⟨-, -, -, hend⟩ := (pruned_never_wins inputCost_le_unitSetup hzero).2 hstaged hturns
        exact ⟨m, turns, rfl, hturns, hend hregular⟩

end

end Search
end Cascade
