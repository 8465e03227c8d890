import Cascade.Proofs.Search.Jobs
import Cascade.Proofs.Search.Requesting

/-!
What one run of a job can do (`JobStep`). A job about a group, or about exploring or implementing an expression, looks
at the memo, asks for jobs about parts of its own and sets its mark when there is nothing left to ask for. A rule puts
alternatives into a group. An expression is optimized request by request.
-/

namespace Cascade

open Memo Search

variable {σ κ : Type}

/-- All members of a group that pass a test have been asked for. -/
def AllAsked (m : Memo σ κ) (g : GroupId) (test : MemoExpr → Bool) (asked : List ExprId) : Prop :=
  ∀ x ∈ m.members g, test x.2 = true → x.1 ∈ asked

/-- The members of a group that pass a test and were not asked for before are asked for now. -/
structure NewMembers (m : Memo σ κ) (g : GroupId) (test : MemoExpr → Bool) (spawned ids : List ExprId) : Prop where
  ne_nil : ids ≠ []
  fresh : ∀ id ∈ ids, id ∉ spawned
  members : ids.Sublist ((m.members g).reverse.map Prod.fst)
  tested : ∀ id ∈ ids, ∃ e, (id, e) ∈ m.members g ∧ test e = true
  allAsked : AllAsked m g test (spawned ++ ids)

/-- The rules of one kind that are worth applying to an expression. -/
def Candidates (env : SearchEnv σ κ) (m : Memo σ κ) (id : ExprId) (exploration : Bool) (rules : List RuleId) : Prop :=
  ∃ e, m.expr? id = some e ∧
    rules = (ruleContext env (m.find e.group) m).candidates env.enabled env.order exploration e

/-- A job goes on as another one after jobs with these keys. -/
inductive Asks (env : SearchEnv σ κ) (m : Memo σ κ) : SearchJob → SearchJob → List JobKey → Prop
  | exploreMembers {g : GroupId} {spawned ids : List ExprId}
    (h : NewMembers m g (fun e => e.op.isLogical && !e.explored) spawned ids) :
    Asks env m (.exploreGroup g spawned) (.exploreGroup g (spawned ++ ids)) (ids.map .exploreExpr)
  | explore {g : GroupId} {spawned : List ExprId} :
    Asks env m (.implementGroup g false spawned) (.implementGroup g true spawned) [.exploreGroup (m.find g)]
  | implementMembers {g : GroupId} {explored : Bool} {spawned ids : List ExprId}
    (hexplored : explored = false → m.Settled (.exploreGroup g))
    (h : NewMembers m g (fun e => e.op.isLogical && !e.implemented) spawned ids) :
    Asks env m (.implementGroup g explored spawned) (.implementGroup g true (spawned ++ ids)) (ids.map .implementExpr)
  | implement {g : GroupId} {r : Required} {spawned : List ExprId} :
    Asks env m (.optimizeGroup g r false spawned) (.optimizeGroup g r true spawned) [.implementGroup (m.find g)]
  | optimizeMembers {g : GroupId} {r : Required} {implemented : Bool} {spawned ids : List ExprId}
    (himplemented : implemented = false → m.Settled (.implementGroup g))
    (h : NewMembers m g (fun e => !e.op.isLogical && !decide (r ∈ e.optimized)) spawned ids) :
    Asks env m (.optimizeGroup g r implemented spawned) (.optimizeGroup g r true (spawned ++ ids))
      (ids.map (.optimizeExpr · r))
  | implementRules {id : ExprId} {rules : List RuleId} (h : Candidates env m id false rules) (hne : rules ≠ []) :
    Asks env m (.implementExpr id false) (.implementExpr id true) (rules.map (.applyRule id))
  | exploreInputs {id : ExprId} {e : MemoExpr} (he : m.expr? id = some e) (hne : unexploredInputs m e ≠ []) :
    Asks env m (.exploreExpr id .start) (.exploreExpr id .inputsExplored) ((unexploredInputs m e).map .exploreGroup)
  | exploreRules {id : ExprId} {step : ExploreStep} {rules : List RuleId} (hstep : step ≠ .rulesApplied)
    (h : Candidates env m id true rules) (hne : rules ≠ []) :
    Asks env m (.exploreExpr id step) (.exploreExpr id .rulesApplied) (rules.map (.applyRule id))

/-- There is nothing left that a job could ask for. -/
def Closes (env : SearchEnv σ κ) (m : Memo σ κ) : SearchJob → Prop
  | .exploreGroup g spawned => m.Knows (m.find g) ∧ AllAsked m g (fun e => e.op.isLogical && !e.explored) spawned
  | .implementGroup g explored spawned => (explored = false → m.Settled (.exploreGroup g)) ∧
    AllAsked m g (fun e => e.op.isLogical && !e.implemented) spawned
  | .optimizeGroup g r implemented spawned => (implemented = false → m.Settled (.implementGroup g)) ∧
    AllAsked m g (fun e => !e.op.isLogical && !decide (r ∈ e.optimized)) spawned
  | .implementExpr id started => started = false → Candidates env m id false []
  | .exploreExpr id step => step ≠ .rulesApplied → Candidates env m id true []
  | _ => True

/-- What a run of such a job comes to. A job that runs for the first time asks for others only if its mark is not set. -/
inductive PlainStep (env : SearchEnv σ κ) (m : Memo σ κ) (job : SearchJob) : Step SearchJob → Memo σ κ → Prop
  | settled (h : m.Settled job.key) (hknown : ∀ g, job.key = .exploreGroup g → m.Knows (m.find g)) :
    PlainStep env m job .done m
  | settles (h : Closes env m job) : PlainStep env m job .done (m.settle job.key)
  | asks {next : SearchJob} {keys : List JobKey} (h : Asks env m job next keys)
    (hnew : job = job.key.start → ¬ m.Settled job.key) :
    PlainStep env m job (.spawn next (keys.map JobKey.start)) m

theorem map_start {α : Type} (f : α → JobKey) (l : List α) :
    l.map (fun a => (f a).start) = (l.map f).map JobKey.start := by simp

section

variable {env : SearchEnv σ κ} {s : SearchState σ κ}

/-- The run of a job comes to what is said of it. -/
abbrev RunsPlainly (env : SearchEnv σ κ) (s : SearchState σ κ) (job : SearchJob) (x : SearchM σ κ (Step SearchJob)) :
    Prop :=
  Yields x s (fun step t => PlainStep env s.memo job step t.memo) (fun _ _ => True)

theorem mem_newMembers {m : Memo σ κ} {g : GroupId} {spawned : List ExprId} {test : MemoExpr → Bool} {id : ExprId} :
    id ∈ newMembers m g spawned test ↔ ∃ e, (id, e) ∈ m.members g ∧ test e = true ∧ id ∉ spawned := by
  simp [newMembers]

theorem newMembers_newMembers {m : Memo σ κ} {g : GroupId} {spawned : List ExprId} {test : MemoExpr → Bool}
    (h : newMembers m g spawned test ≠ []) : NewMembers m g test spawned (newMembers m g spawned test) where
  ne_nil := h
  fresh id hid := (mem_newMembers.1 hid).choose_spec.2.2
  members := List.filter_sublist.map Prod.fst
  tested id hid := (mem_newMembers.1 hid).imp fun _ h => ⟨h.1, h.2.1⟩
  allAsked x hx htest := by
    by_cases hold : x.1 ∈ spawned
    · exact List.mem_append_left _ hold
    · exact List.mem_append_right _ (mem_newMembers.2 ⟨x.2, hx, htest, hold⟩)

theorem allAsked_of_newMembers {m : Memo σ κ} {g : GroupId} {spawned : List ExprId} {test : MemoExpr → Bool}
    (h : newMembers m g spawned test = []) : AllAsked m g test spawned := by
  intro x hx htest
  refine Classical.byContradiction fun hold => ?_
  have hmem := mem_newMembers.2 ⟨x.2, hx, htest, hold⟩
  rw [h] at hmem
  cases hmem

theorem runsPlainly_asks {job next : SearchJob} {keys : List JobKey} {children : List SearchJob}
    (h : Asks env s.memo job next keys) (hnew : job = job.key.start → ¬ s.memo.Settled job.key)
    (hchildren : children = keys.map JobKey.start) :
    RunsPlainly env s job (pure (.spawn next children)) := by
  subst hchildren
  exact .of_pure (.asks h hnew)

theorem runsPlainly_exploreGroup (g : GroupId) (spawned : List ExprId) :
    RunsPlainly env s (.exploreGroup g spawned) (runExploreGroup g spawned) := by
  refine .bind_memo (.bind_lift (fun x hx => ?_) fun _ _ => trivial)
  have hx := group_ok hx
  split
  · rename_i hdone
    simp only [Bool.and_eq_true] at hdone
    refine .of_pure (.settled (forall_of_eq_some hx hdone.2) fun k hk => ?_)
    cases hk
    exact knows_of_content hx
  · rename_i hnew
    split
    · rename_i hnone
      exact .bind_modifyMemo (.of_pure (.settles ⟨knows_of_content hx, allAsked_of_newMembers hnone⟩))
    · rename_i ids hids
      have hne : newMembers s.memo g spawned (fun e => e.op.isLogical && !e.explored) ≠ [] := fun h => hids h
      refine runsPlainly_asks (.exploreMembers (newMembers_newMembers hne)) (fun hstart hs => ?_)
        (map_start .exploreExpr _)
      have hspawned : spawned = [] := congrArg (fun j => match j with | .exploreGroup _ l => l | _ => []) hstart
      subst hspawned
      exact hnew (by simpa using hs x hx)

theorem runsPlainly_implementMembers {g : GroupId} {explored : Bool} {spawned : List ExprId}
    (hexplored : explored = false → s.memo.Settled (.exploreGroup g))
    (hnew : SearchJob.implementGroup g explored spawned = .implementGroup g false [] → ¬ s.memo.Settled (.implementGroup g)) :
    RunsPlainly env s (.implementGroup g explored spawned) (implementMembers g spawned) := by
  refine .bind_memo ?_
  split
  · rename_i hnone
    exact .bind_modifyMemo (.of_pure (.settles ⟨hexplored, allAsked_of_newMembers hnone⟩))
  · rename_i ids hids
    have hne : newMembers s.memo g spawned (fun e => e.op.isLogical && !e.implemented) ≠ [] := fun h => hids h
    exact runsPlainly_asks (.implementMembers hexplored (newMembers_newMembers hne)) hnew (map_start .implementExpr _)

theorem runsPlainly_implementGroup (g : GroupId) (explored : Bool) (spawned : List ExprId) :
    RunsPlainly env s (.implementGroup g explored spawned) (runImplementGroup g explored spawned) := by
  unfold runImplementGroup
  cases explored with
  | true => exact runsPlainly_implementMembers nofun nofun
  | false =>
    refine .bind_memo (.bind_lift (fun x hx => ?_) fun _ _ => trivial)
    have hx := group_ok hx
    split
    · rename_i hdone
      exact .of_pure (.settled (forall_of_eq_some hx hdone) nofun)
    · rename_i hnew
      split
      · rename_i hexplored
        exact runsPlainly_implementMembers (fun _ => forall_of_eq_some hx hexplored) fun _ hs => hnew (hs x hx)
      · exact runsPlainly_asks .explore (fun _ hs => hnew (hs x hx)) rfl

theorem runsPlainly_optimizeMembers {g : GroupId} {r : Required} {implemented : Bool} {spawned : List ExprId}
    (himplemented : implemented = false → s.memo.Settled (.implementGroup g))
    (hnew : SearchJob.optimizeGroup g r implemented spawned = .optimizeGroup g r false [] →
      ¬ s.memo.Settled (.optimizeGroup g r)) :
    RunsPlainly env s (.optimizeGroup g r implemented spawned) (optimizeMembers g r spawned) := by
  refine .bind_memo ?_
  split
  · rename_i hnone
    exact .bind_modifyMemo (.of_pure (.settles ⟨himplemented, allAsked_of_newMembers hnone⟩))
  · rename_i ids hids
    have hne : newMembers s.memo g spawned (fun e => !e.op.isLogical && !decide (r ∈ e.optimized)) ≠ [] :=
      fun h => hids h
    exact runsPlainly_asks (.optimizeMembers himplemented (newMembers_newMembers hne)) hnew (map_start (.optimizeExpr · r) _)

theorem runsPlainly_optimizeGroup (g : GroupId) (r : Required) (implemented : Bool) (spawned : List ExprId) :
    RunsPlainly env s (.optimizeGroup g r implemented spawned) (runOptimizeGroup g r implemented spawned) := by
  unfold runOptimizeGroup
  cases implemented with
  | true => exact runsPlainly_optimizeMembers nofun nofun
  | false =>
    refine .bind_memo (.bind_lift (fun x hx => ?_) fun _ _ => trivial)
    have hx := group_ok hx
    split
    · rename_i hdone
      exact .of_pure (.settled (forall_of_eq_some hx hdone) nofun)
    · rename_i hnew
      split
      · rename_i himplemented
        exact runsPlainly_optimizeMembers (fun _ => forall_of_eq_some hx himplemented) fun _ hs => hnew (hs x hx)
      · exact runsPlainly_asks .implement (fun _ hs => hnew (hs x hx)) rfl

theorem yields_candidates_memo (id : ExprId) (exploration : Bool) :
    Yields (candidates env id exploration) s (fun rules t => t = s ∧ Candidates env s.memo id exploration rules)
      (fun _ _ => True) :=
  .bind_memo (.bind_lift (fun e he => .of_pure ⟨rfl, e, expr_ok he, rfl⟩) fun _ _ => trivial)

theorem runsPlainly_implementExpr (id : ExprId) (started : Bool) :
    RunsPlainly env s (.implementExpr id started) (runImplementExpr env id started) := by
  refine .bind_memo (.bind_lift (fun e he => ?_) fun _ _ => trivial)
  have he := expr_ok he
  cases started with
  | true => exact .bind_modifyMemo (.of_pure (.settles nofun))
  | false =>
    split
    · rename_i h
      cases h
    · split
      · rename_i hdone
        exact .of_pure (.settled (forall_of_eq_some he hdone) nofun)
      · rename_i hnew
        refine (yields_candidates_memo id false).bind ?_
        rintro rules t ⟨rfl, hrules⟩
        split
        · exact .bind_modifyMemo (.of_pure (.settles fun _ => hrules))
        · rename_i hne
          exact runsPlainly_asks (.implementRules hrules fun hnil => hne hnil) (fun _ hs => hnew (hs e he)) (map_start (.applyRule id) _)

theorem runsPlainly_applyExplorationRules {id : ExprId} {step : ExploreStep} (hstep : step ≠ .rulesApplied)
    (hnew : step = .start → ¬ s.memo.Settled (.exploreExpr id)) :
    RunsPlainly env s (.exploreExpr id step) (applyExplorationRules env id) := by
  refine (yields_candidates_memo id true).bind ?_
  rintro rules t ⟨rfl, hrules⟩
  split
  · exact .bind_modifyMemo (.of_pure (.settles fun _ => hrules))
  · rename_i hne
    refine runsPlainly_asks (.exploreRules hstep hrules fun hnil => hne hnil) (fun hstart => hnew ?_) (map_start (.applyRule id) _)
    injection hstart

theorem runsPlainly_exploreExpr (id : ExprId) (step : ExploreStep) :
    RunsPlainly env s (.exploreExpr id step) (runExploreExpr env id step) := by
  cases step with
  | start =>
    refine .bind_memo (.bind_lift (fun e he => ?_) fun _ _ => trivial)
    have he := expr_ok he
    split
    · rename_i hdone
      exact .of_pure (.settled (forall_of_eq_some he hdone) nofun)
    · rename_i hnew
      split
      · exact runsPlainly_applyExplorationRules nofun fun _ hs => hnew (hs e he)
      · rename_i hne
        exact runsPlainly_asks (.exploreInputs he fun hnil => hne hnil) (fun _ hs => hnew (hs e he)) (map_start .exploreGroup _)
  | inputsExplored => exact runsPlainly_applyExplorationRules nofun nofun
  | rulesApplied => exact .bind_modifyMemo (.of_pure (.settles fun hne => absurd rfl hne))

theorem Yields.of_liftRule {α : Type} {x : RuleM α} {s : SearchState σ κ} :
    Yields (liftRule x) s (fun a t => t.memo = s.memo ∧ x.run s.columns = (.ok a, t.columns)) (fun _ _ => True) :=
  .bind_get (.bind_modify (.of_lift (fun _ ha => ⟨rfl, Prod.ext ha rfl⟩) fun _ _ => trivial))

/-- Trees were inserted into groups, one after the other. -/
inductive Insertions [LT κ] [DecidableLT κ] (m : Memo σ κ) : Memo σ κ → Prop
  | refl : Insertions m m
  | insert {n : Memo σ κ} (h : Insertions m n) (source : PropertySource σ) (g : GroupId) (e : Expr) :
    Insertions m (n.insertInto source g e).2

/-- Alternatives were inserted into a group, none of them in vain. -/
inductive Inserts [LT κ] [DecidableLT κ] (env : SearchEnv σ κ) (g : GroupId) : List Expr → Memo σ κ → Memo σ κ → Prop
  | nil {m : Memo σ κ} : Inserts env g [] m m
  | cons {x : Expr} {xs : List Expr} {m n o : Memo σ κ} {columns : Columns} {placed : Placed}
    (hinsert : m.insertInto (env.source columns) g x = (.ok placed, n)) (h : Inserts env g xs n o) :
    Inserts env g (x :: xs) m o

/-- What a rule comes to: it was applied to the expression before, or its alternatives are inserted. -/
inductive RuleRun [LT κ] [DecidableLT κ] (env : SearchEnv σ κ) (id : ExprId) (rule : RuleId) (m : Memo σ κ) :
    Step SearchJob → Memo σ κ → Prop
  | settled (h : m.wasApplied id rule = true) : RuleRun env id rule m .done m
  | applied {e : MemoExpr} {n : Memo σ κ} {columns after : Columns} {alternatives : List Expr}
    (he : m.expr? id = some e) (hnew : rule ∉ e.applied)
    (hrun : ((rule.rule : Rule σ κ).alternatives (ruleContext env (m.find e.group) (m.markApplied id rule)) id).run columns =
      (.ok alternatives, after))
    (h : Inserts env (m.find e.group) alternatives (m.markApplied id rule) n) : RuleRun env id rule m .done n

section

variable [LT κ] [DecidableLT κ] {m : Memo σ κ}

theorem Inserts.insertions {n : Memo σ κ} {g : GroupId} {alternatives : List Expr} (h : Inserts env g alternatives m n)
    {o : Memo σ κ} (k : Insertions o m) : Insertions o n := by
  induction h with
  | nil => exact k
  | @cons x _ m _ _ columns _ hinsert _ ih =>
    have hn := k.insert (env.source columns) g x
    rw [hinsert] at hn
    exact ih hn

theorem yields_inserts (group : GroupId) (alternatives : List Expr) (t : SearchState σ κ) :
    Yields (alternatives.forM (insertAlternative env group)) t (fun _ u => Inserts env group alternatives t.memo u.memo)
      (fun _ _ => True) := by
  induction alternatives generalizing t with
  | nil => exact .of_pure .nil
  | cons e es ih =>
    have hinsert : Yields (insertAlternative env group e) t
        (fun _ u => ∃ placed, t.memo.insertInto (env.source t.columns) group e = (.ok placed, u.memo)) (fun _ _ => True) := by
      refine .bind_get (.bind_set (.bind_lift (fun placed hplaced => ?_) fun _ _ => trivial))
      have hplaced : t.memo.insertInto (env.source t.columns) group e =
          (.ok placed, (t.memo.insertInto (env.source t.columns) group e).2) := Prod.ext hplaced rfl
      split
      · exact .of_modify ⟨placed, hplaced⟩
      · exact .of_pure ⟨placed, hplaced⟩
    exact hinsert.bind fun _ u ⟨placed, hu⟩ => (ih u).mono (fun _ _ h => .cons hu h) fun _ _ _ => trivial

theorem yields_ruleRun (id : ExprId) (rule : RuleId) (s : SearchState σ κ) :
    Yields (runApplyRule env id rule) s (fun step t => RuleRun env id rule s.memo step t.memo) (fun _ _ => True) := by
  refine .bind_memo ?_
  split
  · rename_i hdone
    exact .of_pure (.settled hdone)
  · rename_i hnew
    refine .bind_modifyMemo (.bind_memo (.bind_lift (fun f hf => ?_) fun _ _ => trivial))
    obtain ⟨e, he, hef⟩ := Option.map_eq_some_iff.1 ((expr?_modifyExpr ..).symm.trans (expr_ok hf))
    have hgroup : f.group = e.group := by
      rw [← hef]
      split <;> rfl
    refine Yields.of_liftRule.bind ?_
    rintro alternatives t ⟨ht, hrun⟩
    refine .bind_modify ((yields_inserts _ alternatives _).bind fun _ u hu => ?_)
    refine .of_pure (.applied he (fun hmem => hnew ?_) (hgroup ▸ hrun) ?_)
    · simp [wasApplied, he, hmem]
    · exact hgroup ▸ (show t.memo = s.memo.markApplied id rule from ht) ▸ hu

end

/-- What a run of a job can do. -/
def JobStep [Zero κ] [Add κ] [LT κ] [DecidableLT κ] (env : SearchEnv σ κ) (m : Memo σ κ) (job : SearchJob)
    (step : Step SearchJob) (n : Memo σ κ) : Prop :=
  match job with
  | .applyRule id rule => RuleRun env id rule m step n
  | .optimizeExpr id required progress => OptimizeRun env id required m progress step n
  | job => PlainStep env m job step n

theorem yields_jobStep [Zero κ] [Add κ] [LT κ] [DecidableLT κ] (env : SearchEnv σ κ) (job : SearchJob)
    (s : SearchState σ κ) :
    Yields (runJob env job) s (fun step t => JobStep env s.memo job step t.memo) (fun _ _ => True) := by
  refine .bind_modify ?_
  cases job with
  | optimizeGroup g r implemented spawned => exact runsPlainly_optimizeGroup g r implemented spawned
  | implementGroup g explored spawned => exact runsPlainly_implementGroup g explored spawned
  | exploreGroup g spawned => exact runsPlainly_exploreGroup g spawned
  | implementExpr e started => exact runsPlainly_implementExpr e started
  | exploreExpr e step => exact runsPlainly_exploreExpr e step
  | applyRule e r => exact yields_ruleRun e r _
  | optimizeExpr e r progress => exact yields_optimizeRun env e r progress _

end

end Cascade
