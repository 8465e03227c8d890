import Cascade.Cost.Model
import Cascade.Derivation.Enforcer
import Cascade.Memo.Insert
import Cascade.Memo.Winner
import Cascade.Rule.All
import Cascade.Search.Scheduler

/-!
The jobs of the search. A group is explored (all equivalent logical expressions), implemented
(physical expressions for them) and optimized for a requirement (a plan for every physical
expression, of which the memo keeps the best). Each expression goes through the same steps.
-/

namespace Cascade

variable {σ κ : Type}

/-- What was done during a search. -/
structure SearchStats where
  /-- how often jobs of each kind were run -/
  jobs : SortedMap String Nat
  stages : Nat
  /-- how often rules were applied -/
  ruleApplications : Nat
  /-- new expressions that rules have produced -/
  alternatives : Nat
  /-- requests given up because they could not beat the best plan -/
  pruned : Nat
  deriving DecidableEq

namespace SearchStats

def none : SearchStats := ⟨∅, 0, 0, 0, 0⟩

instance : Inhabited SearchStats := ⟨none⟩

def countJob (s : SearchStats) (kind : String) : SearchStats :=
  { s with jobs := s.jobs.insert kind ((s.jobs.get? kind).getD 0 + 1) }

/-- The number of all runs of jobs. -/
def totalJobs (s : SearchStats) : Nat := total (s.jobs.entries.map Prod.snd)

end SearchStats

/-- What stays the same during a stage of the search. -/
structure SearchEnv (σ κ : Type) where
  catalog : Catalog
  config : Config
  hints : Hints
  costModel : CostModel σ κ
  source : Columns → PropertySource σ
  /-- the rules of the stage -/
  enabled : RuleSet
  /-- the order in which rules of the same promise are applied -/
  order : List RuleId

/-- What jobs change. -/
structure SearchState (σ κ : Type) where
  memo : Memo σ κ
  columns : Columns
  stats : SearchStats

/-- A step of the search; an error leaves the state as it was reached. -/
abbrev SearchM (σ κ : Type) := ExceptT PlanError (StateM (SearchState σ κ))

/-- How far the optimization of an expression has come. -/
structure RequestProgress where
  /-- the way the inputs are asked -/
  request : Nat
  /-- the winners chosen for the first inputs; the search pins them -/
  inputs : List ContextId
  /-- what those provide -/
  derived : List Derived
  /-- what the next input was asked for, if it is being optimized -/
  awaiting : Option Required

/-- How far the exploration of an expression has come. -/
inductive ExploreStep
  | start
  | inputsExplored
  | rulesApplied
  deriving DecidableEq, Repr

/-- A job with its state between runs. `spawned` lists the members a job of a group has asked for. -/
inductive SearchJob
  | optimizeGroup (group : GroupId) (required : Required) (implemented : Bool) (spawned : List ExprId)
  | implementGroup (group : GroupId) (explored : Bool) (spawned : List ExprId)
  | exploreGroup (group : GroupId) (spawned : List ExprId)
  | implementExpr (expr : ExprId) (started : Bool)
  | exploreExpr (expr : ExprId) (step : ExploreStep)
  | applyRule (expr : ExprId) (rule : RuleId)
  /-- `none` before the first run -/
  | optimizeExpr (expr : ExprId) (required : Required) (progress : Option RequestProgress)

/-- What a job is about. -/
inductive JobKey
  | optimizeGroup (group : GroupId) (required : Required)
  | implementGroup (group : GroupId)
  | exploreGroup (group : GroupId)
  | implementExpr (expr : ExprId)
  | exploreExpr (expr : ExprId)
  | applyRule (expr : ExprId) (rule : RuleId)
  | optimizeExpr (expr : ExprId) (required : Required)
  deriving DecidableEq

namespace SearchJob

def key : SearchJob → JobKey
  | optimizeGroup g r _ _ => .optimizeGroup g r
  | implementGroup g _ _ => .implementGroup g
  | exploreGroup g _ => .exploreGroup g
  | implementExpr e _ => .implementExpr e
  | exploreExpr e _ => .exploreExpr e
  | applyRule e r => .applyRule e r
  | optimizeExpr e r _ => .optimizeExpr e r

def kind : SearchJob → String
  | optimizeGroup _ _ _ _ => "OptimizeGroup"
  | implementGroup _ _ _ => "ImplementGroup"
  | exploreGroup _ _ => "ExploreGroup"
  | implementExpr _ _ => "ImplementExpr"
  | exploreExpr _ _ => "ExploreExpr"
  | applyRule _ _ => "ApplyXform"
  | optimizeExpr _ _ _ => "OptimizeExpr"

end SearchJob

namespace Search

/-- Changes the memo. -/
def modifyMemo (f : Memo σ κ → Memo σ κ) : SearchM σ κ Unit := modify (fun s => { s with memo := f s.memo })

def memo : SearchM σ κ (Memo σ κ) := do
  return (← get).memo

/-- The context of a rule that is applied to an expression. -/
def ruleContext (env : SearchEnv σ κ) (group : GroupId) (m : Memo σ κ) : RuleContext σ κ :=
  ⟨m, group, env.catalog, env.config, env.hints, env.source⟩

/-- The members of a group that pass a test and were not asked for yet, the last first. -/
def newMembers (m : Memo σ κ) (group : GroupId) (spawned : List ExprId) (test : MemoExpr → Bool) :
    List ExprId :=
  ((m.members group).reverse.filter (fun x => test x.2 && !decide (x.1 ∈ spawned))).map Prod.fst

def runExploreGroup (group : GroupId) (spawned : List ExprId) : SearchM σ κ (Step SearchJob) := do
  let m ← memo
  if spawned.isEmpty && (← liftM (m.group group)).explored then pure .done
  else
    -- exploring one expression can add others to the group
    match newMembers m group spawned (fun e => e.op.isLogical && !e.explored) with
    | [] => do
      modifyMemo (fun m => m.markGroupExplored group)
      pure .done
    | ids =>
      pure (.spawn (.exploreGroup group (spawned ++ ids)) (ids.map (SearchJob.exploreExpr · .start)))

def implementMembers (group : GroupId) (spawned : List ExprId) : SearchM σ κ (Step SearchJob) := do
  match newMembers (← memo) group spawned (fun e => e.op.isLogical && !e.implemented) with
  | [] => do
    modifyMemo (fun m => m.markGroupImplemented group)
    pure .done
  | ids =>
    pure (.spawn (.implementGroup group true (spawned ++ ids)) (ids.map (SearchJob.implementExpr · false)))

def runImplementGroup (group : GroupId) (explored : Bool) (spawned : List ExprId) :
    SearchM σ κ (Step SearchJob) := do
  if explored then implementMembers group spawned
  else
    let m ← memo
    let content ← liftM (m.group group)
    if content.implemented then pure .done
    else if content.explored then implementMembers group spawned
    else pure (.spawn (.implementGroup group true spawned) [.exploreGroup (m.find group) []])

def optimizeMembers (group : GroupId) (required : Required) (spawned : List ExprId) :
    SearchM σ κ (Step SearchJob) := do
  match newMembers (← memo) group spawned (fun e => !e.op.isLogical && !decide (required ∈ e.optimized)) with
  | [] => do
    modifyMemo (fun m => m.markGroupOptimized group required)
    pure .done
  | ids =>
    pure (.spawn (.optimizeGroup group required true (spawned ++ ids))
      (ids.map (SearchJob.optimizeExpr · required none)))

def runOptimizeGroup (group : GroupId) (required : Required) (implemented : Bool) (spawned : List ExprId) :
    SearchM σ κ (Step SearchJob) := do
  if implemented then optimizeMembers group required spawned
  else
    let m ← memo
    let content ← liftM (m.group group)
    if required ∈ content.optimized then pure .done
    else if content.implemented then optimizeMembers group required spawned
    else pure (.spawn (.optimizeGroup group required true spawned) [.implementGroup (m.find group) false []])

/-- The rules worth applying to an expression. -/
def candidates (env : SearchEnv σ κ) (id : ExprId) (exploration : Bool) : SearchM σ κ (List RuleId) := do
  let m ← memo
  let e ← liftM (m.expr id)
  pure ((ruleContext env (m.find e.group) m).candidates env.enabled env.order exploration e)

def runImplementExpr (env : SearchEnv σ κ) (id : ExprId) (started : Bool) : SearchM σ κ (Step SearchJob) := do
  let e ← liftM ((← memo).expr id)
  if started then finish
  else if e.implemented then pure .done
  else
    match ← candidates env id false with
    | [] => finish
    | rules => pure (.spawn (.implementExpr id true) (rules.map (SearchJob.applyRule id)))
where
  finish : SearchM σ κ (Step SearchJob) := do
    modifyMemo (fun m => m.markExprImplemented id)
    pure .done

/-- The input groups of an expression that are not explored yet. -/
def unexploredInputs (m : Memo σ κ) (e : MemoExpr) : List GroupId :=
  ((e.inputs.map m.find).filter (fun g => !(m.group? g).any Group.explored)).foldl
    (fun acc g => if g ∈ acc then acc else acc ++ [g]) []

def finishExploration (id : ExprId) : SearchM σ κ (Step SearchJob) := do
  modifyMemo (fun m => m.markExprExplored id)
  pure .done

def applyExplorationRules (env : SearchEnv σ κ) (id : ExprId) : SearchM σ κ (Step SearchJob) := do
  match ← candidates env id true with
  | [] => finishExploration id
  | rules => pure (.spawn (.exploreExpr id .rulesApplied) (rules.map (SearchJob.applyRule id)))

def runExploreExpr (env : SearchEnv σ κ) (id : ExprId) (step : ExploreStep) : SearchM σ κ (Step SearchJob) := do
  match step with
  | .start =>
    let m ← memo
    let e ← liftM (m.expr id)
    if e.explored then pure .done
    else
      match unexploredInputs m e with
      | [] => applyExplorationRules env id
      | groups => pure (.spawn (.exploreExpr id .inputsExplored) (groups.map (SearchJob.exploreGroup · [])))
  | .inputsExplored => applyExplorationRules env id
  | .rulesApplied => finishExploration id

/-- Runs a step that can register columns. -/
def liftRule {α : Type} (x : RuleM α) : SearchM σ κ α := do
  let (result, columns) := x.run (← get).columns
  modify (fun s => { s with columns })
  liftM result

/-- Inserts an alternative into a group and counts it if it is new. -/
def insertAlternative [LT κ] [DecidableLT κ] (env : SearchEnv σ κ) (group : GroupId) (e : Expr) :
    SearchM σ κ Unit := do
  let s ← get
  let (placed, m) := s.memo.insertInto (env.source s.columns) group e
  set { s with memo := m }
  if (← liftM placed).expr.isSome then
    modify (fun s => { s with stats := { s.stats with alternatives := s.stats.alternatives + 1 } })

def runApplyRule [LT κ] [DecidableLT κ] (env : SearchEnv σ κ) (id : ExprId) (rule : RuleId) :
    SearchM σ κ (Step SearchJob) := do
  let m ← memo
  if m.wasApplied id rule then pure .done
  else
    modifyMemo (fun m => m.markApplied id rule)
    let m ← memo
    let group := m.find (← liftM (m.expr id)).group
    let alternatives ← liftRule ((rule.rule (σ := σ) (κ := κ)).alternatives (ruleContext env group m) id)
    modify (fun s => { s with stats := { s.stats with ruleApplications := s.stats.ruleApplications + 1 } })
    alternatives.forM (insertAlternative env group)
    pure .done

def inputGroup (m : Memo σ κ) (id : ExprId) (place : Nat) : Except PlanError GroupId := do
  let e ← m.expr id
  match e.inputs[place]? with
  | some g => pure (m.find g)
  | none => throw (.internal ("Expression " ++ toString id ++ " has no input " ++ toString place))

/-- Where a physical expression stands when it is computed for a requirement. -/
def position (m : Memo σ κ) (e : MemoExpr) (required : Required) : Except PlanError Position := do
  let content ← m.group e.group
  let inputs ← e.inputs.mapM (fun g => (m.group g).map Group.logical)
  pure ⟨required, content.logical, inputs⟩

def contextCosts (m : Memo σ κ) (ids : List ContextId) : Except PlanError (List κ) :=
  ids.mapM (fun id => (m.contexts.get id).map CostContext.cost)

/-- Whether an expression cannot beat the best plan of its group, whatever its remaining inputs cost:
hints prefer the best plan, or the chosen inputs alone cost as much. Hints that prefer the expression
keep it. -/
def canBePruned [Zero κ] [Add κ] [LT κ] [DecidableLT κ] (env : SearchEnv σ κ) (m : Memo σ κ)
    (e : MemoExpr) (op : PhysicalOp) (required : Required) (inputs : List ContextId) :
    Except PlanError Bool := do
  if !env.config.costPruning then pure false
  else
    match m.winner? e.group required with
    | none => pure false
    | some (_, winner) =>
      let content ← m.group e.group
      let rank := env.hints.rank op content.logical.relations
      if winner.rank ≠ rank then pure (decide (rank < winner.rank))
      else
        let costs ← contextCosts m inputs
        pure (!decide (Cost.sum costs < winner.cost))

/-- Puts enforcers above a plan one by one, each with what it provides and the cost up to it. -/
def placeEnforcers (env : SearchEnv σ κ) (p : Position) (statistics : σ) :
    Derived → κ → List PhysicalOp → List (EnforcerStep κ)
  | _, _, [] => []
  | below, cost, op :: ops =>
    let cost := env.costModel op
      { statistics, inputs := [statistics], inputCosts := [cost], derived := [below], required := p.required }
    let derived := op.derived p [below]
    ⟨op, derived, cost⟩ :: placeEnforcers env p statistics derived cost ops

/-- The context of an expression over chosen inputs, with the enforcers that it takes; none if
nothing makes it meet the requirement. -/
def buildContext (env : SearchEnv σ κ) (m : Memo σ κ) (id : ExprId) (e : MemoExpr) (op : PhysicalOp)
    (required : Required) (progress : RequestProgress) : Except PlanError (Option (CostContext κ)) := do
  let content ← m.group e.group
  let p ← position m e required
  let statistics ← e.inputs.mapM (fun g => (m.group g).map Group.statistics)
  let inputCosts ← contextCosts m progress.inputs
  let derived := op.derived p progress.derived
  let cost := env.costModel op
    { statistics := content.statistics, inputs := statistics, inputCosts, derived := progress.derived, required }
  match p.enforce? derived env.config.subsetHashMatching with
  | none => pure none
  | some enforced =>
    let enforcers := placeEnforcers env p content.statistics derived cost enforced.ops
    pure (some
      { expr := id
        required
        request := progress.request
        inputs := progress.inputs
        exprDerived := derived
        exprCost := cost
        enforcers
        derived := enforced.derived
        cost := (enforcers.getLast?.map EnforcerStep.cost).getD cost
        rank := env.hints.rank op content.logical.relations })

/-- What a request comes to: another input is needed first, or it is finished. -/
inductive RequestStep
  | await (progress : RequestProgress) (group : GroupId) (required : Required)
  | finished (progress : RequestProgress)

/-- Takes the winner of the input that was waited for. With none, or if the expression cannot win any
more, the request is given up. -/
def receiveInput [Zero κ] [Add κ] [LT κ] [DecidableLT κ] (env : SearchEnv σ κ) (id : ExprId) (op : PhysicalOp)
    (required : Required) (progress : RequestProgress) : SearchM σ κ (RequestProgress × Bool) := do
  match progress.awaiting with
  | none => pure (progress, true)
  | some asked =>
    let progress := { progress with awaiting := none }
    let m ← memo
    let group ← liftM (inputGroup m id progress.inputs.length)
    match m.winner? group asked with
    | none => pure (progress, false)
    | some (winner, context) =>
      let m ← liftM (m.pin winner)
      modifyMemo (fun _ => m)
      let progress := { progress with
        inputs := progress.inputs ++ [winner]
        derived := progress.derived ++ [context.derived] }
      let e ← liftM (m.expr id)
      let pruned ← liftM (canBePruned env m e op required progress.inputs)
      if pruned then
        modify (fun s => { s with stats := { s.stats with pruned := s.stats.pruned + 1 } })
      pure (progress, !pruned)

/-- Goes on with a request until it needs another input or is finished. -/
def continueRequest [Zero κ] [Add κ] [LT κ] [DecidableLT κ] (env : SearchEnv σ κ) (id : ExprId) (op : PhysicalOp)
    (required : Required) (progress : RequestProgress) : SearchM σ κ RequestStep := do
  let (progress, goesOn) ← receiveInput env id op required progress
  if !goesOn then pure (.finished progress)
  else
    let m ← memo
    let e ← liftM (m.expr id)
    let child := progress.inputs.length
    if child < e.inputs.length then
      let p ← liftM (position m e required)
      match op.requiredInput p progress.request child progress.derived with
      | none => pure (.finished progress)
      | some asked =>
        let group ← liftM (inputGroup m id child)
        pure (.await { progress with awaiting := some asked } group asked)
    else
      match ← liftM (buildContext env m id e op required progress) with
      | none => pure ()
      | some context =>
        let (_, m) ← liftM (m.addContext context)
        modifyMemo (fun _ => m)
      pure (.finished progress)

/-- Takes back the pins of chosen inputs. -/
def releaseInputs (inputs : List ContextId) (m : Memo σ κ) : Memo σ κ :=
  inputs.foldl (fun m i => m.unpin i) m

/-- Goes through the remaining requests of an expression. -/
def runRequests [Zero κ] [Add κ] [LT κ] [DecidableLT κ] (env : SearchEnv σ κ) (id : ExprId) (op : PhysicalOp)
    (required : Required) : Nat → RequestProgress → SearchM σ κ (Step SearchJob)
  | 0, _ => do
    modifyMemo (fun m => m.markExprOptimized id required)
    pure .done
  | remaining + 1, progress => do
    match ← continueRequest env id op required progress with
    | .await progress group asked =>
      pure (.spawn (.optimizeExpr id required (some progress)) [.optimizeGroup group asked false []])
    | .finished progress =>
      modifyMemo (releaseInputs progress.inputs)
      runRequests env id op required remaining ⟨progress.request + 1, [], [], none⟩

def runOptimizeExpr [Zero κ] [Add κ] [LT κ] [DecidableLT κ] (env : SearchEnv σ κ) (id : ExprId)
    (required : Required) (progress : Option RequestProgress) : SearchM σ κ (Step SearchJob) := do
  let e ← liftM ((← memo).expr id)
  match e.op.physical?, progress with
  | none, _ => throw (.internal ("Expression " ++ toString id ++ " is not physical"))
  | some op, none =>
    if required ∈ e.optimized then pure .done
    else runRequests env id op required op.requestCount ⟨0, [], [], none⟩
  | some op, some progress => runRequests env id op required (op.requestCount - progress.request) progress

variable [Zero κ] [Add κ] [LT κ] [DecidableLT κ]

def runJob (env : SearchEnv σ κ) (job : SearchJob) : SearchM σ κ (Step SearchJob) := do
  modify (fun s => { s with stats := s.stats.countJob job.kind })
  match job with
  | .optimizeGroup g r implemented spawned => runOptimizeGroup g r implemented spawned
  | .implementGroup g explored spawned => runImplementGroup g explored spawned
  | .exploreGroup g spawned => runExploreGroup g spawned
  | .implementExpr e started => runImplementExpr env e started
  | .exploreExpr e step => runExploreExpr env e step
  | .applyRule e r => runApplyRule env e r
  | .optimizeExpr e r progress => runOptimizeExpr env e r progress

/-- A job that is given up no longer needs the inputs it has chosen. -/
def abandonJob (job : SearchJob) (s : SearchState σ κ) : SearchState σ κ :=
  match job with
  | .optimizeExpr _ _ (some progress) => { s with memo := releaseInputs progress.inputs s.memo }
  | _ => s

def jobs (env : SearchEnv σ κ) : JobSystem SearchJob JobKey (SearchState σ κ) where
  key := SearchJob.key
  run job s := (runJob env job).run s
  abandon := abandonJob

end Search
end Cascade
