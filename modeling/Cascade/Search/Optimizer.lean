import Cascade.Search.Extract
import Cascade.Search.Job

/-!
The optimizer: it copies a query into a memo, searches the memo stage by stage for the best plan of
its root, and reads the plan off.
-/

namespace Cascade

variable {σ κ : Type}

/-- What an optimization is given. -/
structure OptimizerSetup (σ κ : Type) where
  catalog : Catalog
  config : Config
  hints : Hints
  costModel : CostModel σ κ
  source : Columns → PropertySource σ
  /-- the order in which rules of the same promise are applied -/
  order : List RuleId
  /-- a cost of so many units -/
  costOf : Float → κ
  /-- whether somebody has called the optimization off -/
  cancelled : Bool
  /-- the milliseconds that have passed after a number of runs of jobs in a stage -/
  clock : Nat → Nat
  /-- how many jobs a stage may run at most, far above what a search needs -/
  fuel : Nat

/-- Why a stage ends before its jobs have completed. -/
inductive StageEnd
  | exhausted (resource : Resource)
  | cheapEnough
  deriving DecidableEq, Repr

/-- The result of an optimization. -/
structure Optimized (κ : Type) where
  plan : Plan κ
  cost : κ
  stats : SearchStats
  groups : Nat
  exprs : Nat
  /-- contexts that were given up -/
  discarded : Nat

/-- The given rules in order, without repetition, and then all others. -/
def RuleId.orderFrom (first : List RuleId) : List RuleId :=
  (first ++ RuleId.all).foldl (fun acc r => if r ∈ acc then acc else acc ++ [r]) []

/-- The number of expressions at which the budget of a stage is spent that begins with so many. It is a word
of 64 bits: a sum that does not fit starts again at zero. -/
def SearchStage.budgetEnd (stage : SearchStage) (exprs : Nat) : Option Nat :=
  stage.maxAlternatives.map (fun n => (exprs + n) % UInt64.size)

namespace Search

variable [Zero κ] [Add κ] [LT κ] [DecidableLT κ]

/-- Whether the best plan is as cheap as a stage asks. -/
def isCheapEnough (setup : OptimizerSetup σ κ) (stage : SearchStage) (root : GroupId) (required : Required)
    (m : Memo σ κ) : Bool :=
  match stage.costThreshold, m.winner? root required with
  | some threshold, some (_, w) => !decide (setup.costOf threshold < w.cost)
  | _, _ => false

/-- Whether a stage has to end before the next job; `limit` is the number of expressions at which its
budget is spent. -/
def interrupt (setup : OptimizerSetup σ κ) (stage : SearchStage) (limit : Option Nat) (root : GroupId)
    (required : Required) (runs : Nat) (s : SearchState σ κ) : Except PlanError (Option StageEnd) :=
  if setup.cancelled then .error (.exhausted .cancelled "Optimization has been cancelled")
  else if stage.timeLimit.any (fun t => decide (t ≤ setup.clock runs)) then
    .ok (some (.exhausted .timeout))
  else if limit.any (fun n => decide (n ≤ s.memo.exprCount)) then
    .ok (some (.exhausted .alternativesBudget))
  else if isCheapEnough setup stage root required s.memo then .ok (some .cheapEnough)
  else .ok none

def environment (setup : OptimizerSetup σ κ) (stage : SearchStage) : SearchEnv σ κ where
  catalog := setup.catalog
  config := setup.config
  hints := setup.hints
  costModel := setup.costModel
  source := setup.source
  enabled := stage.rules \ setup.config.disabledRules
  order := setup.order

def runStage (setup : OptimizerSetup σ κ) (stage : SearchStage) (root : GroupId) (required : Required)
    (s : SearchState σ κ) : Outcome StageEnd × SearchState σ κ :=
  let limit := stage.budgetEnd s.memo.exprCount
  let job := SearchJob.optimizeGroup (s.memo.find root) required false []
  let (outcome, _, s) := Scheduler.run (jobs (environment setup stage))
    (interrupt setup stage limit root required) setup.fuel job .empty s
  (outcome, s)

def outOfFuel : PlanError := .internal "The search does not end"

/-- Runs stages until one finds a plan that is cheap enough. The answer is the resource the last
stage has run out of, if it has. -/
def runStages (setup : OptimizerSetup σ κ) (root : GroupId) (required : Required) :
    List SearchStage → Option Resource → SearchM σ κ (Option Resource)
  | [], exhausted => pure exhausted
  | stage :: rest, _ => do
    modify (fun s =>
      { s with
        memo := if s.stats.stages = 0 then s.memo else s.memo.resetSearch
        stats := { s.stats with stages := s.stats.stages + 1 } })
    let outcome ← modifyGet (runStage setup stage root required)
    match outcome with
    | .completed =>
      if isCheapEnough setup stage root required (← memo) then pure none
      else runStages setup root required rest none
    | .interrupted .cheapEnough => pure none
    | .interrupted (.exhausted r) => runStages setup root required rest (some r)
    | .failed e => throw e
    | .outOfFuel => throw outOfFuel

/-- Reads the result off after the search. -/
def result (s : SearchState σ κ) (root : GroupId) (required : Required) (exhausted : Option Resource) :
    Except PlanError (Optimized κ) :=
  match s.memo.winner? root required, exhausted with
  | some (id, w), _ => do
    let plan ← s.memo.plan id
    pure ⟨plan, w.cost, s.stats, s.memo.groupCount, s.memo.exprCount, s.memo.contexts.discarded⟩
  | none, some r => throw (.exhausted r "No plan has been found within the budget of the search")
  | none, none => throw (.unsupported ("No plan satisfies the required properties " ++ toString required))

end Search

open Search

/-- Optimizes a logical expression. The columns registered on the way stay registered. -/
def optimize [Zero κ] [Add κ] [LT κ] [DecidableLT κ] (setup : OptimizerSetup σ κ) (e : Expr)
    (required : Required) (columns : Columns) : Except PlanError (Optimized κ) × Columns :=
  let empty : Memo σ κ := .empty setup.config.verifyProperties (some setup.config.memoLimit)
  match empty.insert (setup.source columns) e with
  | (.error err, _) => (.error err, columns)
  | (.ok root, m) =>
    let (exhausted, s) := (runStages setup root required setup.config.searchStages none).run ⟨m, columns, .none⟩
    (exhausted.bind (result s root required), s.columns)

end Cascade
