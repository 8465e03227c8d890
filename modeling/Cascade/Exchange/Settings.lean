import Cascade.Config
import Cascade.Exchange.Basic
import Cascade.Hint
import Cascade.Rule.Pattern
/-!
What a search is told in the exchange format: rules, cost parameters, stages, the configuration,
hints and patterns.
-/

namespace Cascade

namespace Decode

def rule (x : Json) : Decoded RuleId := do
  fromPlanner (RuleId.ofName (← text x))

def rules (x : Json) : Decoded RuleSet := do
  return .ofList (← listOf rule x)

def costParams (x : Json) : Decoded CostParams := do
  let f (name : String) (d : Float) : Decoded Float := orElse d float (x.field name)
  let p : CostParams := {}
  let scanRow ← f "scan_row_cost" p.scanRow
  let indexScanRow ← f "index_scan_row_cost" p.indexScanRow
  let filterRow ← f "filter_row_cost" p.filterRow
  let computeRow ← f "compute_row_cost" p.computeRow
  let hashBuildRow ← f "hash_build_row_cost" p.hashBuildRow
  let hashProbeRow ← f "hash_probe_row_cost" p.hashProbeRow
  let aggregateRow ← f "aggregate_row_cost" p.aggregateRow
  let sortRow ← f "sort_row_cost" p.sortRow
  let nestedLoopRow ← f "nested_loop_row_cost" p.nestedLoopRow
  let motionSendRow ← f "motion_send_row_cost" p.motionSendRow
  let motionReceiveRow ← f "motion_receive_row_cost" p.motionReceiveRow
  let materializeRow ← f "materialize_row_cost" p.materializeRow
  let broadcastThreshold ← f "broadcast_threshold" p.broadcastThreshold
  let broadcastPenalty ← f "broadcast_penalty" p.broadcastPenalty
  let segments ← orElse p.segments nat (x.field "segments")
  let selectivityDamping ← f "selectivity_damping" p.selectivityDamping
  let defaultSelectivity ← f "default_selectivity" p.defaultSelectivity
  pure { scanRow, indexScanRow, filterRow, computeRow, hashBuildRow, hashProbeRow, aggregateRow, sortRow,
         nestedLoopRow, motionSendRow, motionReceiveRow, materializeRow, broadcastThreshold,
         broadcastPenalty, segments, selectivityDamping, defaultSelectivity }

def searchStage (x : Json) : Decoded SearchStage := do
  let rules ← orElse RuleSet.all rules (x.field "xforms")
  let timeLimit ← optional nat (x.field "time_limit_ms")
  let maxAlternatives ← optional nat (x.field "max_alternatives")
  let costThreshold ← optional float (x.field "cost_threshold")
  pure { rules, timeLimit, maxAlternatives, costThreshold }

def config (x : Json) : Decoded Config := do
  let d : Config := {}
  let cost ← costParams (x.field "cost")
  let disabledRules ← rules (x.field "disabled")
  let joinOrderThreshold ← orElse d.joinOrderThreshold nat (x.field "join_order_threshold")
  let subsetHashMatching ← orElse d.subsetHashMatching bool (x.field "subset_hash_matching")
  let stages ← listOf searchStage (x.field "stages")
  let memoLimit ← orElse d.memoLimit nat (x.field "memo_limit")
  let maxBindings ← orElse d.maxBindings nat (x.field "max_bindings")
  let verifyProperties ← orElse true bool (x.field "verify")
  let costPruning ← orElse d.costPruning bool (x.field "pruning")
  pure { cost, disabledRules, joinOrderThreshold, subsetHashMatching, stages, memoLimit, maxBindings,
         verifyProperties, costPruning }

def hints (x : Json) : Decoded Hints := do
  (← items x).foldlM (fun (h : Hints) item => do
    match ← items item with
    | [.str "scan", relation, hint] => do
      let relation ← text relation
      let hint ← oneOf [("SeqScan", Advice.use ScanMethod.seq), ("NoSeqScan", .avoid .seq),
        ("IndexScan", .use .index), ("NoIndexScan", .avoid .index)] hint
      pure (h.addScan relation hint)
    | [.str "join", aliases, hint] => do
      let aliases ← listOf text aliases
      let hint ← oneOf [("HashJoin", Advice.use JoinMethod.hash), ("NoHashJoin", .avoid .hash),
        ("NestLoop", .use .nestLoop), ("NoNestLoop", .avoid .nestLoop)] hint
      pure (h.addJoin (.ofList aliases) hint)
    | _ => badInput) .none

def kind : Json → Decoded LogicalKind :=
  oneOf [("Get", .get), ("Select", .select), ("Project", .project), ("Join", .join), ("NAryJoin", .naryJoin),
    ("Aggregate", .aggregate), ("Limit", .limit), ("UnionAll", .unionAll), ("Values", .values), ("Dml", .dml),
    ("Apply", .apply), ("CteAnchor", .cteAnchor), ("CteConsumer", .cteConsumer)]

mutual

/-- A pattern: the name of a leaf, a kind of operator with the patterns of its inputs, or a kind
whose inputs may be anything. -/
def pattern : Json → Decoded Pattern
  | .str "Leaf" => pure .leaf
  | .str "Tree" => pure .tree
  | .str "MultiLeaf" => pure .multiLeaf
  | .arr (k :: ps) => do
    let k ← kind k
    let ps ← patterns ps
    pure (.operator k ps)
  | .obj fields => Pattern.anyInputs <$> kind ((Json.obj fields).field "any")
  | _ => badInput

def patterns : List Json → Decoded (List Pattern)
  | [] => pure []
  | x :: xs => do
    let p ← pattern x
    let ps ← patterns xs
    pure (p :: ps)

end

end Decode

namespace Encode

def costParams (p : CostParams) : Json :=
  .obj [("scan_row_cost", float p.scanRow), ("index_scan_row_cost", float p.indexScanRow),
    ("filter_row_cost", float p.filterRow), ("compute_row_cost", float p.computeRow),
    ("hash_build_row_cost", float p.hashBuildRow), ("hash_probe_row_cost", float p.hashProbeRow),
    ("aggregate_row_cost", float p.aggregateRow), ("sort_row_cost", float p.sortRow),
    ("nested_loop_row_cost", float p.nestedLoopRow), ("motion_send_row_cost", float p.motionSendRow),
    ("motion_receive_row_cost", float p.motionReceiveRow), ("materialize_row_cost", float p.materializeRow),
    ("broadcast_threshold", float p.broadcastThreshold), ("broadcast_penalty", float p.broadcastPenalty),
    ("segments", nat p.segments), ("selectivity_damping", float p.selectivityDamping),
    ("default_selectivity", float p.defaultSelectivity)]

def searchStage (s : SearchStage) : Json :=
  .obj [("xforms", text s.rules), ("time_limit_ms", optional nat s.timeLimit),
    ("max_alternatives", optional nat s.maxAlternatives), ("cost_threshold", optional float s.costThreshold)]

def config (c : Config) : Json :=
  .obj [("cost", costParams c.cost), ("disabled", text c.disabledRules),
    ("join_order_threshold", nat c.joinOrderThreshold), ("subset_hash_matching", .bool c.subsetHashMatching),
    ("search_stages", list searchStage c.searchStages), ("memo_limit", nat c.memoLimit),
    ("max_bindings", nat c.maxBindings), ("verify", .bool c.verifyProperties), ("pruning", .bool c.costPruning)]

end Encode

end Cascade
