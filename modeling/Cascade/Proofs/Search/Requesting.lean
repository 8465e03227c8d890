import Cascade.Proofs.Search.Marks
import Cascade.Proofs.Search.Requests

/-!
Runs of a job that optimizes an expression. It goes through the requests of its operator. A request takes the winner
it has waited for and goes on to the next input, or it is finished, and the next one begins with the inputs released
(`yields_requestsRun`).
-/

namespace Cascade

open Memo Search

variable {σ κ : Type}

/-- What a request has after it has received the input it waits for, whether it goes on, and the memo then. It is given
up if the input has no winner, or if its expression has one already. -/
inductive Received (id : ExprId) (required : Required) (m : Memo σ κ) (q : RequestProgress) :
    RequestProgress → Bool → Memo σ κ → Prop
  | nothing (h : q.awaiting = none) : Received id required m q q true m
  | refused {asked : Required} {group : GroupId} (h : q.awaiting = some asked)
    (hgroup : inputGroup m id q.inputs.length = .ok group) (hwinner : m.winner? group asked = none) :
    Received id required m q { q with awaiting := none } false m
  | chosen {goesOn : Bool} {asked : Required} {group : GroupId} {winner : ContextId} {context : CostContext κ}
    {n : Memo σ κ} {e : MemoExpr} (h : q.awaiting = some asked) (hgroup : inputGroup m id q.inputs.length = .ok group)
    (hwinner : m.winner? group asked = some (winner, context)) (hpin : m.pin winner = .ok n)
    (he : n.expr? id = some e) (hpruned : goesOn = false → n.winner? e.group required ≠ none) :
    Received id required m q
      { q with awaiting := none, inputs := q.inputs ++ [winner], derived := q.derived ++ [context.derived] } goesOn n

section

variable (env : SearchEnv σ κ) (id : ExprId) (op : PhysicalOp) (required : Required)

/-- Why a request comes to nothing: it is given up, its operator asks nothing of the next input, or what the expression
provides cannot be made to meet the requirement. -/
inductive Fruitless (n : Memo σ κ) (r : RequestProgress) : Bool → Prop
  | givenUp : Fruitless n r false
  | unasked {e : MemoExpr} {p : Position} (he : n.expr? id = some e) (hp : position n e required = .ok p)
    (hplace : r.inputs.length < e.inputs.length)
    (hasked : op.requiredInput p r.request r.inputs.length r.derived = none) : Fruitless n r true
  | unmet {e : MemoExpr} (he : n.expr? id = some e) (hlength : e.inputs.length ≤ r.inputs.length)
    (hbuild : buildContext env n id e op required r = .ok none) : Fruitless n r true

/-- The run of a request until it waits for another input or is finished; a finished one may offer a context. -/
inductive RequestRun [Zero κ] [Add κ] [LT κ] [DecidableLT κ] (m : Memo σ κ) (q : RequestProgress) :
    RequestStep → Memo σ κ → Prop
  | awaits {r : RequestProgress} {n : Memo σ κ} {e : MemoExpr} {p : Position} {g : GroupId} {asked : Required}
    (h : Received id required m q r true n) (he : n.expr? id = some e) (hp : position n e required = .ok p)
    (hplace : r.inputs.length < e.inputs.length)
    (hasked : op.requiredInput p r.request r.inputs.length r.derived = some asked)
    (hgroup : inputGroup n id r.inputs.length = .ok g) :
    RequestRun m q (.await { r with awaiting := some asked } g asked) n
  | fruitless {r : RequestProgress} {goesOn : Bool} {n : Memo σ κ} (h : Received id required m q r goesOn n)
    (hwhy : Fruitless env id op required n r goesOn) : RequestRun m q (.finished r) n
  | offers {r : RequestProgress} {n o : Memo σ κ} {e : MemoExpr} {context : CostContext κ} {added : Option ContextId}
    (h : Received id required m q r true n) (he : n.expr? id = some e) (hlength : e.inputs.length ≤ r.inputs.length)
    (hbuild : buildContext env n id e op required r = .ok (some context))
    (hadd : n.addContext context = .ok (added, o)) : RequestRun m q (.finished r) o

/-- The run of so many requests. -/
inductive RequestsRun [Zero κ] [Add κ] [LT κ] [DecidableLT κ] :
    Nat → RequestProgress → Memo σ κ → Step SearchJob → Memo σ κ → Prop
  | done {q : RequestProgress} {m : Memo σ κ} : RequestsRun 0 q m .done (m.markExprOptimized id required)
  | awaits {remaining : Nat} {q r : RequestProgress} {m n : Memo σ κ} {g : GroupId} {asked : Required}
    (h : RequestRun env id op required m q (.await r g asked) n) :
    RequestsRun (remaining + 1) q m
      (.spawn (.optimizeExpr id required (some r)) [.optimizeGroup g asked false []]) n
  | next {remaining : Nat} {q r : RequestProgress} {m n o : Memo σ κ} {step : Step SearchJob}
    (h : RequestRun env id op required m q (.finished r) n)
    (rest : RequestsRun remaining ⟨r.request + 1, [], [], none⟩ (releaseInputs r.inputs n) step o) :
    RequestsRun (remaining + 1) q m step o

end

/-- The run of a job that optimizes an expression: it has been done before, or it goes through the requests that are
left, all of them if it is the first run. -/
inductive OptimizeRun [Zero κ] [Add κ] [LT κ] [DecidableLT κ] (env : SearchEnv σ κ) (id : ExprId)
    (required : Required) (m : Memo σ κ) : Option RequestProgress → Step SearchJob → Memo σ κ → Prop
  | settled (h : m.Settled (.optimizeExpr id required)) : OptimizeRun env id required m none .done m
  | first {op : PhysicalOp} {step : Step SearchJob} {n : Memo σ κ} (hop : HasOp m id op)
    (hnew : ¬ m.Settled (.optimizeExpr id required))
    (h : RequestsRun env id op required op.requestCount ⟨0, [], [], none⟩ m step n) :
    OptimizeRun env id required m none step n
  | resumed {op : PhysicalOp} {q : RequestProgress} {step : Step SearchJob} {n : Memo σ κ} (hop : HasOp m id op)
    (h : RequestsRun env id op required (op.requestCount - q.request) q m step n) :
    OptimizeRun env id required m (some q) step n

section

variable [Zero κ] [Add κ] [LT κ] [DecidableLT κ] (env : SearchEnv σ κ) {id : ExprId} {op : PhysicalOp}
  {required : Required}

theorem winner_of_canBePruned {m : Memo σ κ} {e : MemoExpr} {inputs : List ContextId}
    (h : canBePruned env m e op required inputs = .ok true) : m.winner? e.group required ≠ none := by
  intro hnone
  unfold canBePruned at h
  split at h
  · cases h
  · rw [hnone] at h
    cases h

theorem yields_received (q : RequestProgress) (s : SearchState σ κ) :
    Yields (receiveInput env id op required q) s (fun r t => Received id required s.memo q r.1 r.2 t.memo) (fun _ _ => True) := by
  unfold receiveInput
  split
  · rename_i h
    exact .of_pure (.nothing h)
  · rename_i asked h
    refine .bind_memo (.bind_lift (fun group hgroup => ?_) fun _ _ => trivial)
    split
    · rename_i hwinner
      exact .of_pure (.refused h hgroup hwinner)
    · rename_i winner context hwinner
      refine .bind_lift (fun n hpin => ?_) fun _ _ => trivial
      refine .bind_modifyMemo (.bind_lift (fun e he => .bind_lift (fun pruned hpruned => ?_) fun _ _ => trivial)
        fun _ _ => trivial)
      cases pruned with
      | true =>
        refine .bind_modify (.of_pure (.chosen h hgroup hwinner hpin (expr_ok he) fun _ => ?_))
        exact winner_of_canBePruned env hpruned
      | false => exact .of_pure (.chosen h hgroup hwinner hpin (expr_ok he) nofun)

theorem yields_requestRun (q : RequestProgress) (s : SearchState σ κ) :
    Yields (continueRequest env id op required q) s (fun r t => RequestRun env id op required s.memo q r t.memo)
      (fun _ _ => True) := by
  unfold continueRequest
  refine (yields_received env q s).bind ?_
  rintro ⟨r, goesOn⟩ t (h : Received id required s.memo q r goesOn t.memo)
  cases goesOn with
  | false => exact .of_pure (.fruitless h .givenUp)
  | true =>
    refine .bind_memo (.bind_lift (fun e he => ?_) fun _ _ => trivial)
    dsimp only
    split
    · rename_i hplace
      refine .bind_lift (fun p hp => ?_) fun _ _ => trivial
      split
      · rename_i hasked
        exact .of_pure (.fruitless h (.unasked (expr_ok he) hp hplace hasked))
      · rename_i asked hasked
        exact .bind_lift (fun g hg => .of_pure (.awaits h (expr_ok he) hp hplace hasked hg)) fun _ _ => trivial
    · rename_i hplace
      have hlength := Nat.le_of_not_lt hplace
      refine .bind_lift (fun built hbuilt => ?_) fun _ _ => trivial
      cases built with
      | none => exact .of_pure (.fruitless h (.unmet (expr_ok he) hlength hbuilt))
      | some context =>
        refine .bind_lift (fun added hadd => ?_) fun _ _ => trivial
        exact .bind_modifyMemo (.of_pure (.offers h (expr_ok he) hlength hbuilt hadd))

theorem yields_requestsRun (remaining : Nat) (q : RequestProgress) (s : SearchState σ κ) :
    Yields (runRequests env id op required remaining q) s
      (fun step t => RequestsRun env id op required remaining q s.memo step t.memo) (fun _ _ => True) := by
  induction remaining generalizing q s with
  | zero => exact .bind_modifyMemo (.of_pure .done)
  | succ remaining ih =>
    unfold runRequests
    refine (yields_requestRun env q s).bind fun r t h => ?_
    cases r with
    | await r g asked => exact .of_pure (.awaits h)
    | finished r =>
      refine .bind_modifyMemo ((ih _ _).mono (fun step u hrest => ?_) fun _ _ _ => trivial)
      exact .next h hrest

theorem yields_optimizeRun (id : ExprId) (required : Required) (progress : Option RequestProgress)
    (s : SearchState σ κ) :
    Yields (runOptimizeExpr env id required progress) s
      (fun step t => OptimizeRun env id required s.memo progress step t.memo) (fun _ _ => True) := by
  refine .bind_memo (.bind_lift (fun e he => ?_) fun _ _ => trivial)
  have he := expr_ok he
  split
  · exact .of_throw trivial
  · rename_i op hop
    split
    · rename_i hdone
      exact .of_pure (.settled (forall_of_eq_some he hdone))
    · rename_i hnew
      refine (yields_requestsRun env _ _ s).mono (fun step t h => ?_) fun _ _ _ => trivial
      exact .first ⟨e, he, physical?_eq_some hop⟩ (fun hs => hnew (hs e he)) h
  · rename_i op q hop
    refine (yields_requestsRun env _ _ s).mono (fun step t h => ?_) fun _ _ _ => trivial
    exact .resumed ⟨e, he, physical?_eq_some hop⟩ h

end

end Cascade
