import Cascade.Proofs.Search.Pins
import Cascade.Proofs.Search.Termination
import Cascade.Proofs.Memo.Reinsertion

/-!
Applications of rules. The runs that apply a rule are told from others by what they count (`applied`). Through all
runs of jobs, in whatever order, and through merges, stages and interruptions, no rule is applied to the same
expression twice, and what is recorded of the expressions is just what was applied (`Invoked.appliedOnce`).
-/

namespace Cascade

open Memo Search Scheduler

variable {σ κ : Type}

/-- What the run of a job has applied: its rule, if the run counts one more application. -/
def SearchJob.applied (s t : SearchState σ κ) : SearchJob → List (ExprId × RuleId)
  | .applyRule e r => if s.stats.ruleApplications < t.stats.ruleApplications then [(e, r)] else []
  | _ => []

/-- What is recorded and counted, if rules were applied to expressions in this order. -/
structure AppliedOnce (log : List (ExprId × RuleId)) (s : SearchState σ κ) : Prop where
  /-- no rule was applied to an expression twice -/
  nodup : log.Nodup
  /-- of each expression just the rules applied to it are recorded -/
  recorded_iff : ∀ e r, s.memo.wasApplied e r = true ↔ (e, r) ∈ log
  /-- all records count, those of removed expressions too -/
  count_eq : s.stats.ruleApplications = total (s.memo.exprs.map (fun e => e.applied.size))

/-- A search has come to a state after these applications of rules: a tree was inserted, and then jobs were run, each
of them without an error, others were given up and stages were begun, in any order. -/
inductive Invoked [Zero κ] [Add κ] [LT κ] [DecidableLT κ] : List (ExprId × RuleId) → SearchState σ κ → Prop
  | inserted {verify : Bool} {limit : Option Nat} {source : PropertySource σ} {e : Expr} {root : GroupId} {m : Memo σ κ}
    (columns : Columns) (h : (Memo.empty verify limit : Memo σ κ).insert source e = (.ok root, m)) :
    Invoked [] ⟨m, columns, .none⟩
  | run {log : List (ExprId × RuleId)} {env : SearchEnv σ κ} {job : SearchJob} {step : Step SearchJob} {s t : SearchState σ κ}
    (h : Invoked log s) (hrun : (runJob env job).run s = (.ok step, t)) : Invoked (log ++ job.applied s t) t
  | abandon {log : List (ExprId × RuleId)} {s : SearchState σ κ} (h : Invoked log s) (job : SearchJob) :
    Invoked log (abandonJob job s)
  | nextStage {log : List (ExprId × RuleId)} {s : SearchState σ κ} (h : Invoked log s) : Invoked log (nextStage s)

section

variable {m n : Memo σ κ}

theorem Memo.wasApplied_iff {e : ExprId} {r : RuleId} :
    m.wasApplied e r = true ↔ ∃ a, m.applications[e.index]? = some a ∧ r ∈ a := by
  unfold wasApplied applications expr?
  rw [List.getElem?_map]
  cases m.exprs[e.index]? <;> simp

end

/-! Insertions apply no rules: what they add has none applied to it. -/

namespace Memo

/-- The second memo has more expressions than the first one, to which no rules were applied. -/
def Fresh (m n : Memo σ κ) : Prop := ∃ k, n.applications = m.applications ++ List.replicate k ∅

section

variable {m n o : Memo σ κ}

theorem Fresh.of_eq (h : n.applications = m.applications) : Fresh m n := ⟨0, by simpa using h⟩

theorem Fresh.trans (h : Fresh m n) (k : Fresh n o) : Fresh m o := by
  obtain ⟨i, hi⟩ := h
  obtain ⟨j, hj⟩ := k
  exact ⟨i + j, by rw [hj, hi, List.append_assoc, List.replicate_append_replicate]⟩

theorem fresh_addExpr (m : Memo σ κ) (g : GroupId) (key : ExprKey) : Fresh m (m.addExpr g key).2 :=
  ⟨1, by simp [applications, Memo.addExpr, modifyGroup]⟩

theorem Fresh.wasApplied_iff (h : Fresh m n) (e : ExprId) (r : RuleId) :
    n.wasApplied e r = true ↔ m.wasApplied e r = true := by
  obtain ⟨k, hk⟩ := h
  rw [Memo.wasApplied_iff, Memo.wasApplied_iff, hk, List.getElem?_append]
  split
  · rfl
  · rename_i hlt
    rw [List.getElem?_eq_none (l := m.applications) (by omega), List.getElem?_replicate]
    constructor
    · rintro ⟨a, ha, hr⟩
      split at ha
      · cases ha
        cases hr
      · cases ha
    · rintro ⟨_, ⟨⟩, _⟩

theorem Fresh.total_eq (h : Fresh m n) :
    total (n.exprs.map (fun e => e.applied.size)) = total (m.exprs.map (fun e => e.applied.size)) := by
  obtain ⟨k, hk⟩ := h
  have hsize : ∀ m : Memo σ κ, m.exprs.map (fun e => e.applied.size) = m.applications.map SortedSet.size := fun m => by
    unfold applications
    rw [List.map_map]
    rfl
  rw [hsize, hsize, hk, List.map_append, total_append, List.map_replicate, total_eq_zero (l := List.replicate ..)]
  · rfl
  · intro n hn
    exact (List.mem_replicate.1 hn).2

end

section

variable {m : Memo σ κ} {s : Insertion σ κ} (source : PropertySource σ)

theorem yields_place_fresh (target : Option GroupId) (key : ExprKey) (s : Insertion σ κ) :
    Yields (place source target key : InsertM σ κ Placed) s (fun _ u => Fresh s.memo u.memo) (fun _ _ => True) := by
  unfold place
  refine .bind_get ?_
  dsimp only
  split
  · refine .bind_lift (fun _ _ => ?_) (fun _ _ => trivial)
    refine .bind ((memo_requestMerge target _ s).mono (fun _ _ => id) fun _ _ h => h.elim) ?_
    rintro _ u hu
    exact .of_pure (.of_eq (by rw [hu]))
  · refine .bind_lift (fun _ _ => ?_) (fun _ _ => trivial)
    refine .bind (Q := fun _ u => u.memo.applications = s.memo.applications) ?_ ?_
    · unfold chooseGroup
      refine .bind_get ?_
      split
      · refine .bind_lift (fun _ _ => ?_) (fun _ _ => trivial)
        exact .of_lift (fun _ _ => rfl) (fun _ _ => trivial)
      · exact .of_lift (fun _ _ => rfl) (fun _ _ => trivial)
      · refine .bind_lift (fun built _ => ?_) (fun _ _ => trivial)
        exact .bind_set (.of_pure rfl)
      · exact .of_throw trivial
    · rintro g u hu
      exact .of_modifyGet ((Fresh.of_eq hu).trans (fresh_addExpr u.memo g key))

mutual

theorem yields_copyIn_fresh (target : Option GroupId) (depth : Nat) :
    ∀ (e : Expr) (s : Insertion σ κ),
      Yields (copyIn source target depth e : InsertM σ κ Placed) s (fun _ u => Fresh s.memo u.memo) (fun _ _ => True)
  | .group g, s => by
    unfold copyIn
    refine .bind_lift (fun _ _ => ?_) (fun _ _ => trivial)
    refine .bind_get (.bind_lift (fun _ _ => ?_) (fun _ _ => trivial))
    refine .bind ((memo_requestMerge target _ s).mono (fun _ _ => id) fun _ _ h => h.elim) ?_
    rintro _ u hu
    exact .of_pure (.of_eq (by rw [hu]))
  | .node (.physical op) inputs, s => by
    unfold copyIn
    refine .bind_lift (fun _ _ => ?_) (fun _ _ => trivial)
    refine .bind_lift (fun _ _ => ?_) (fun _ _ => trivial)
    refine .bind_get (.bind_lift (fun _ _ => ?_) (fun _ _ => trivial))
    exact yields_place_fresh source target _ s
  | .node (.logical op) inputs, s => by
    unfold copyIn
    refine .bind_lift (fun _ _ => ?_) (fun _ _ => trivial)
    refine .bind_lift (fun _ _ => ?_) (fun _ _ => trivial)
    refine .bind (yields_copyInputs_fresh (depth + 1) (producedCte? op) inputs s) ?_
    intro groups u hu
    exact (yields_place_fresh source target _ u).mono (fun _ _ => hu.trans) fun _ _ _ => trivial

theorem yields_copyInputs_fresh (depth : Nat) (cte : Option CteId) :
    ∀ (es : List Expr) (s : Insertion σ κ),
      Yields (copyInputs source depth cte es : InsertM σ κ (List GroupId)) s (fun _ u => Fresh s.memo u.memo)
        (fun _ _ => True)
  | [], s => by
    unfold copyInputs
    exact .of_pure (.of_eq rfl)
  | e :: es, s => by
    unfold copyInputs
    refine .bind (yields_copyIn_fresh none depth e s) ?_
    intro placed u hu
    have hregister : Yields (registerProducer cte placed.group : InsertM σ κ Unit) u
        (fun _ v => v.memo.applications = u.memo.applications) (fun _ _ => True) := by
      cases cte with
      | none => exact .of_pure rfl
      | some cte =>
        unfold registerProducer
        refine .of_modify ?_
        split <;> rfl
    refine hregister.bind fun _ v hv => ?_
    refine .bind (yields_copyInputs_fresh depth none es v) ?_
    intro groups w hw
    exact .of_pure (hu.trans ((Fresh.of_eq hv).trans hw))

end

variable [LT κ] [DecidableLT κ]

theorem fresh_insertAt (w : m.WellFormed) {target : Option GroupId} (htarget : ∀ t, target = some t → m.find t = t)
    (e : Expr) : Fresh m (m.insertAt source target e).2 := by
  rcases insertAt_cases source e w htarget with ⟨err, heq⟩ | ⟨placed, s, n, hrun, heq, hn⟩
  · rw [heq]
    exact .of_eq rfl
  · rw [heq]
    exact ((yields_copyIn_fresh source target 0 e ⟨m, [], []⟩).of_ok hrun).trans (.of_eq hn.progress.applied_eq)

end

end Memo

section

variable {m n : Memo σ κ}

theorem Insertions.fresh [LT κ] [DecidableLT κ] (h : Insertions m n) (w : m.WellFormed) : n.WellFormed ∧ Fresh m n := by
  induction h with
  | refl => exact ⟨w, .of_eq rfl⟩
  | @insert n _ source g e ih =>
    exact ⟨(inherits_insertAt source e ih.1 (n.target_find g)).2,
      ih.2.trans (fresh_insertAt source ih.1 (n.target_find g) e)⟩

/-! Jobs of other kinds record no applications. -/

theorem PlainStep.quietly {env : SearchEnv σ κ} {job : SearchJob} {step : Step SearchJob}
    (h : PlainStep env m job step n) (hplain : ∀ e r, job.key ≠ .applyRule e r) : Quiet m n := by
  cases h with
  | settled => exact .refl m
  | settles => exact quiet_settle m hplain
  | asks => exact .refl m

theorem Received.quiet {id : ExprId} {required : Required} {q r : RequestProgress} {goesOn : Bool}
    (h : Received id required m q r goesOn n) : Quiet m n := by
  cases h with
  | nothing => exact .refl m
  | refused => exact .refl m
  | chosen _ _ _ hpin => exact quiet_pin hpin

theorem quiet_releaseInputs (inputs : List ContextId) (m : Memo σ κ) : Quiet m (releaseInputs inputs m) := by
  induction inputs generalizing m with
  | nil => exact .refl m
  | cons i inputs ih => exact (quiet_contexts m _).trans (ih _)

variable [Zero κ] [Add κ] [LT κ] [DecidableLT κ] {env : SearchEnv σ κ} {id : ExprId} {op : PhysicalOp}
  {required : Required}

theorem RequestRun.quiet {q : RequestProgress} {x : RequestStep} (h : RequestRun env id op required m q x n) :
    Quiet m n := by
  cases h with
  | awaits h => exact h.quiet
  | fruitless h => exact h.quiet
  | offers h _ _ _ hadd => exact h.quiet.trans (quiet_addContext hadd)

theorem RequestsRun.quietly {remaining : Nat} {q : RequestProgress} {step : Step SearchJob}
    (h : RequestsRun env id op required remaining q m step n) : Quiet m n := by
  induction h with
  | @done _ m => exact quiet_settle m (k := .optimizeExpr id required) nofun
  | awaits h => exact h.quiet
  | next h _ ih => exact h.quiet.trans ((quiet_releaseInputs _ _).trans ih)

/-- A run leaves the records of applied rules alone, unless its rule is not recorded yet. -/
theorem JobStep.recorded {job : SearchJob} {step : Step SearchJob} (h : JobStep env m job step n) :
    (Quiet m n ∧ ∀ e r, job = .applyRule e r → m.wasApplied e r = true) ∨
      ∃ e r x, job = .applyRule e r ∧ m.expr? e = some x ∧ r ∉ x.applied ∧ Insertions (m.markApplied e r) n := by
  cases job with
  | applyRule e r =>
    cases h with
    | settled hdone =>
      refine .inl ⟨.refl m, ?_⟩
      rintro _ _ ⟨⟩
      exact hdone
    | applied he hnew _ h => exact .inr ⟨e, r, _, rfl, he, hnew, h.insertions .refl⟩
  | optimizeExpr e required progress =>
    refine .inl ⟨?_, nofun⟩
    cases h with
    | settled => exact .refl m
    | first _ _ h => exact h.quietly
    | resumed _ h => exact h.quietly
  | _ => exact .inl ⟨PlainStep.quietly h nofun, nofun⟩

end

/-! What jobs count. -/

section

variable {env : SearchEnv σ κ} {s : SearchState σ κ}

/-- A step counts so many applications of rules. -/
abbrev Counts {α : Type} (x : SearchM σ κ α) (s : SearchState σ κ) (k : Nat) : Prop :=
  Yields x s (fun _ t => t.stats.ruleApplications = s.stats.ruleApplications + k) (fun _ _ => True)

theorem Counts.bind {α β : Type} {x : SearchM σ κ α} {f : α → SearchM σ κ β} {k : Nat} (h : Counts x s 0)
    (hf : ∀ a t, Counts (f a) t k) : Counts (x >>= f) s k := by
  refine Yields.bind h fun a t ht => (hf a t).mono (fun _ u hu => ?_) fun _ _ h => h
  rw [hu, ht, Nat.add_zero]

theorem counts_modifyMemo {α : Type} {f : Memo σ κ → Memo σ κ} {a : α} :
    Counts (do modifyMemo f; pure a) s 0 := .bind_modifyMemo (.of_pure rfl)

theorem counts_candidates (id : ExprId) (exploration : Bool) : Counts (candidates env id exploration) s 0 :=
  .bind_memo (.bind_lift (fun _ _ => .of_pure rfl) fun _ _ => trivial)

theorem counts_runExploreGroup (group : GroupId) (spawned : List ExprId) : Counts (runExploreGroup group spawned) s 0 := by
  refine .bind_memo (.bind_lift (fun x _ => ?_) fun _ _ => trivial)
  split
  · exact .of_pure rfl
  · split
    · exact counts_modifyMemo
    · exact .of_pure rfl

theorem counts_implementMembers (group : GroupId) (spawned : List ExprId) : Counts (implementMembers group spawned) s 0 := by
  refine .bind_memo ?_
  split
  · exact counts_modifyMemo
  · exact .of_pure rfl

theorem counts_runImplementGroup (group : GroupId) (explored : Bool) (spawned : List ExprId) :
    Counts (runImplementGroup group explored spawned) s 0 := by
  unfold runImplementGroup
  split
  · exact counts_implementMembers group spawned
  · refine .bind_memo (.bind_lift (fun content _ => ?_) fun _ _ => trivial)
    split
    · exact .of_pure rfl
    · split
      · exact counts_implementMembers group spawned
      · exact .of_pure rfl

theorem counts_optimizeMembers (group : GroupId) (required : Required) (spawned : List ExprId) :
    Counts (optimizeMembers group required spawned) s 0 := by
  refine .bind_memo ?_
  split
  · exact counts_modifyMemo
  · exact .of_pure rfl

theorem counts_runOptimizeGroup (group : GroupId) (required : Required) (implemented : Bool) (spawned : List ExprId) :
    Counts (runOptimizeGroup group required implemented spawned) s 0 := by
  unfold runOptimizeGroup
  split
  · exact counts_optimizeMembers group required spawned
  · refine .bind_memo (.bind_lift (fun content _ => ?_) fun _ _ => trivial)
    split
    · exact .of_pure rfl
    · split
      · exact counts_optimizeMembers group required spawned
      · exact .of_pure rfl

theorem counts_runImplementExpr (id : ExprId) (started : Bool) : Counts (runImplementExpr env id started) s 0 := by
  refine .bind_memo (.bind_lift (fun e _ => ?_) fun _ _ => trivial)
  split
  · exact counts_modifyMemo
  · split
    · exact .of_pure rfl
    · refine (counts_candidates id false).bind fun rules t => ?_
      split
      · exact counts_modifyMemo
      · exact .of_pure rfl

theorem counts_applyExplorationRules (id : ExprId) : Counts (applyExplorationRules env id) s 0 := by
  refine (counts_candidates id true).bind fun rules t => ?_
  split
  · exact counts_modifyMemo
  · exact .of_pure rfl

theorem counts_runExploreExpr (id : ExprId) (step : ExploreStep) : Counts (runExploreExpr env id step) s 0 := by
  cases step with
  | start =>
    refine .bind_memo (.bind_lift (fun e _ => ?_) fun _ _ => trivial)
    split
    · exact .of_pure rfl
    · split
      · exact counts_applyExplorationRules id
      · exact .of_pure rfl
  | inputsExplored => exact counts_applyExplorationRules id
  | rulesApplied => exact counts_modifyMemo

section

variable [Zero κ] [Add κ] [LT κ] [DecidableLT κ] {id : ExprId} {op : PhysicalOp} {required : Required}

theorem counts_receiveInput (q : RequestProgress) : Counts (receiveInput env id op required q) s 0 := by
  unfold receiveInput
  split
  · exact .of_pure rfl
  · refine .bind_memo (.bind_lift (fun group _ => ?_) fun _ _ => trivial)
    split
    · exact .of_pure rfl
    · refine .bind_lift (fun n _ => .bind_modifyMemo (.bind_lift (fun _ _ => ?_) fun _ _ => trivial)) fun _ _ => trivial
      refine .bind_lift (fun pruned _ => ?_) fun _ _ => trivial
      cases pruned with
      | true => exact .bind_modify (.of_pure rfl)
      | false => exact .of_pure rfl

theorem counts_continueRequest (q : RequestProgress) : Counts (continueRequest env id op required q) s 0 := by
  unfold continueRequest
  refine (counts_receiveInput q).bind ?_
  rintro ⟨r, goesOn⟩ t
  cases goesOn with
  | false => exact .of_pure rfl
  | true =>
    refine .bind_memo (.bind_lift (fun e _ => ?_) fun _ _ => trivial)
    dsimp only
    split
    · refine .bind_lift (fun p _ => ?_) fun _ _ => trivial
      split
      · exact .of_pure rfl
      · exact .bind_lift (fun _ _ => .of_pure rfl) fun _ _ => trivial
    · refine .bind_lift (fun built _ => ?_) fun _ _ => trivial
      cases built with
      | none => exact .of_pure rfl
      | some context => exact .bind_lift (fun _ _ => .bind_modifyMemo (.of_pure rfl)) fun _ _ => trivial

theorem counts_runRequests (remaining : Nat) (q : RequestProgress) :
    Counts (runRequests env id op required remaining q) s 0 := by
  induction remaining generalizing q s with
  | zero => exact counts_modifyMemo
  | succ remaining ih =>
    unfold runRequests
    refine (counts_continueRequest q).bind fun r t => ?_
    cases r with
    | await => exact .of_pure rfl
    | finished r => exact .bind_modifyMemo (ih (s := { t with memo := releaseInputs r.inputs t.memo }) _)

theorem counts_runOptimizeExpr (progress : Option RequestProgress) :
    Counts (runOptimizeExpr env id required progress) s 0 := by
  refine .bind_memo (.bind_lift (fun e _ => ?_) fun _ _ => trivial)
  split
  · exact .of_throw trivial
  · split
    · exact .of_pure rfl
    · exact counts_runRequests _ _
  · exact counts_runRequests _ _

end

variable [LT κ] [DecidableLT κ]

theorem counts_insertAlternatives (group : GroupId) (alternatives : List Expr) :
    Counts (alternatives.forM (insertAlternative env group)) s 0 := by
  induction alternatives generalizing s with
  | nil => exact .of_pure rfl
  | cons e es ih =>
    have hinsert : Counts (insertAlternative env group e) s 0 := by
      refine .bind_get (.bind_set (.bind_lift (fun placed _ => ?_) fun _ _ => trivial))
      split
      · exact .of_modify rfl
      · exact .of_pure rfl
    exact hinsert.bind fun _ _ => ih

/-- A rule counts once, if it is not recorded yet. -/
theorem counts_runApplyRule (id : ExprId) (rule : RuleId) :
    Counts (runApplyRule env id rule) s (if s.memo.wasApplied id rule then 0 else 1) := by
  refine .bind_memo ?_
  split
  · exact .of_pure rfl
  · refine .bind_modifyMemo (.bind_memo (.bind_lift (fun f _ => ?_) fun _ _ => trivial))
    have hrule : Counts (liftRule ((rule.rule (σ := σ) (κ := κ)).alternatives
        (ruleContext env ((s.memo.markApplied id rule).find f.group) (s.memo.markApplied id rule)) id))
        { s with memo := s.memo.markApplied id rule } 0 :=
      .bind_get (.bind_modify (.of_lift (fun _ _ => rfl) fun _ _ => trivial))
    refine hrule.bind fun alternatives t => .bind_modify ?_
    refine Yields.bind (Q := fun _ u => u.stats.ruleApplications = t.stats.ruleApplications + 1) ?_ fun _ _ hu => .of_pure hu
    refine (counts_insertAlternatives _ alternatives).mono (fun _ u hu => ?_) fun _ _ h => h
    exact hu

theorem counts_runJob [Zero κ] [Add κ] (job : SearchJob) : Counts (runJob env job) s
    (match job with | .applyRule e r => if s.memo.wasApplied e r then 0 else 1 | _ => 0) := by
  refine .bind_modify ?_
  cases job with
  | optimizeGroup g r implemented spawned => exact counts_runOptimizeGroup g r implemented spawned
  | implementGroup g explored spawned => exact counts_runImplementGroup g explored spawned
  | exploreGroup g spawned => exact counts_runExploreGroup g spawned
  | implementExpr e started => exact counts_runImplementExpr e started
  | exploreExpr e step => exact counts_runExploreExpr e step
  | applyRule e r => exact counts_runApplyRule e r
  | optimizeExpr e r progress => exact counts_runOptimizeExpr progress

end

section

variable {log : List (ExprId × RuleId)} {s t : SearchState σ κ}

/-- What is recorded and counted is no other after a step that applies no rule. -/
theorem AppliedOnce.fresh (h : AppliedOnce log s) (hm : Fresh s.memo t.memo)
    (hcount : t.stats.ruleApplications = s.stats.ruleApplications) : AppliedOnce log t where
  nodup := h.nodup
  recorded_iff e r := (hm.wasApplied_iff e r).trans (h.recorded_iff e r)
  count_eq := by rw [hcount, h.count_eq, hm.total_eq]

theorem Memo.wasApplied_markApplied {m : Memo σ κ} {e : ExprId} {r : RuleId} {x : MemoExpr} (he : m.expr? e = some x)
    (i : ExprId) (q : RuleId) :
    (m.markApplied e r).wasApplied i q = true ↔ m.wasApplied i q = true ∨ (i, q) = (e, r) := by
  have hexpr : (m.markApplied e r).expr? i = _ := expr?_modifyExpr m e _ i
  unfold wasApplied
  rw [hexpr]
  by_cases hi : i = e
  · subst hi
    rw [he]
    simp [SortedSet.mem_insert, or_comm]
  · cases m.expr? i <;> simp [hi]

/-- A rule that was not recorded is recorded, and counts. -/
theorem AppliedOnce.mark (h : AppliedOnce log s) {e : ExprId} {r : RuleId} {x : MemoExpr} (he : s.memo.expr? e = some x)
    (hnew : r ∉ x.applied) (hm : t.memo = s.memo.markApplied e r)
    (hcount : t.stats.ruleApplications = s.stats.ruleApplications + 1) : AppliedOnce (log ++ [(e, r)]) t where
  nodup := by
    refine List.nodup_append.2 ⟨h.nodup, List.nodup_singleton _, ?_⟩
    rintro _ hmem _ hlast rfl
    obtain rfl := List.mem_singleton.1 hlast
    have hrecorded := (h.recorded_iff e r).2 hmem
    simp [wasApplied, he, hnew] at hrecorded
  recorded_iff i q := by
    rw [hm, wasApplied_markApplied he, h.recorded_iff, List.mem_append, List.mem_singleton]
  count_eq := by
    have htotal := total_map_modify (fun x : MemoExpr => x.applied.size)
      (fun x => { x with applied := x.applied.insert r }) (show s.memo.exprs[e.index]? = some x from he)
    rw [hcount, h.count_eq, hm]
    have hsize := SortedSet.size_insert hnew
    unfold markApplied modifyExpr
    dsimp only at htotal ⊢
    omega

theorem quiet_abandonJob (job : SearchJob) (s : SearchState σ κ) :
    Quiet s.memo (abandonJob job s).memo ∧ (abandonJob job s).stats = s.stats := by
  unfold abandonJob
  split
  · exact ⟨quiet_releaseInputs _ s.memo, rfl⟩
  · exact ⟨.refl s.memo, rfl⟩

theorem applications_nextStage (s : SearchState σ κ) :
    (nextStage s).memo.applications = s.memo.applications ∧ (s.memo.WellFormed → (nextStage s).memo.WellFormed) := by
  unfold nextStage
  dsimp only
  split
  · exact ⟨rfl, id⟩
  · refine ⟨?_, s.memo.sameShape_resetSearch.wellFormed⟩
    unfold applications resetSearch
    rw [List.map_map]
    rfl

section

variable [Zero κ] [Add κ] [LT κ] [DecidableLT κ] {env : SearchEnv σ κ} {job : SearchJob} {step : Step SearchJob}

/-- The run of a job applies a rule that is not recorded yet, or none. -/
theorem AppliedOnce.run (h : AppliedOnce log s) (w : s.memo.WellFormed) (hrun : (runJob env job).run s = (.ok step, t)) :
    t.memo.WellFormed ∧ AppliedOnce (log ++ job.applied s t) t := by
  have hcount := (counts_runJob job).of_ok hrun
  rcases ((yields_jobStep env job s).of_ok hrun).recorded with ⟨hquiet, hdone⟩ | ⟨e, r, x, rfl, he, hnew, hinsert⟩
  · have hsame : t.stats.ruleApplications = s.stats.ruleApplications := by
      cases job with
      | applyRule e r =>
        dsimp only at hcount
        rwa [if_pos (hdone e r rfl)] at hcount
      | _ => exact hcount
    have hnone : job.applied s t = [] := by
      cases job with
      | applyRule e r => exact if_neg (by omega)
      | _ => rfl
    rw [hnone, List.append_nil]
    exact ⟨hquiet.toSameShape.wellFormed w, h.fresh (.of_eq hquiet.applications_eq) hsame⟩
  · have hnot : s.memo.wasApplied e r = false := by simp [wasApplied, he, hnew]
    dsimp only at hcount
    rw [hnot, if_neg Bool.false_ne_true] at hcount
    have hone : SearchJob.applied s t (.applyRule e r) = [(e, r)] := if_pos (by omega)
    rw [hone]
    obtain ⟨wt, hfresh⟩ := hinsert.fresh ((sameShape_markApplied s.memo e r).wellFormed w)
    have hmark : AppliedOnce (log ++ [(e, r)])
        { t with memo := s.memo.markApplied e r } := h.mark he hnew rfl hcount
    exact ⟨wt, hmark.fresh hfresh rfl⟩

/-- Whatever is run, and in whatever order, no rule is applied to an expression twice, and just what was applied is
recorded and counted. -/
theorem Invoked.appliedOnce (h : Invoked log s) : s.memo.WellFormed ∧ AppliedOnce log s := by
  induction h with
  | @inserted verify limit source e root m columns h =>
    have wempty : (Memo.empty verify limit : Memo σ κ).WellFormed := wellFormed_empty verify limit
    have hm : (insertAt source none e (Memo.empty verify limit : Memo σ κ)).2 = m := congrArg Prod.snd h
    have hfresh := fresh_insertAt source wempty (target_none _) e
    have hwell := (inherits_insertAt source e wempty (target_none _)).2
    rw [hm] at hfresh hwell
    have hempty : AppliedOnce [] (⟨Memo.empty verify limit, columns, .none⟩ : SearchState σ κ) :=
      ⟨List.nodup_nil, fun e r => by simp [wasApplied, expr?, Memo.empty], rfl⟩
    exact ⟨hwell, hempty.fresh hfresh rfl⟩
  | run _ hrun ih => exact ih.2.run ih.1 hrun
  | abandon _ job ih =>
    obtain ⟨hquiet, hstats⟩ := quiet_abandonJob job ‹_›
    exact ⟨hquiet.toSameShape.wellFormed ih.1, ih.2.fresh (.of_eq hquiet.applications_eq) (by rw [hstats])⟩
  | @nextStage log s _ ih =>
    obtain ⟨happlied, hwell⟩ := applications_nextStage s
    exact ⟨hwell ih.1, ih.2.fresh (.of_eq happlied) rfl⟩

end

end

/-! Stages. -/

section

variable [Zero κ] [Add κ] [LT κ] [DecidableLT κ] {log : List (ExprId × RuleId)}

/-- What the runs in these turns have applied. -/
def applications (turns : List (Turn SearchJob JobKey (SearchState σ κ))) : List (ExprId × RuleId) :=
  turns.flatMap (fun t => t.job.applied t.seen t.left)

theorem Invoked.abandonAll {env : SearchEnv σ κ} {s : Scheduler SearchJob JobKey} {c : SearchState σ κ}
    (h : Invoked log c) : Invoked log (s.abandonAll (jobs env) c) := by
  unfold Scheduler.abandonAll
  generalize s.entries.filterMap (fun e => e.bind Entry.job) = waiting
  induction waiting generalizing c with
  | nil => exact h
  | cons job waiting ih => exact ih (c := abandonJob job c) (h.abandon job)

variable {env : SearchEnv σ κ} {runs : Nat} {τ : Type} {s : Scheduler SearchJob JobKey} {c : SearchState σ κ}
  {interrupt : Nat → SearchState σ κ → Except PlanError (Option τ)}
  {turns : List (Turn SearchJob JobKey (SearchState σ κ))} {r : Outcome τ × Scheduler SearchJob JobKey × SearchState σ κ}

/-- Between its runs of jobs a stage comes only to such states. -/
theorem Scheduler.History.invoked (h : History (jobs env) interrupt runs s c turns r) (hc : Invoked log c) :
    (∀ pre t post, turns = pre ++ t :: post → Invoked (log ++ applications pre) t.seen) ∧
      (r.1.isRegular = true → Invoked (log ++ applications turns) r.2.2) := by
  induction h generalizing log with
  | outOfFuel => exact ⟨by simp, nofun⟩
  | completed => exact ⟨by simp, fun _ => by simpa [applications] using hc⟩
  | refused => exact ⟨by simp, nofun⟩
  | interrupted => exact ⟨by simp, fun _ => by simpa [applications] using hc.abandonAll⟩
  | @failed _ t _ _ _ _ =>
    refine ⟨fun pre u post hturns => ?_, nofun⟩
    cases pre with
    | nil =>
      cases hturns
      simpa [applications] using hc
    | cons v pre =>
      have := congrArg List.length hturns
      simp at this
  | @turn _ t step turns _ _ ht hresult _ ih =>
    have hrun : (runJob env t.job).run t.seen = (.ok step, t.left) := hresult ▸ ht.run
    obtain ⟨hseen, hend⟩ := ih (hc.run hrun)
    have hlog : ∀ pre, log ++ applications (t :: pre) =
        log ++ t.job.applied t.seen t.left ++ applications pre := fun pre => by
      rw [List.append_assoc]
      rfl
    refine ⟨fun pre u post hturns => ?_, fun hr => hlog turns ▸ hend hr⟩
    cases pre with
    | nil =>
      cases hturns
      simpa [applications] using hc
    | cons v pre =>
      cases hturns
      exact hlog pre ▸ hseen pre u post rfl

variable {setup : OptimizerSetup σ κ} {e : Expr} {columns : Columns} {root : GroupId} {required : Required}

theorem StageTurns.invoked {stage : SearchStage} {c : SearchState σ κ} (h : StageTurns setup stage root required c turns)
    (hc : Invoked log c) :
    (∀ pre t post, turns = pre ++ t :: post → Invoked (log ++ applications pre) t.seen) ∧
      ((runStage setup stage root required c).1.isRegular = true →
        Invoked (log ++ applications turns) (runStage setup stage root required c).2) :=
  h.choose_spec.invoked hc

theorem Staged.invoked {s : SearchState σ κ} (hs : Staged setup e columns root required s) : ∃ log, Invoked log s := by
  induction hs with
  | inserted h => exact ⟨[], .inserted columns h⟩
  | @stage s t clock fuel stage o _ hrun ho ih =>
    obtain ⟨log, hlog⟩ := ih
    obtain ⟨turns, h⟩ := exists_stageTurns { setup with clock, fuel } stage root required (nextStage s)
    have hend := (h.invoked hlog.nextStage).2
    rw [hrun] at hend
    exact ⟨_, hend ho⟩

/-- Whatever jobs are run, and in whatever order, no rule is applied to the same expression twice, and just what was
applied is recorded and counted. Between its runs of jobs a search comes to no other states, in none of its stages. -/
theorem appliedOnce_search (setup : OptimizerSetup σ κ) :
    (∀ log (s : SearchState σ κ), Invoked log s → AppliedOnce log s) ∧
    ∀ e columns root required s, Staged setup e columns root required s → ∃ log, Invoked log (nextStage s) ∧
      ∀ clock fuel stage o t, runStage { setup with clock, fuel } stage root required (nextStage s) = (o, t) →
        ∃ turns, StageTurns { setup with clock, fuel } stage root required (nextStage s) turns ∧
          (∀ pre u post, turns = pre ++ u :: post → Invoked (log ++ applications pre) u.seen) ∧
          (o.isRegular = true → Invoked (log ++ applications turns) t) := by
  refine ⟨fun log s h => h.appliedOnce.2, fun e columns root required s hs => ?_⟩
  obtain ⟨log, hlog⟩ := hs.invoked
  refine ⟨log, hlog.nextStage, fun clock fuel stage o t hrun => ?_⟩
  obtain ⟨turns, h⟩ := exists_stageTurns { setup with clock, fuel } stage root required (nextStage s)
  obtain ⟨hseen, hend⟩ := h.invoked hlog.nextStage
  rw [hrun] at hend
  exact ⟨turns, h, hseen, hend⟩

/-- Three rules are applied in the first stage, and none in the second one. -/
theorem appliedOnce_search_twoTables :
    ∃ m s t log, (Memo.empty true (some 100000) : Memo Unit Nat).insert (unitSetup.source threeColumns) twoTables =
        (.ok ⟨2⟩, m) ∧
      runStage (timedSetup 100) {} ⟨2⟩ .none (nextStage ⟨m, threeColumns, .none⟩) = (.completed, s) ∧
      runStage (timedSetup 100) {} ⟨2⟩ .none (nextStage s) = (.completed, t) ∧
      s.stats.ruleApplications = 3 ∧ t.stats.ruleApplications = 3 ∧ Invoked log t ∧ AppliedOnce log t := by
  have hroot : ((Memo.empty true (some 100000) : Memo Unit Nat).insert (unitSetup.source threeColumns)
      twoTables).1.toOption = some ⟨2⟩ := by decide +kernel
  have hend :
      let first := runStage (timedSetup 100) {} ⟨2⟩ .none (nextStage
        ⟨((Memo.empty true (some 100000) : Memo Unit Nat).insert (unitSetup.source threeColumns) twoTables).2,
          threeColumns, .none⟩)
      let second := runStage (timedSetup 100) {} ⟨2⟩ .none (nextStage first.2)
      (first.1 matches .completed) = true ∧ first.2.stats.ruleApplications = 3 ∧
        (second.1 matches .completed) = true ∧ second.2.stats.ruleApplications = 3 := by decide +kernel
  cases h : (Memo.empty true (some 100000) : Memo Unit Nat).insert (unitSetup.source threeColumns) twoTables with
  | mk r m =>
    rw [h] at hroot hend
    cases r with
    | error err => cases hroot
    | ok root =>
      obtain rfl : root = ⟨2⟩ := Option.some.inj hroot
      dsimp only at hend
      cases hfirst : runStage (timedSetup 100) {} ⟨2⟩ .none (nextStage ⟨m, threeColumns, .none⟩) with
      | mk o s =>
        rw [hfirst] at hend
        cases hsecond : runStage (timedSetup 100) {} ⟨2⟩ .none (nextStage s) with
        | mk o' t =>
          rw [hsecond] at hend
          obtain ⟨hcompleted, hs, hcompleted', ht⟩ := hend
          dsimp only at hcompleted hcompleted'
          split at hcompleted
          · split at hcompleted'
            · have hstaged : Staged (timedSetup 100) twoTables threeColumns ⟨2⟩ .none s :=
                .stage (.inserted h) hfirst rfl
              obtain ⟨hall, hstages⟩ := appliedOnce_search (timedSetup 100)
              obtain ⟨log, -, hstage⟩ := hstages _ _ _ _ _ hstaged
              obtain ⟨turns, -, -, hinvoked⟩ := hstage _ _ _ _ _ hsecond
              exact ⟨m, s, t, _, rfl, hfirst, hsecond, hs, ht, hinvoked rfl, hall _ t (hinvoked rfl)⟩
            · cases hcompleted'
          · cases hcompleted

end

end Cascade
