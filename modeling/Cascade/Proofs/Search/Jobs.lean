import Cascade.Proofs.Search.Requests

/-!
Jobs. Every run of a job leaves a sound memo and valid jobs, so the jobs of a stage do (`keeps_jobs`).
-/

namespace Cascade

open Memo Search

variable {σ κ : Type}

section

variable {subset : Bool} {s t : SearchState σ κ}

theorem stepValid_spawn {job : SearchJob} {children : List SearchJob} (h : Follows subset s t)
    (hjob : ValidJob t.memo job) (hchildren : ∀ j ∈ children, ValidJob t.memo j) :
    StepValid subset s (.spawn job children) t :=
  ⟨h, List.forall_mem_cons.2 ⟨hjob, hchildren⟩⟩

theorem validJob_of_mem_map {α : Type} {f : α → SearchJob} {l : List α} {m : Memo σ κ}
    (hf : ∀ a, ValidJob m (f a)) : ∀ j ∈ l.map f, ValidJob m j := by
  intro j hj
  obtain ⟨a, -, rfl⟩ := List.mem_map.1 hj
  exact hf a

theorem yields_done (hs : s.memo.Sound subset) :
    Yields (pure .done : SearchM σ κ (Step SearchJob)) s (StepValid subset s) (fun _ _ => True) :=
  .of_pure (stepValid_done (.refl hs))

/-- A job that waits for jobs of one kind. -/
theorem yields_spawn (hs : s.memo.Sound subset) {job : SearchJob} {α : Type} {l : List α} {f : α → SearchJob}
    (hjob : ValidJob s.memo job) (hf : ∀ a, ValidJob s.memo (f a)) :
    Yields (pure (.spawn job (l.map f)) : SearchM σ κ (Step SearchJob)) s (StepValid subset s) (fun _ _ => True) :=
  .of_pure (stepValid_spawn (.refl hs) hjob (validJob_of_mem_map hf))

theorem yields_mark {g : Memo σ κ → Memo σ κ} (h : Follows subset s { s with memo := g s.memo }) :
    Yields (do modifyMemo g; pure .done) s (StepValid subset s) (fun _ _ => True) :=
  .bind_modifyMemo (.of_pure (stepValid_done h))

theorem yields_runExploreGroup (hs : s.memo.Sound subset) (group : GroupId) (spawned : List ExprId) :
    Yields (runExploreGroup group spawned) s (StepValid subset s) (fun _ _ => True) := by
  refine .bind_memo (.bind_lift (fun content _ => ?_) fun _ _ => trivial)
  split
  · exact yields_done hs
  · split
    · exact yields_mark (follows_modifyGroup hs _ (fun _ => rfl) fun _ => rfl)
    · exact yields_spawn hs trivial fun _ => trivial

theorem yields_implementMembers (hs : s.memo.Sound subset) (group : GroupId) (spawned : List ExprId) :
    Yields (implementMembers group spawned) s (StepValid subset s) (fun _ _ => True) := by
  refine .bind_memo ?_
  split
  · exact yields_mark (follows_modifyGroup hs _ (fun _ => rfl) fun _ => rfl)
  · exact yields_spawn hs trivial fun _ => trivial

theorem yields_runImplementGroup (hs : s.memo.Sound subset) (group : GroupId) (explored : Bool)
    (spawned : List ExprId) :
    Yields (runImplementGroup group explored spawned) s (StepValid subset s) (fun _ _ => True) := by
  unfold runImplementGroup
  split
  · exact yields_implementMembers hs group spawned
  · refine .bind_memo (.bind_lift (fun content _ => ?_) fun _ _ => trivial)
    split
    · exact yields_done hs
    · split
      · exact yields_implementMembers hs group spawned
      · exact .of_pure (stepValid_spawn (.refl hs) trivial (List.forall_mem_singleton.2 trivial))

theorem yields_optimizeMembers (hs : s.memo.Sound subset) (group : GroupId) (required : Required)
    (spawned : List ExprId) :
    Yields (optimizeMembers group required spawned) s (StepValid subset s) (fun _ _ => True) := by
  refine .bind_memo ?_
  split
  · exact yields_mark (follows_modifyGroup hs _ (fun _ => rfl) fun _ => rfl)
  · exact yields_spawn hs trivial fun _ => trivial

theorem yields_runOptimizeGroup (hs : s.memo.Sound subset) (group : GroupId) (required : Required)
    (implemented : Bool) (spawned : List ExprId) :
    Yields (runOptimizeGroup group required implemented spawned) s (StepValid subset s) (fun _ _ => True) := by
  unfold runOptimizeGroup
  split
  · exact yields_optimizeMembers hs group required spawned
  · refine .bind_memo (.bind_lift (fun content _ => ?_) fun _ _ => trivial)
    split
    · exact yields_done hs
    · split
      · exact yields_optimizeMembers hs group required spawned
      · exact .of_pure (stepValid_spawn (.refl hs) trivial (List.forall_mem_singleton.2 trivial))

end

section

variable (env : SearchEnv σ κ) {subset : Bool} {s : SearchState σ κ}

theorem yields_candidates (id : ExprId) (exploration : Bool) (s : SearchState σ κ) :
    Yields (candidates env id exploration) s (fun _ t => t = s) (fun _ _ => True) :=
  .bind_memo (.bind_lift (fun _ _ => .of_pure rfl) fun _ _ => trivial)

theorem yields_runImplementExpr (hs : s.memo.Sound subset) (id : ExprId) (started : Bool) :
    Yields (runImplementExpr env id started) s (StepValid subset s) (fun _ _ => True) := by
  have hfinish : Yields (runImplementExpr.finish id) s (StepValid subset s) (fun _ _ => True) :=
    yields_mark (follows_modifyExpr hs _ fun _ => rfl)
  refine .bind_memo (.bind_lift (fun e _ => ?_) fun _ _ => trivial)
  split
  · exact hfinish
  · split
    · exact yields_done hs
    · refine (yields_candidates env id false s).bind ?_
      rintro rules t rfl
      split
      · exact hfinish
      · exact yields_spawn hs trivial fun _ => trivial

theorem yields_finishExploration (hs : s.memo.Sound subset) (id : ExprId) :
    Yields (finishExploration id) s (StepValid subset s) (fun _ _ => True) :=
  yields_mark (follows_modifyExpr hs _ fun _ => rfl)

theorem yields_applyExplorationRules (hs : s.memo.Sound subset) (id : ExprId) :
    Yields (applyExplorationRules env id) s (StepValid subset s) (fun _ _ => True) := by
  refine (yields_candidates env id true s).bind ?_
  rintro rules t rfl
  split
  · exact yields_finishExploration hs id
  · exact yields_spawn hs trivial fun _ => trivial

theorem yields_runExploreExpr (hs : s.memo.Sound subset) (id : ExprId) (step : ExploreStep) :
    Yields (runExploreExpr env id step) s (StepValid subset s) (fun _ _ => True) := by
  cases step with
  | start =>
    refine .bind_memo (.bind_lift (fun e _ => ?_) fun _ _ => trivial)
    split
    · exact yields_done hs
    · split
      · exact yields_applyExplorationRules env hs id
      · exact yields_spawn hs trivial fun _ => trivial
  | inputsExplored => exact yields_applyExplorationRules env hs id
  | rulesApplied => exact yields_finishExploration hs id

theorem yields_liftRule {α : Type} (x : RuleM α) (s : SearchState σ κ) :
    Yields (liftRule x) s (fun _ t => t.memo = s.memo) (fun _ _ => True) :=
  .bind_get (.bind_modify (.of_lift (fun _ _ => rfl) fun _ _ => trivial))

variable [LT κ] [DecidableLT κ]

theorem yields_insertAlternative (hs : s.memo.Sound subset) (group : GroupId) (e : Expr) :
    Yields (insertAlternative env group e) s (fun _ t => Follows subset s t) (fun _ _ => True) := by
  obtain ⟨hinherits, hw⟩ :=
    inherits_insertAt (env.source s.columns) e hs.wellFormed (s.memo.target_find group)
  have hfollows : ∀ t : SearchState σ κ, t.memo = (s.memo.insertInto (env.source s.columns) group e).2 →
      Follows subset s t := fun t ht => by
    have hs := hs.inherits hinherits hw
    exact ⟨ht ▸ hs, ht ▸ hinherits.toExtends⟩
  refine .bind_get (.bind_set (.bind_lift (fun placed _ => ?_) fun _ _ => trivial))
  split
  · exact .of_modify (hfollows _ rfl)
  · exact .of_pure (hfollows _ rfl)

theorem yields_insertAlternatives (alternatives : List Expr) {t : SearchState σ κ} (h : Follows subset s t)
    (group : GroupId) :
    Yields (alternatives.forM (insertAlternative env group)) t (fun _ u => Follows subset s u) (fun _ _ => True) := by
  induction alternatives generalizing t with
  | nil => exact .of_pure h
  | cons e es ih => exact (yields_insertAlternative env h.sound group e).bind fun _ u htu => ih (h.trans htu)

theorem yields_runApplyRule (hs : s.memo.Sound subset) (id : ExprId) (rule : RuleId) :
    Yields (runApplyRule env id rule) s (StepValid subset s) (fun _ _ => True) := by
  refine .bind_memo ?_
  split
  · exact yields_done hs
  · have hmark := follows_modifyExpr hs id (f := fun x => { x with applied := x.applied.insert rule }) fun _ => rfl
    refine .bind_modifyMemo (.bind_memo (.bind_lift (fun e _ => ?_) fun _ _ => trivial))
    refine (yields_liftRule _ _).bind fun alternatives t ht => .bind_modify ?_
    have hcount : Follows subset s
        { t with stats := { t.stats with ruleApplications := t.stats.ruleApplications + 1 } } :=
      ⟨ht ▸ hmark.sound, ht ▸ hmark.extends_⟩
    refine (yields_insertAlternatives env alternatives hcount _).bind fun _ u hu => ?_
    exact .of_pure (stepValid_done hu)

end

theorem follows_abandonJob {subset : Bool} (job : SearchJob) {s : SearchState σ κ} (hs : s.memo.Sound subset) :
    Follows subset s (abandonJob job s) := by
  unfold abandonJob
  split
  · rename_i progress
    obtain ⟨hinherits, hshape⟩ := inherits_releaseInputs progress.inputs s.memo
    exact follows_of_inherits hs hinherits hshape
  · exact .refl hs

section

variable [Zero κ] [Add κ] [LT κ] [DecidableLT κ] (env : SearchEnv σ κ)

theorem yields_runJob {job : SearchJob} {s : SearchState σ κ} (hs : s.memo.Sound env.config.subsetHashMatching)
    (hjob : ValidJob s.memo job) :
    Yields (runJob env job) s (StepValid env.config.subsetHashMatching s) (fun _ _ => True) := by
  refine .bind_modify ?_
  have hst : Follows env.config.subsetHashMatching s { s with stats := s.stats.countJob job.kind } := ⟨hs, .refl _⟩
  have hjob : ValidJob ({ s with stats := s.stats.countJob job.kind } : SearchState σ κ).memo job := hjob
  -- counting the job leaves the memo alone
  generalize ({ s with stats := s.stats.countJob job.kind } : SearchState σ κ) = t at hst hjob ⊢
  have hs := hst.sound
  suffices h : Yields _ t (StepValid env.config.subsetHashMatching t) (fun _ _ => True) from
    h.mono (fun _ u hu => ⟨hst.trans hu.1, hu.2⟩) fun _ _ _ => trivial
  cases job with
  | optimizeGroup g r implemented spawned => exact yields_runOptimizeGroup hs g r implemented spawned
  | implementGroup g explored spawned => exact yields_runImplementGroup hs g explored spawned
  | exploreGroup g spawned => exact yields_runExploreGroup hs g spawned
  | implementExpr e started => exact yields_runImplementExpr env hs e started
  | exploreExpr e step => exact yields_runExploreExpr env hs e step
  | applyRule e r => exact yields_runApplyRule env hs e r
  | optimizeExpr e r progress => exact yields_runOptimizeExpr env e r progress hs hjob

theorem keeps_jobs (start : SearchState σ κ) :
    (jobs env).Keeps (Follows env.config.subsetHashMatching start) (fun s job => ValidJob s.memo job) where
  run := by
    intro job s step t hs hjob hrun
    obtain ⟨hst, hjobs⟩ := (yields_runJob env hs.sound hjob).of_ok hrun
    exact ⟨hs.trans hst, fun j hj => hj.mono hst.extends_, hjobs⟩
  abandon hs := hs.trans (follows_abandonJob _ hs.sound)

end

end Cascade
