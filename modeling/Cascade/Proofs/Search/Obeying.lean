import Cascade.Proofs.Memo.Demands
import Cascade.Proofs.Rules.Bindings
import Cascade.Proofs.Search.Applications

/-!
Searches that keep to a demand. If the alternatives of the rules that are worth applying fit into their groups
(`Heeds`), then all expressions of the memo meet the demand between any two runs of jobs, in all stages
(`Staged.obeys_turns`) and after the last one (`Staged.obeys`).
-/

namespace Cascade

open Memo Search Scheduler

variable {σ κ : Type}

/-- Rules keep to a demand. `W` says that a rule is worth applying to an expression; it has to be true of the rules
the search chooses, and to outlive all that happens until they are applied. -/
structure Heeds (env : SearchEnv σ κ) (D : Demand) (W : Memo σ κ → ExprId → RuleId → Prop) : Prop where
  lasts : ∀ {m n id rule}, Extends m n → W m id rule → W n id rule
  worth : ∀ {m id e op rule}, m.WellFormed → m.expr? id = some e → e.op = .logical op →
    (rule.rule : Rule σ κ).promise (ruleContext env (m.find e.group) m) op ≠ .none → W m id rule
  fits : ∀ {m id e rule columns}, m.WellFormed → m.Obeys D → m.expr? id = some e → W m id rule →
    Yields ((rule.rule : Rule σ κ).alternatives (ruleContext env (m.find e.group) m) id) columns
      (fun l _ => ∀ x ∈ l, ∃ K, ∀ cs, Fitting m (env.source cs) D K (m.find e.group) x) (fun _ _ => True)

/-- Only such rules wait to be applied. -/
def Worthwhile (W : Memo σ κ → ExprId → RuleId → Prop) (m : Memo σ κ) : SearchJob → Prop
  | .applyRule id rule => W m id rule
  | _ => True

/-- A rule among the candidates is worth applying. -/
theorem promise_of_candidates {env : SearchEnv σ κ} {m : Memo σ κ} {id : ExprId} {exploration : Bool} {rules : List RuleId}
    (h : Candidates env m id exploration rules) {rule : RuleId} (hrule : rule ∈ rules) :
    ∃ e op, m.expr? id = some e ∧ e.op = .logical op ∧
      (rule.rule : Rule σ κ).promise (ruleContext env (m.find e.group) m) op ≠ .none := by
  obtain ⟨e, he, rfl⟩ := h
  unfold RuleContext.candidates at hrule
  split at hrule
  · cases hrule
  · rename_i op hop
    have hop : e.op = .logical op := by
      cases hlogical : e.op <;> rw [hlogical] at hop <;> cases hop
      rfl
    refine ⟨e, op, he, hop, fun hnone => ?_⟩
    simp [hnone] at hrule

section

variable {env : SearchEnv σ κ} {m n : Memo σ κ} {D : Demand} {W : Memo σ κ → ExprId → RuleId → Prop} {job : SearchJob}
  {step : Step SearchJob}

theorem Worthwhile.mono (hD : Heeds env D W) (h : Extends m n) (hj : Worthwhile W m job) : Worthwhile W n job := by
  cases job with
  | applyRule id rule => exact hD.lasts h hj
  | _ => trivial

/-- Jobs to apply rules are asked for only with candidates. -/
theorem PlainStep.candidates (h : PlainStep env m job step n) {id : ExprId} {rule : RuleId}
    (hjob : .applyRule id rule ∈ step.jobs) : n = m ∧ ∃ exploration rules, Candidates env m id exploration rules ∧ rule ∈ rules := by
  cases h with
  | settled => cases hjob
  | settles => cases hjob
  | @asks next keys h _ =>
    refine ⟨rfl, ?_⟩
    have hkey : .applyRule id rule ∈ keys := by
      rcases List.mem_cons.1 hjob with hnext | hmem
      · cases h <;> cases hnext
      · obtain ⟨key, hkey, hstart⟩ := List.mem_map.1 hmem
        cases key <;> cases hstart
        exact hkey
    cases h with
    | implementRules h | exploreRules _ h =>
      obtain ⟨r, hr, hrule⟩ := List.mem_map.1 hkey
      cases hrule
      exact ⟨_, _, h, hr⟩
    | _ => simp at hkey

theorem PlainStep.worthwhile (hD : Heeds env D W) (w : m.WellFormed) (h : PlainStep env m job step n) :
    ∀ j ∈ step.jobs, Worthwhile W n j := by
  intro j hj
  cases j with
  | applyRule id rule =>
    obtain ⟨rfl, exploration, rules, hrules, hrule⟩ := h.candidates hj
    obtain ⟨e, op, he, hop, hpromise⟩ := promise_of_candidates hrules hrule
    exact hD.worth w he hop hpromise
  | _ => trivial

theorem Yields.liftRule {α : Type} {x : RuleM α} {s : SearchState σ κ} {Q : α → Columns → Prop}
    (h : Yields x s.columns Q (fun _ _ => True)) :
    Yields (Search.liftRule x) s (fun a t => t.memo = s.memo ∧ Q a t.columns) (fun _ _ => True) :=
  Yields.of_liftRule.mono (fun _ _ ⟨hmemo, hrun⟩ => ⟨hmemo, h.of_ok hrun⟩) fun _ _ _ => trivial

variable [LT κ] [DecidableLT κ]

/-- Alternatives that fit are inserted one after the other. -/
theorem yields_insertAlternatives_obeys {group : GroupId} {alternatives : List Expr}
    (hfits : ∀ x ∈ alternatives, ∃ K, ∀ cs, Fitting m (env.source cs) D K group x) {t : SearchState σ κ}
    (hm : Extends m t.memo) (w : t.memo.WellFormed) (h : t.memo.Obeys D) :
    Yields (alternatives.forM (insertAlternative env group)) t (fun _ u => u.memo.Obeys D) (fun _ _ => True) := by
  induction alternatives generalizing t with
  | nil => exact .of_pure h
  | cons x xs ih =>
    obtain ⟨⟨K, hx⟩, hxs⟩ := List.forall_mem_cons.1 hfits
    have hinsert : Yields (insertAlternative env group x) t
        (fun _ u => Extends m u.memo ∧ u.memo.WellFormed ∧ u.memo.Obeys D) (fun _ _ => True) := by
      have hobeys := ((hx t.columns).mono hm rfl).insertInto h w
      obtain ⟨hinherits, hw⟩ := inherits_insertAt (env.source t.columns) x w (t.memo.target_find group)
      have hextends := hm.trans hinherits.toExtends
      refine .bind_get (.bind_set (.bind_lift (fun placed _ => ?_) fun _ _ => trivial))
      split
      · exact .of_modify ⟨hextends, hw, hobeys⟩
      · exact .of_pure ⟨hextends, hw, hobeys⟩
    exact hinsert.bind fun _ u ⟨hextends, hw, hobeys⟩ => ih hxs hextends hw hobeys

/-- A rule that is worth applying is applied. -/
theorem Heeds.yields_runApplyRule (hD : Heeds env D W) {s : SearchState σ κ} (w : s.memo.WellFormed) (h : s.memo.Obeys D)
    {id : ExprId} {rule : RuleId} (hworth : W s.memo id rule) :
    Yields (runApplyRule env id rule) s (fun step t => step = .done ∧ t.memo.Obeys D) (fun _ _ => True) := by
  refine .bind_memo ?_
  split
  · exact .of_pure ⟨rfl, h⟩
  · have hshape := sameShape_markApplied s.memo id rule
    have hextends := (s.memo.inherits_modifyExpr id (f := fun x => { x with applied := x.applied.insert rule })
      fun _ => rfl).toExtends
    have hmark := h.sameShape hshape
    have hw := hshape.wellFormed w
    refine .bind_modifyMemo (.bind_memo (.bind_lift (fun e he => ?_) fun _ _ => trivial))
    refine (Yields.liftRule (hD.fits hw hmark (expr_ok he) (hD.lasts hextends hworth))).bind ?_
    rintro alternatives t ⟨ht, hfits⟩
    refine .bind_modify ?_
    refine (yields_insertAlternatives_obeys hfits ?_ ?_ ?_).bind fun _ u hu => .of_pure ⟨rfl, hu⟩
    · exact ht ▸ .refl _
    · exact ht ▸ hw
    · exact ht ▸ hmark

variable [Zero κ] [Add κ]

theorem RequestsRun.worthwhile {id : ExprId} {op : PhysicalOp} {required : Required} {remaining : Nat}
    {q : RequestProgress} (h : RequestsRun env id op required remaining q m step n) :
    ∀ j ∈ step.jobs, Worthwhile W n j := by
  induction h with
  | done => exact List.forall_mem_nil _
  | awaits => exact List.forall_mem_cons.2 ⟨trivial, List.forall_mem_singleton.2 trivial⟩
  | next _ _ ih => exact ih

theorem OptimizeRun.worthwhile {id : ExprId} {required : Required} {progress : Option RequestProgress}
    (h : OptimizeRun env id required m progress step n) : Quiet m n ∧ ∀ j ∈ step.jobs, Worthwhile W n j := by
  cases h with
  | settled => exact ⟨.refl m, List.forall_mem_nil _⟩
  | first _ _ h => exact ⟨h.quietly, h.worthwhile⟩
  | resumed _ h => exact ⟨h.quietly, h.worthwhile⟩

/-- A run of a job leaves a memo that meets the demand, and asks only for jobs to apply rules that are worth it. -/
theorem Heeds.run (hD : Heeds env D W) {s t : SearchState σ κ} (hs : s.memo.Sound env.config.subsetHashMatching)
    (h : s.memo.Obeys D) (hjob : ValidJob s.memo job) (hworth : Worthwhile W s.memo job)
    (hrun : (runJob env job).run s = (.ok step, t)) :
    StepValid env.config.subsetHashMatching s step t ∧ t.memo.Obeys D ∧ ∀ j ∈ step.jobs, Worthwhile W t.memo j := by
  have hvalid := (yields_runJob env hs hjob).of_ok hrun
  refine ⟨hvalid, ?_⟩
  have hstep := (yields_jobStep env job s).of_ok hrun
  have hquiet : Quiet s.memo t.memo → t.memo.Obeys D := fun hq => h.sameShape hq.toSameShape
  cases job with
  | applyRule id rule =>
    let counted : SearchState σ κ := { s with stats := s.stats.countJob (SearchJob.applyRule id rule).kind }
    have happly : Yields (runJob env (.applyRule id rule)) s (fun step t => step = .done ∧ t.memo.Obeys D)
        (fun _ _ => True) := .bind_modify (hD.yields_runApplyRule (s := counted) hs.wellFormed h hworth)
    obtain ⟨rfl, hobeys⟩ := happly.of_ok hrun
    exact ⟨hobeys, List.forall_mem_nil _⟩
  | optimizeExpr id required progress =>
    obtain ⟨hq, hjobs⟩ := OptimizeRun.worthwhile (W := W) hstep
    exact ⟨hquiet hq, hjobs⟩
  | _ => exact ⟨hquiet (PlainStep.quietly hstep nofun), PlainStep.worthwhile hD hs.wellFormed hstep⟩

theorem Heeds.keeps (hD : Heeds env D W) (start : SearchState σ κ) :
    (jobs env).Keeps (fun s => Follows env.config.subsetHashMatching start s ∧ s.memo.Obeys D)
      (fun s job => ValidJob s.memo job ∧ Worthwhile W s.memo job) where
  run := by
    intro job s step t ⟨hs, h⟩ ⟨hjob, hworth⟩ hrun
    obtain ⟨⟨hst, hjobs⟩, hobeys, hworths⟩ := hD.run hs.sound h hjob hworth hrun
    exact ⟨⟨hs.trans hst, hobeys⟩, fun j hj => ⟨hj.1.mono hst.extends_, hj.2.mono hD hst.extends_⟩,
      fun j hj => ⟨hjobs j hj, hworths j hj⟩⟩
  abandon := by
    intro job s ⟨hs, h⟩
    have hfollows := follows_abandonJob job hs.sound
    exact ⟨hs.trans hfollows, h.sameShape (quiet_abandonJob job s).1.toSameShape⟩

end

/-! Stages. -/

section

variable [Zero κ] [Add κ] [LT κ] [DecidableLT κ] {setup : OptimizerSetup σ κ} {D : Demand}
  {W : Memo σ κ → ExprId → RuleId → Prop} {e : Expr} {columns : Columns} {root : GroupId} {required : Required}
  {s : SearchState σ κ}

/-- All through a stage the memo is sound and meets the demand. -/
theorem Heeds.stageTurns (setup : OptimizerSetup σ κ) {stage : SearchStage} (hD : Heeds (environment setup stage) D W)
    (hs : s.memo.Sound setup.config.subsetHashMatching) (h : s.memo.Obeys D)
    {turns : List (Turn SearchJob JobKey (SearchState σ κ))} (hturns : StageTurns setup stage root required s turns) :
    (∀ t ∈ turns, Follows setup.config.subsetHashMatching s t.seen ∧ t.seen.memo.Obeys D) ∧
      ((runStage setup stage root required s).1.isRegular = true →
        (runStage setup stage root required s).2.memo.Obeys D) := by
  obtain ⟨hall, hend⟩ := hturns.keeps (hD.keeps s) ⟨.refl hs, h⟩ ⟨trivial, trivial⟩
  exact ⟨fun t ht => (hall t ht).1, fun hr => (hend hr).2⟩

/-- A stage leaves a memo that meets the demand. -/
theorem Heeds.obeys_runStage (hD : ∀ stage, Heeds (environment setup stage) D W) {s t : SearchState σ κ}
    {clock : Nat → Nat} {fuel : Nat} {stage : SearchStage} {o : Outcome StageEnd}
    (hs : s.memo.Sound setup.config.subsetHashMatching) (h : s.memo.Obeys D)
    (hrun : runStage { setup with clock, fuel } stage root required s = (o, t)) (ho : o.isRegular = true) :
    t.memo.Obeys D := by
  obtain ⟨turns, hturns⟩ := exists_stageTurns { setup with clock, fuel } stage root required s
  have hend := (Heeds.stageTurns { setup with clock, fuel } (hD stage) hs h hturns).2
  rw [hrun] at hend
  exact hend ho

variable (hs : Staged setup e columns root required s) (hD : ∀ stage, Heeds (environment setup stage) D W)
  (hinsert : ∀ m, (Memo.empty setup.config.verifyProperties (some setup.config.memoLimit) : Memo σ κ).insert
    (setup.source columns) e = (.ok root, m) → m.Obeys D)

include hs hD hinsert

/-- If the memo meets the demand when the tree is inserted, it does when a stage ends. -/
theorem Staged.obeys : s.memo.Sound setup.config.subsetHashMatching ∧ s.memo.Obeys D :=
  hs.reached hinsert (fun m h => h.sameShape m.sameShape_resetSearch)
    (Heeds.obeys_runStage hD)

/-- In every turn of a stage the memo is sound and meets the demand. -/
theorem Staged.obeys_turns {clock : Nat → Nat} {fuel : Nat} {stage : SearchStage}
    {turns : List (Turn SearchJob JobKey (SearchState σ κ))}
    (hturns : StageTurns { setup with clock, fuel } stage root required (nextStage s) turns) :
    ∀ t ∈ turns, t.seen.memo.Sound setup.config.subsetHashMatching ∧ t.seen.memo.Obeys D := by
  obtain ⟨hsound, h⟩ := hs.induct hinsert
    (fun m h => h.sameShape m.sameShape_resetSearch) (Heeds.obeys_runStage hD)
  intro t ht
  obtain ⟨hfollows, hobeys⟩ := (Heeds.stageTurns { setup with clock, fuel } (hD stage) hsound h hturns).1 t ht
  exact ⟨hfollows.sound, hobeys⟩

end

end Cascade
