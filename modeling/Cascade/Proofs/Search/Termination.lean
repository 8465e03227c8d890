import Cascade.Proofs.Search.Pins
import Cascade.Proofs.Search.Ranks

/-!
The search comes to an end. A rule is applied to an expression once, and there is a limit on the expressions, so rules run
out (`applicationsLeft`). Between two rules the requirements that can arise are finitely many, and the potential of the
waiting jobs falls, so every stage ends (`runStage_ends`).
-/

namespace Cascade

open Filter Memo Search Scheduler

variable {σ κ : Type}

/-- How many rules were not applied, if these were. -/
def unapplied (applied : RuleSet) : Nat := (RuleId.all.filter (fun r => !decide (r ∈ applied))).length

/-- How often rules can still be applied: to expressions with these rules applied to them, and to those that can be added
up to a limit. -/
def applicationsLeft (limit : Nat) (l : List RuleSet) : Nat :=
  total (l.map unapplied) + (limit - l.length) * RuleId.all.length

theorem unapplied_insert {applied : RuleSet} {rule : RuleId} (h : rule ∉ applied) :
    unapplied (applied.insert rule) < unapplied applied := by
  refine length_filter_lt (fun r hr => ?_) (show rule ∈ RuleId.all by cases rule <;> decide) ?_ ?_
  · simp only [Bool.not_eq_true', decide_eq_false_iff_not, SortedSet.mem_insert, not_or] at hr ⊢
    exact hr.2
  · simpa using h
  · simp [SortedSet.mem_insert]

/-- What is added uses up room. -/
theorem applicationsLeft_append {limit : Nat} {l added : List RuleSet} (h : (l ++ added).length ≤ limit) :
    applicationsLeft limit (l ++ added) ≤ applicationsLeft limit l := by
  have hadded : total (added.map unapplied) ≤ added.length * RuleId.all.length := by
    clear h
    induction added with
    | nil => exact Nat.zero_le _
    | cons s added ih =>
      have hfirst : unapplied s ≤ RuleId.all.length := List.length_filter_le ..
      rw [List.map_cons, total_cons, List.length_cons, Nat.succ_mul]
      omega
  rw [List.length_append] at h
  unfold applicationsLeft
  rw [List.map_append, total_append, List.length_append]
  have hroom : limit - l.length = limit - (l.length + added.length) + added.length := by omega
  rw [hroom, Nat.add_mul]
  omega

namespace Memo

/-- The rules that were applied to each expression. -/
def applications (m : Memo σ κ) : List RuleSet := m.exprs.map MemoExpr.applied

/-- There are no more expressions than the limit allows. -/
structure Within (limit : Nat) (m : Memo σ κ) : Prop where
  limit_eq : m.limit = some limit
  length_le : m.exprs.length ≤ limit

section

variable {m n : Memo σ κ} {limit : Nat}

theorem Quiet.applications_eq (h : Quiet m n) : n.applications = m.applications := by
  unfold applications
  refine List.ext_getElem? fun i => ?_
  rw [List.getElem?_map, List.getElem?_map]
  cases hn : n.exprs[i]? with
  | none =>
    rw [List.getElem?_eq_none_iff, h.length_exprs, ← List.getElem?_eq_none_iff] at hn
    rw [hn]
  | some f =>
    obtain ⟨e, he, -⟩ := h.expr_back (show n.expr? ⟨i⟩ = some f from hn)
    rw [show m.exprs[i]? = some e from he, Option.map_some, Option.map_some, (h.exprMarks he hn).applied]

theorem Within.sameShape (h : m.Within limit) (k : SameShape m n) : n.Within limit :=
  ⟨k.limit.trans h.limit_eq, k.length_exprs ▸ h.length_le⟩

theorem sameShape_markApplied (m : Memo σ κ) (id : ExprId) (rule : RuleId) : SameShape m (m.markApplied id rule) :=
  sameShape_modifyExpr m id fun _ => rfl

theorem applicationsLeft_markApplied {id : ExprId} {rule : RuleId} {e : MemoExpr} (he : m.expr? id = some e)
    (hnew : rule ∉ e.applied) :
    applicationsLeft limit (m.markApplied id rule).applications < applicationsLeft limit m.applications := by
  have htotal := total_map_modify (fun e => unapplied e.applied) (fun x : MemoExpr => { x with applied := x.applied.insert rule })
    (show m.exprs[id.index]? = some e from he)
  have := unapplied_insert hnew
  unfold applicationsLeft applications markApplied modifyExpr
  simp only [List.map_map, List.length_map, List.length_modify, Function.comp_def] at htotal ⊢
  omega

variable [LT κ] [DecidableLT κ]

/-- An insertion adds expressions up to the limit and applies no rules. -/
theorem grows_insertAt (w : m.WellFormed) (h : m.Within limit) (source : PropertySource σ) {target : Option GroupId}
    (htarget : ∀ t, target = some t → m.find t = t) (e : Expr) :
    (m.insertAt source target e).2.Within limit ∧
      ∃ added, (m.insertAt source target e).2.applications = m.applications ++ added := by
  rcases insertAt_cases source e w htarget with ⟨err, heq⟩ | ⟨placed, s, n, -, heq, hn⟩
  · rw [heq]
    exact ⟨h, [], (List.append_nil _).symm⟩
  · rw [heq]
    have hcopied := hn.copying.within limit h.limit_eq h.length_le
    refine ⟨⟨hn.progress.limit_eq.trans (hn.copying.limit_eq.trans h.limit_eq), hn.progress.length_exprs ▸ hcopied⟩, ?_⟩
    have hkept : m.exprs <+: s.memo.exprs := by
      rw [List.prefix_iff_getElem?]
      intro i hi
      exact hn.copying.exprs_kept (show m.expr? ⟨i⟩ = _ from List.getElem?_eq_getElem hi)
    obtain ⟨added, hadded⟩ := hkept
    refine ⟨added.map MemoExpr.applied, hn.progress.applied_eq.trans ?_⟩
    rw [← hadded, List.map_append]
    rfl

theorem within_insert (verify : Bool) (source : PropertySource σ) (e : Expr) :
    ((Memo.empty verify (some limit) : Memo σ κ).insert source e).2.Within limit := by
  have hempty : (Memo.empty verify (some limit) : Memo σ κ).Within limit := ⟨rfl, Nat.zero_le _⟩
  exact (grows_insertAt (wellFormed_empty _ _) hempty source (target_none _) e).1

end

end Memo

section

variable [LT κ] [DecidableLT κ] {m n : Memo σ κ} {limit : Nat}

theorem Insertions.grows (h : Insertions m n) (w : m.WellFormed) (hm : m.Within limit) :
    n.WellFormed ∧ n.Within limit ∧ ∃ added, n.applications = m.applications ++ added := by
  induction h with
  | refl => exact ⟨w, hm, [], (List.append_nil _).symm⟩
  | @insert n _ source g e ih =>
    obtain ⟨wn, hn, added, hadded⟩ := ih
    obtain ⟨hgrown, more, hmore⟩ := grows_insertAt wn hn source (n.target_find g) e
    exact ⟨(inherits_insertAt source e wn (n.target_find g)).2, hgrown, added ++ more, by
      rw [← List.append_assoc, ← hadded]
      exact hmore⟩

end

section

variable [Zero κ] [Add κ] [LT κ] [DecidableLT κ] {env : SearchEnv σ κ} {limit : Nat}

/-- A run of a job applies no rule, or one that is applied to this expression for the first time. -/
theorem JobStep.within {m n : Memo σ κ} {job : SearchJob} {step : Step SearchJob} (h : JobStep env m job step n)
    (w : m.WellFormed) (hm : m.Within limit) (hvalid : ValidJob m job) :
    n.Within limit ∧ ∀ next children, step = .spawn next children → next.key = job.key := by
  obtain ⟨M, hbounded, hbelow⟩ := (m.eventually_bounded.and job.eventually_below).exists
  rcases h.quiet hbounded hbelow hvalid with hquiet | ⟨id, rule, e, -, -, hinsert, rfl⟩
  · exact ⟨hm.sameShape hquiet.quiet.toSameShape, fun _ _ => hquiet.key_eq⟩
  · have hmark := sameShape_markApplied m id rule
    refine ⟨(hinsert.grows (hmark.wellFormed w) (hm.sameShape hmark)).2.1, ?_⟩
    rintro next children ⟨⟩

/-- The state in which a turn of a stage begins. -/
structure Search.InStage (env : SearchEnv σ κ) (limit : Nat) (s : Scheduler SearchJob JobKey) (c : SearchState σ κ) :
    Prop where
  orderly : s.Orderly none []
  sound : c.memo.Sound env.config.subsetHashMatching
  within : c.memo.Within limit
  waiting : s.Holds (fun k j => j.key = k ∧ ValidJob c.memo j)

variable {t : Turn SearchJob JobKey (SearchState σ κ)} {step : Step SearchJob}

theorem Search.InStage.turn (h : InStage env limit t.before t.seen) (ht : t.Made (jobs env))
    (hstep : t.result = .ok step) :
    InStage env limit t.after t.left ∧ JobStep env t.seen.memo t.job step t.left.memo ∧
      ValidJob t.seen.memo t.job ∧ t.running.keyAt t.id = some t.job.key := by
  obtain ⟨k, hkey, rfl, hvalid⟩ := ht.holds_job h.waiting
  have hrun : (runJob env t.job).run t.seen = (.ok step, t.left) := hstep ▸ ht.run
  have hjob := (yields_jobStep env t.job t.seen).of_ok hrun
  obtain ⟨hwithin, hsame⟩ := hjob.within h.sound.wellFormed h.within hvalid
  obtain ⟨hleft, hkept, hsteps⟩ := (keeps_jobs env t.seen).run (.refl h.sound) hvalid hrun
  refine ⟨⟨ht.orderly_after h.orderly, hleft.sound, hwithin, ?_⟩, hjob, hvalid, hkey⟩
  refine ht.holds_after h.waiting (fun _ _ hj => ⟨hj.1, hkept _ hj.2⟩) hstep ?_ ?_
  · rintro next children rfl k hk
    exact ⟨(hsame next children rfl).trans hk.1, hsteps next (List.mem_cons_self ..)⟩
  · rintro next children rfl j hj
    exact ⟨rfl, hsteps j (List.mem_cons_of_mem _ hj)⟩

variable {s : Scheduler SearchJob JobKey} {c : SearchState σ κ} {runs M left : Nat} {τ : Type}
  {interrupt : Nat → SearchState σ κ → Except PlanError (Option τ)}

/-- A run ends if it does after the next application of a rule. -/
theorem ends_of_bounded (h : InStage env limit s c) (hm : c.memo.Bounded M) (hbelow : s.Holds (fun _ j => j.Below M))
    (hleft : applicationsLeft limit c.memo.applications = left)
    (hrule : ∀ {s c runs}, InStage env limit s c → applicationsLeft limit c.memo.applications < left →
      Ends (jobs env) interrupt runs s c) : Ends (jobs env) interrupt runs s c := by
  -- on the potential of the waiting jobs
  generalize hp : (searchRanking M env.order.length).potential c.memo.Settled s = p
  induction p using Nat.strong_induction_on generalizing s c runs with
  | _ p ih =>
    refine ends_of_turn h.orderly ?_
    rintro t rfl rfl ht step hstep
    obtain ⟨hafter, hjob, hvalid, hkey⟩ := h.turn ht hstep
    obtain ⟨-, -, hjobBelow⟩ := ht.holds_job hbelow
    rcases hjob.quiet hm hjobBelow hvalid with hquiet | ⟨id, rule, e, he, hnew, hinsert, -⟩
    · have hsame : (jobs env).key = (searchRanking M env.order.length).key := rfl
      have hlower := Ranking.potential_lt hsame ht h.orderly (fun _ => Settled.quiet hquiet.quiet) hkey hstep hquiet.lowers
      refine ih _ (hp ▸ hlower) hafter hquiet.bounded ?_ (hquiet.quiet.applications_eq ▸ hleft) rfl
      refine ht.holds_after hbelow (fun _ _ hj => hj) hstep ?_ ?_
      · rintro next children rfl _ _
        exact hquiet.jobs next (List.mem_cons_self ..)
      · rintro next children rfl j hj
        exact hquiet.jobs j (List.mem_cons_of_mem _ hj)
    · have hmark := sameShape_markApplied t.seen.memo id rule
      obtain ⟨-, hgrown, added, hadded⟩ :=
        hinsert.grows (hmark.wellFormed h.sound.wellFormed) (h.within.sameShape hmark)
      have hroom : ((t.seen.memo.markApplied id rule).applications ++ added).length ≤ limit := by
        rw [← hadded, applications, List.length_map]
        exact hgrown.length_le
      refine hrule hafter ?_
      calc applicationsLeft limit t.left.memo.applications
          = applicationsLeft limit ((t.seen.memo.markApplied id rule).applications ++ added) := by rw [hadded]
        _ ≤ applicationsLeft limit (t.seen.memo.markApplied id rule).applications := applicationsLeft_append hroom
        _ < applicationsLeft limit t.seen.memo.applications := applicationsLeft_markApplied he hnew
        _ = left := hleft

theorem eventually_holds_below (s : Scheduler SearchJob JobKey) : ∀ᶠ M in atTop, s.Holds (fun _ j => j.Below M) := by
  have hjobs : ∀ᶠ M in atTop, ∀ x ∈ s.entries, ∀ e ∈ x.toList, ∀ j ∈ e.job.toList, j.Below M :=
    eventually_forall_mem fun x _ => eventually_forall_mem fun e _ => eventually_forall_mem fun j _ => j.eventually_below
  refine hjobs.mono fun M h e j he hj => ?_
  exact h (some e) he e (by simp) j (by simp [hj])

/-- Every run of a stage ends. -/
theorem ends_of_inStage (interrupt : Nat → SearchState σ κ → Except PlanError (Option τ)) (runs : Nat)
    (h : InStage env limit s c) : Ends (jobs env) interrupt runs s c := by
  -- on the applications of rules that are left
  generalize hleft : applicationsLeft limit c.memo.applications = left
  induction left using Nat.strong_induction_on generalizing s c runs with
  | _ left ih =>
    obtain ⟨M, hm, hbelow⟩ := (c.memo.eventually_bounded.and (eventually_holds_below s)).exists
    exact ends_of_bounded h hm hbelow hleft fun hafter hfewer => ih _ hfewer _ hafter rfl

variable (setup : OptimizerSetup σ κ) {root : GroupId} {required : Required} {s t : SearchState σ κ}

theorem inStage_start (root : GroupId) (required : Required) (stage : SearchStage) (hs : s.memo.Sound setup.config.subsetHashMatching)
    (hlimit : s.memo.Within limit) :
    InStage (environment setup stage) limit
      (Scheduler.empty.spawn (jobs (environment setup stage)) none
        (.optimizeGroup (s.memo.find root) required false [])) s where
  orderly := (orderly_clear .empty).spawn _ _
  sound := hs
  within := hlimit
  waiting := by
    have hroot : ValidJob s.memo (.optimizeGroup (s.memo.find root) required false []) := trivial
    exact (holds_clear .empty fun k j => j.key = k ∧ ValidJob s.memo j).spawn (jobs (environment setup stage)) none ⟨rfl, hroot⟩

/-- A stage leaves no more expressions than the limit allows. -/
theorem within_runStage {stage : SearchStage} {o : Outcome StageEnd}
    (hs : s.memo.Sound setup.config.subsetHashMatching) (hlimit : s.memo.Within limit)
    (hrun : runStage setup stage root required s = (o, t)) (ho : o.isRegular = true) : t.memo.Within limit := by
  have hkeeps : (jobs (environment setup stage)).Keeps
      (fun s => s.memo.Sound setup.config.subsetHashMatching ∧ s.memo.Within limit)
      (fun s job => ValidJob s.memo job) := by
    refine ⟨fun {job s step t} hs hjob hrun => ?_, fun {job s} hs => ?_⟩
    · obtain ⟨hst, hkept, hsteps⟩ := (keeps_jobs (environment setup stage) s).run (.refl hs.1) hjob hrun
      have hstep := (yields_jobStep (environment setup stage) job s).of_ok hrun
      exact ⟨⟨hst.sound, (hstep.within hs.1.wellFormed hs.2 hjob).1⟩, hkept, hsteps⟩
    · refine ⟨(follows_abandonJob job hs.1).sound, ?_⟩
      rw [show (jobs (environment setup stage)).abandon job s = abandonJob job s from rfl, abandonJob_eq]
      exact hs.2.sameShape (inherits_releaseInputs job.pins s.memo).2
  have hjob : ValidJob s.memo (.optimizeGroup (s.memo.find root) required false []) := trivial
  cases hrun
  exact (Scheduler.invariant_run hkeeps _ _ ⟨hs, hlimit⟩ hjob rfl ho).2

/-- The search terminates: every stage comes to its end after finitely many runs of jobs, whatever came before it. -/
theorem runStage_ends {e : Expr} {columns : Columns} (hs : Staged setup e columns root required s) (stage : SearchStage) :
    ∃ n o t, (∀ fuel, n ≤ fuel → runStage { setup with fuel } stage root required (nextStage s) = (o, t)) ∧
      (o = .completed ∨ (∃ reason, o = .interrupted reason) ∨ ∃ err, o = .failed err) := by
  obtain ⟨hsound, hlimit⟩ := hs.induct (I := Within setup.config.memoLimit)
    (fun m h => by
      have hm : ((Memo.empty setup.config.verifyProperties _ : Memo σ κ).insert _ e).2.Within setup.config.memoLimit :=
        within_insert setup.config.verifyProperties (setup.source columns) e
      rwa [h] at hm)
    (fun m h => h.sameShape m.sameShape_resetSearch)
    fun {_ _ clock fuel _ _} => within_runStage { setup with clock, fuel }
  obtain ⟨n, ⟨o, u, t⟩, ho, hn⟩ := ends_of_inStage
    (interrupt setup stage (stage.budgetEnd (nextStage s).memo.exprCount) root required)
    0 (inStage_start setup root required stage hsound hlimit)
  refine ⟨n, o, t, fun fuel hfuel => ?_, ?_⟩
  · exact congrArg (fun r => (r.1, r.2.2)) (hn fuel hfuel)
  · cases o with
    | completed => exact .inl rfl
    | interrupted reason => exact .inr (.inl ⟨reason, rfl⟩)
    | failed err => exact .inr (.inr ⟨err, rfl⟩)
    | outOfFuel => exact absurd rfl ho

end

/-- A stage about two tables ends. -/
theorem runStage_ends_twoTables :
    ∃ m, (Memo.empty true (some 100000) : Memo Unit Nat).insert (unitSetup.source threeColumns) twoTables =
        (.ok ⟨2⟩, m) ∧
      ∃ n o t, (∀ fuel, n ≤ fuel →
          runStage { timedSetup 36 with fuel } {} ⟨2⟩ .none (nextStage ⟨m, threeColumns, .none⟩) = (o, t)) ∧
        (o = .completed ∨ (∃ reason, o = .interrupted reason) ∨ ∃ err, o = .failed err) := by
  have hroot : ((Memo.empty true (some 100000) : Memo Unit Nat).insert (unitSetup.source threeColumns)
      twoTables).1.toOption = some ⟨2⟩ := by decide +kernel
  cases h : (Memo.empty true (some 100000) : Memo Unit Nat).insert (unitSetup.source threeColumns) twoTables with
  | mk r m =>
    rw [h] at hroot
    cases r with
    | error err => cases hroot
    | ok root =>
      obtain rfl : root = ⟨2⟩ := Option.some.inj hroot
      have hstaged : Staged (timedSetup 36) twoTables threeColumns ⟨2⟩ .none ⟨m, threeColumns, .none⟩ := .inserted h
      exact ⟨m, rfl, runStage_ends (timedSetup 36) hstaged {}⟩

end Cascade
