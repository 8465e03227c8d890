import Cascade.Proofs.Search.Optimum
import Cascade.Proofs.Search.Runs

/-!
The stages of a search. A stage begins with the memo that the ones before it have left, whatever has ended them
(`Staged`), and goes through its turns (`StageTurns`).
-/

namespace Cascade

open Memo Search Scheduler

variable {σ κ : Type}

/-- The state in which the next stage begins: what was explored and optimized in the ones before it is forgotten. -/
def Search.nextStage (s : SearchState σ κ) : SearchState σ κ :=
  { s with
    memo := if s.stats.stages = 0 then s.memo else s.memo.resetSearch
    stats := { s.stats with stages := s.stats.stages + 1 } }

variable [Zero κ] [Add κ] [LT κ] [DecidableLT κ]

/-- A tree has been inserted, and stages have been run for its root, each of them until it has completed or was
interrupted. The time that passes can be another one in each of them. -/
inductive Staged (setup : OptimizerSetup σ κ) (e : Expr) (columns : Columns) (root : GroupId) (required : Required) :
    SearchState σ κ → Prop
  | inserted {m : Memo σ κ}
    (h : (Memo.empty setup.config.verifyProperties (some setup.config.memoLimit) : Memo σ κ).insert
      (setup.source columns) e = (.ok root, m)) : Staged setup e columns root required ⟨m, columns, .none⟩
  | stage {s t : SearchState σ κ} {clock : Nat → Nat} {fuel : Nat} {stage : SearchStage} {o : Outcome StageEnd}
    (hs : Staged setup e columns root required s)
    (hrun : runStage { setup with clock, fuel } stage root required (nextStage s) = (o, t))
    (ho : o.isRegular = true) : Staged setup e columns root required t

variable {setup : OptimizerSetup σ κ} {e : Expr} {columns : Columns} {root : GroupId} {required : Required}
  {s : SearchState σ κ}

/-- What insertions and stages keep true of the memo is true when a stage begins. -/
theorem Staged.induct (hs : Staged setup e columns root required s) {I : Memo σ κ → Prop}
    (hinsert : ∀ m, (Memo.empty setup.config.verifyProperties (some setup.config.memoLimit) : Memo σ κ).insert
      (setup.source columns) e = (.ok root, m) → I m)
    (hreset : ∀ m, I m → I m.resetSearch)
    (hstage : ∀ {s t : SearchState σ κ} {clock fuel stage o},
      s.memo.Sound setup.config.subsetHashMatching → I s.memo →
      runStage { setup with clock, fuel } stage root required s = (o, t) → o.isRegular = true → I t.memo) :
    (nextStage s).memo.Sound setup.config.subsetHashMatching ∧ I (nextStage s).memo := by
  have hnext : ∀ s : SearchState σ κ, s.memo.Sound setup.config.subsetHashMatching → I s.memo →
      (nextStage s).memo.Sound setup.config.subsetHashMatching ∧ I (nextStage s).memo := by
    intro s hsound hi
    refine ⟨(follows_resetSearch hsound).sound, ?_⟩
    unfold nextStage
    dsimp only
    split
    · exact hi
    · exact hreset _ hi
  induction hs with
  | inserted h => exact hnext _ (sound_insert h _).1 (hinsert _ h)
  | @stage s t clock fuel stage o _ hrun ho ih =>
    have hsetup := follows_runStage { setup with clock, fuel } stage root required ih.1 hrun ho
    exact hnext t hsetup.sound (hstage ih.1 ih.2 hrun ho)

/-- What insertions and stages keep true of the memo is true when a stage has ended. -/
theorem Staged.reached (hs : Staged setup e columns root required s) {I : Memo σ κ → Prop}
    (hinsert : ∀ m, (Memo.empty setup.config.verifyProperties (some setup.config.memoLimit) : Memo σ κ).insert
      (setup.source columns) e = (.ok root, m) → I m)
    (hreset : ∀ m, I m → I m.resetSearch)
    (hstage : ∀ {s t : SearchState σ κ} {clock fuel stage o},
      s.memo.Sound setup.config.subsetHashMatching → I s.memo →
      runStage { setup with clock, fuel } stage root required s = (o, t) → o.isRegular = true → I t.memo) :
    s.memo.Sound setup.config.subsetHashMatching ∧ I s.memo := by
  cases hs with
  | inserted h => exact ⟨(sound_insert h _).1, hinsert _ h⟩
  | @stage s t clock fuel stage o hs hrun ho =>
    obtain ⟨hsound, h⟩ := hs.induct hinsert hreset hstage
    exact ⟨(follows_runStage { setup with clock, fuel } stage root required hsound hrun ho).sound, hstage hsound h hrun ho⟩

/-- The turns of a stage that begins in a state. -/
def StageTurns (setup : OptimizerSetup σ κ) (stage : SearchStage) (root : GroupId) (required : Required)
    (s : SearchState σ κ) (turns : List (Turn SearchJob JobKey (SearchState σ κ))) : Prop :=
  ∃ last, History (jobs (environment setup stage))
    (interrupt setup stage (stage.budgetEnd s.memo.exprCount) root required) 0
    (Scheduler.empty.spawn (jobs (environment setup stage)) none (.optimizeGroup (s.memo.find root) required false []))
    s turns ((runStage setup stage root required s).1, last, (runStage setup stage root required s).2)

/-- The job of the root is all that there is when a stage begins. -/
theorem orderly_spawn_root {C : Type} (sys : JobSystem SearchJob JobKey C) (job : SearchJob) :
    ((Scheduler.empty : Scheduler SearchJob JobKey).spawn sys none job).Orderly none [] := by
  have hempty : Reusable sys .empty := .empty
  exact hempty.idle.1.spawn sys job

theorem exists_stageTurns (setup : OptimizerSetup σ κ) (stage : SearchStage) (root : GroupId) (required : Required)
    (s : SearchState σ κ) : ∃ turns, StageTurns setup stage root required s turns := by
  obtain ⟨turns, h⟩ := exists_history (jobs (environment setup stage))
    (interrupt setup stage (stage.budgetEnd s.memo.exprCount) root required) setup.fuel 0 s
    (orderly_spawn_root _ (.optimizeGroup (s.memo.find root) required false []))
  exact ⟨turns, _, h⟩

/-- What runs of jobs keep is true in every turn, and in the end if that is regular. -/
theorem Scheduler.History.keeps {J K C τ : Type} [DecidableEq K] {sys : JobSystem J K C} {I : C → Prop} {P : C → J → Prop}
    {interrupt : Nat → C → Except PlanError (Option τ)} {runs : Nat} {s : Scheduler J K} {c : C}
    {turns : List (Turn J K C)} {r : Outcome τ × Scheduler J K × C} (h : History sys interrupt runs s c turns r)
    (hkeeps : sys.Keeps I P) (hc : I c) (hs : s.Holds (fun _ => P c)) :
    (∀ t ∈ turns, I t.seen ∧ P t.seen t.job) ∧ (r.1.isRegular = true → I r.2.2) := by
  have htaken : ∀ {t : Turn J K C}, t.Made sys → t.before.Holds (fun _ => P t.seen) →
      P t.seen t.job ∧ t.running.Holds (fun _ => P t.seen) := by
    intro t ht hs
    obtain ⟨ready, u, -, htake, hrunning⟩ := ht.taken
    have hs : Holds { t.before with ready } (fun _ => P t.seen) := hs
    obtain ⟨hu, -, -, -, hjob⟩ := hs.take htake
    exact ⟨hjob, hrunning ▸ hu⟩
  induction h with
  | outOfFuel => exact ⟨nofun, nofun⟩
  | completed => exact ⟨nofun, fun _ => hc⟩
  | refused => exact ⟨nofun, nofun⟩
  | interrupted => exact ⟨nofun, fun _ => invariant_abandonAll hkeeps _ hc⟩
  | failed _ ht _ => exact ⟨List.forall_mem_singleton.2 ⟨hc, (htaken ht hs).1⟩, nofun⟩
  | @turn _ t step _ _ _ ht hresult _ ih =>
    obtain ⟨hjob, hrunning⟩ := htaken ht hs
    obtain ⟨hleft, hkeep, hjobs⟩ := hkeeps.run hc hjob (hresult ▸ ht.run)
    have hafter : t.after.Holds (fun _ => P t.left) := by
      refine (hrunning.mono fun _ => hkeep).proceed sys ?_ ?_ (ht.proceeds step hresult)
      · rintro next children rfl _ _
        exact hjobs next (List.mem_cons_self ..)
      · rintro next children rfl j hj
        exact hjobs j (List.mem_cons_of_mem _ hj)
    obtain ⟨hturns, hend⟩ := ih hleft hafter
    exact ⟨List.forall_mem_cons.2 ⟨⟨hc, hjob⟩, hturns⟩, hend⟩

/-- What runs of jobs keep is true all through a stage. -/
theorem StageTurns.keeps {stage : SearchStage} {turns : List (Turn SearchJob JobKey (SearchState σ κ))}
    (h : StageTurns setup stage root required s turns) {I : SearchState σ κ → Prop} {P : SearchState σ κ → SearchJob → Prop}
    (hkeeps : (jobs (environment setup stage)).Keeps I P) (hs : I s)
    (hroot : P s (.optimizeGroup (s.memo.find root) required false [])) :
    (∀ t ∈ turns, I t.seen ∧ P t.seen t.job) ∧
      ((runStage setup stage root required s).1.isRegular = true → I (runStage setup stage root required s).2) :=
  h.choose_spec.keeps hkeeps hs ((holds_clear .empty fun _ => P s).spawn _ none hroot)

/-- After the stages of a search the next one could begin. -/
theorem Staged.of_runStages (hs : Staged setup e columns root required s) (stages : List SearchStage)
    (exhausted : Option Resource) :
    Yields (runStages setup root required stages exhausted) s (fun _ t => Staged setup e columns root required t)
      (fun _ _ => True) := by
  induction stages generalizing exhausted s with
  | nil => exact .of_pure hs
  | cons stage rest ih =>
    refine .bind_modify (.bind_modifyGet ?_)
    generalize hrun : runStage setup stage root required _ = r
    obtain ⟨o, t⟩ := r
    have hstage : o.isRegular = true → Staged setup e columns root required t := hs.stage hrun
    cases o with
    | completed =>
      refine .bind_memo ?_
      split
      · exact .of_pure (hstage rfl)
      · exact ih (hstage rfl) none
    | interrupted reason =>
      cases reason with
      | cheapEnough => exact .of_pure (hstage rfl)
      | exhausted r => exact ih (hstage rfl) (some r)
    | failed err => exact .of_throw trivial
    | outOfFuel => exact .of_throw trivial

/-- The plan that is found is that of a context which the last stage leaves for what was required. -/
theorem Staged.of_optimize {after : Columns} {o : Optimized κ} (h : optimize setup e required columns = (.ok o, after)) :
    ∃ root s id, Staged setup e columns root required s ∧ s.memo.Offered id root required ∧
      s.memo.plan id = .ok o.plan := by
  obtain ⟨root, inserted, exhausted, last, id, hinsert, hstages, -, hoffered, hplan⟩ := offered_of_optimize setup h
  have hs := (Staged.of_runStages (.inserted hinsert) setup.config.searchStages none).of_ok hstages
  exact ⟨root, last, id, hs, hoffered, hplan⟩

/-- What the insertion makes known of the group of the tree stays known. -/
theorem Staged.logical? (hs : Staged setup e columns root required s) {P : LogicalProperties → Prop}
    (hinsert : ∀ m, (Memo.empty setup.config.verifyProperties (some setup.config.memoLimit) : Memo σ κ).insert
      (setup.source columns) e = (.ok root, m) → ∃ p, m.logical? root = some p ∧ P p) :
    ∃ p, s.memo.logical? root = some p ∧ P p := by
  have hkeep : ∀ {m n : Memo σ κ}, Extends m n → (∃ p, m.logical? root = some p ∧ P p) →
      ∃ p, n.logical? root = some p ∧ P p := fun k ⟨p, hp, h⟩ => ⟨p, logical?_mono k hp, h⟩
  refine (hs.reached (I := fun m => ∃ p, m.logical? root = some p ∧ P p) hinsert
    (fun m => hkeep m.inherits_resetSearch.toExtends) ?_).2
  intro s t clock fuel stage o hsound h hrun ho
  exact hkeep (follows_runStage { setup with clock, fuel } stage root required hsound hrun ho).extends_ h

end Cascade
