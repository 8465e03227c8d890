import Cascade.Proofs.Memo.Evolution
import Cascade.Proofs.Search.Loads
import Cascade.Proofs.Search.Runs
import Cascade.Proofs.Search.Stages
import Cascade.Proofs.Search.Steps

/-!
Pins of the search. What a job does to the memo are operations that pin the inputs it chooses and take back no other pins
(`JobStep.evolves`). So while a stage runs, the pins are those of the chosen inputs of waiting jobs (`History.evolves`),
when it has completed there are none, and when it is interrupted the jobs that are given up take theirs back
(`runStage_unpins`).
-/

namespace Cascade

open Memo Search Scheduler

variable {σ κ : Type}

/-- The pins that a waiting job holds. -/
def SearchJob.pins : SearchJob → List ContextId
  | .optimizeExpr _ _ (some q) => q.inputs
  | _ => []

/-- The pins that a job holds after its run. -/
def Step.pins : Step SearchJob → List ContextId
  | .done => []
  | .spawn next _ => next.pins

theorem JobKey.pins_start (k : JobKey) : k.start.pins = [] := by cases k <;> rfl

theorem abandonJob_eq (job : SearchJob) (s : SearchState σ κ) :
    abandonJob job s = { s with memo := releaseInputs job.pins s.memo } := by
  cases job with
  | optimizeExpr e r progress => cases progress <;> rfl
  | _ => rfl

section

variable [LT κ] [DecidableLT κ] {m n : Memo σ κ} {pins rest : List ContextId}

theorem evolves_releaseInputs (m : Memo σ κ) (inputs rest : List ContextId) :
    m.Evolves (inputs ++ rest) (releaseInputs inputs m) rest := by
  induction inputs generalizing m with
  | nil => exact .refl m (.refl rest)
  | cons id inputs ih =>
    have hunpin := Evolves.apply m (id :: inputs ++ rest) (.unpin id) (List.mem_append_left _ (List.mem_cons_self ..))
    have herase : m.pinsAfter (id :: inputs ++ rest) (.unpin id) = inputs ++ rest := by
      rw [List.cons_append]
      exact List.erase_cons_head ..
    exact (herase ▸ hunpin).trans (ih (m.unpin id))

theorem evolves_settle (m : Memo σ κ) (pins : List ContextId) (k : JobKey) : m.Evolves pins (m.settle k) pins := by
  cases k with
  | optimizeGroup g r => exact .apply m pins (.markGroupOptimized g r) trivial
  | implementGroup g => exact .apply m pins (.markGroupImplemented g) trivial
  | exploreGroup g => exact .apply m pins (.markGroupExplored g) trivial
  | implementExpr e => exact .apply m pins (.markExprImplemented e) trivial
  | exploreExpr e => exact .apply m pins (.markExprExplored e) trivial
  | applyRule e r => exact .apply m pins (.markApplied e r) trivial
  | optimizeExpr e r => exact .apply m pins (.markExprOptimized e r) trivial

theorem evolves_pin {id : ContextId} (h : m.pin id = .ok n) : m.Evolves pins n (id :: pins) := by
  have hpin := Evolves.apply m pins (.pin id) trivial
  have happly : m.apply (.pin id) = n := by rw [Memo.apply, h, settled]
  have hpins : m.pinsAfter pins (.pin id) = id :: pins := if_pos (by rw [h]; rfl)
  rwa [happly, hpins] at hpin

theorem evolves_addContext {c : CostContext κ} {r : Option ContextId} (h : m.addContext c = .ok (r, n)) :
    m.Evolves pins n pins := by
  have hadd := Evolves.apply m pins (.addContext c) trivial
  have happly : m.apply (.addContext c) = n := by rw [Memo.apply, h]; rfl
  rwa [happly] at hadd

theorem Insertions.evolves (h : Insertions m n) (pins : List ContextId) : m.Evolves pins n pins := by
  induction h with
  | refl => exact .refl m (.refl pins)
  | @insert n _ source g e ih => exact ih.trans (.apply n pins (.insertInto source g e) trivial)

variable {env : SearchEnv σ κ} {job next : SearchJob} {keys : List JobKey} {step : Step SearchJob}

omit [LT κ] [DecidableLT κ] in
theorem Asks.pins_eq (h : Asks env m job next keys) : next.pins = [] := by cases h <;> rfl

theorem PlainStep.evolves (h : PlainStep env m job step n) (hpins : job.pins = []) (rest : List ContextId) :
    m.Evolves (job.pins ++ rest) n (step.pins ++ rest) := by
  rw [hpins]
  cases h with
  | settled => exact .refl m (.refl rest)
  | settles => exact evolves_settle m rest job.key
  | asks h =>
    rw [Step.pins, h.pins_eq]
    exact .refl m (.refl rest)

end

section

variable [LT κ] [DecidableLT κ] {m n : Memo σ κ} {q r : RequestProgress}

/-- A request that receives an input pins it. -/
theorem Received.evolves {id : ExprId} {required : Required} {goesOn : Bool} (h : Received id required m q r goesOn n) (rest : List ContextId) :
    m.Evolves (q.inputs ++ rest) n (r.inputs ++ rest) := by
  cases h with
  | nothing => exact .refl m (.refl _)
  | refused => exact .refl m (.refl _)
  | @chosen _ _ _ winner _ _ _ _ _ _ hpin =>
    refine (evolves_pin hpin).trans (.refl n ?_)
    rw [List.append_assoc]
    exact List.perm_middle.symm

variable [Zero κ] [Add κ] {env : SearchEnv σ κ} {id : ExprId} {op : PhysicalOp} {required : Required}
  {step : Step SearchJob}

/-- How far a request has come. -/
def Search.RequestStep.progress : RequestStep → RequestProgress
  | .await q _ _ => q
  | .finished q => q

theorem RequestRun.evolves {x : RequestStep} (h : RequestRun env id op required m q x n) (rest : List ContextId) :
    m.Evolves (q.inputs ++ rest) n (x.progress.inputs ++ rest) := by
  cases h with
  | awaits h => exact h.evolves rest
  | fruitless h => exact h.evolves rest
  | offers h _ _ _ hadd => exact (h.evolves rest).trans (evolves_addContext hadd)

theorem RequestsRun.evolves {remaining : Nat} (h : RequestsRun env id op required remaining q m step n)
    (hnone : remaining = 0 → q.inputs = []) (rest : List ContextId) :
    m.Evolves (q.inputs ++ rest) n (step.pins ++ rest) := by
  -- on the requests that are left, each of which begins without inputs
  induction h with
  | done =>
    rw [hnone rfl]
    exact .apply _ _ (.markExprOptimized id required) trivial
  | awaits h => exact h.evolves rest
  | next h _ ih => exact ((h.evolves rest).trans (evolves_releaseInputs _ _ rest)).trans (ih fun _ => rfl)

/-- A job pins the inputs it chooses, and takes back no other pins. -/
theorem JobStep.evolves {job : SearchJob} (h : JobStep env m job step n) (hvalid : ValidJob m job)
    (rest : List ContextId) : m.Evolves (job.pins ++ rest) n (step.pins ++ rest) := by
  cases job with
  | applyRule id rule =>
    cases h with
    | settled => exact .refl m (.refl rest)
    | applied he hnew _ h =>
      exact (Evolves.apply m rest (.markApplied id rule) trivial).trans ((h.insertions .refl).evolves rest)
  | optimizeExpr id required progress =>
    cases h with
    | settled => exact .refl m (.refl rest)
    | first hop hnew h => exact h.evolves (fun _ => rfl) rest
    | @resumed op q _ _ hop h =>
      refine h.evolves (fun hzero => ?_) rest
      obtain ⟨op', e, p, hu⟩ := hvalid
      obtain ⟨f, hf, hfop⟩ := hop
      cases hf.symm.trans hu.expr
      cases hfop.symm.trans hu.op_eq
      have := hu.request_lt
      omega
  | _ => exact PlainStep.evolves h rfl rest

theorem RequestsRun.pins_children {remaining : Nat} (h : RequestsRun env id op required remaining q m step n)
    {next : SearchJob} {children : List SearchJob} (hstep : step = .spawn next children) :
    ∀ j ∈ children, j.pins = [] := by
  induction h with
  | done => cases hstep
  | awaits =>
    cases hstep
    exact List.forall_mem_singleton.2 rfl
  | next _ _ ih => exact ih hstep

/-- The jobs that are asked for hold no pins. -/
theorem JobStep.pins_children {job next : SearchJob} {children : List SearchJob}
    (h : JobStep env m job (.spawn next children) n) : ∀ j ∈ children, j.pins = [] := by
  cases job with
  | applyRule id rule => cases h
  | optimizeExpr id required progress =>
    cases h with
    | first _ _ h => exact h.pins_children rfl
    | resumed _ h => exact h.pins_children rfl
  | _ =>
    cases h with
    | asks =>
      intro j hj
      obtain ⟨k, -, rfl⟩ := List.mem_map.1 hj
      exact k.pins_start

end

/-- The pins that waiting jobs hold. -/
def Scheduler.pins (s : Scheduler SearchJob JobKey) : List ContextId :=
  (s.entries.filterMap (fun e => e.bind Entry.job)).flatMap SearchJob.pins

theorem Scheduler.count_pins (s : Scheduler SearchJob JobKey) (id : ContextId) :
    s.pins.count id = s.load (fun j => j.pins.count id) := by
  unfold Scheduler.pins load
  induction s.entries with
  | nil => rfl
  | cons e rest ih =>
    rw [List.map_cons, total_cons, ← ih, List.filterMap_cons]
    unfold weight
    cases e.bind Entry.job with
    | none => simp
    | some j => simp [List.count_append]

section

variable [Zero κ] [Add κ] [LT κ] [DecidableLT κ] (env : SearchEnv σ κ)

/-- Jobs that are given up take their pins back. -/
theorem evolves_abandonAll (s : Scheduler SearchJob JobKey) (c : SearchState σ κ) :
    c.memo.Evolves s.pins (s.abandonAll (jobs env) c).memo [] := by
  unfold Scheduler.pins abandonAll
  generalize s.entries.filterMap (fun e => e.bind Entry.job) = waiting
  induction waiting generalizing c with
  | nil => exact .refl c.memo (.refl [])
  | cons job waiting ih =>
    refine Evolves.trans ?_ (ih (abandonJob job c))
    rw [abandonJob_eq]
    exact evolves_releaseInputs c.memo job.pins _

variable {env} {t : Turn SearchJob JobKey (SearchState σ κ)}

/-- In every turn the pins are those that the waiting jobs hold. -/
theorem Turn.Made.evolves (ht : t.Made (jobs env)) (ho : t.before.Orderly none [])
    (hvalid : ValidJob t.seen.memo t.job) {step : Step SearchJob} (hstep : t.result = .ok step) :
    t.seen.memo.Evolves t.before.pins t.left.memo t.after.pins := by
  have hbefore : t.before.pins.Perm (t.job.pins ++ t.running.pins) := List.perm_iff_count.2 fun id => by
    rw [List.count_append, count_pins, count_pins, ht.load_before, Nat.add_comm]
  have hrun : (runJob env t.job).run t.seen = (.ok step, t.left) := hstep ▸ ht.run
  have hjob := (yields_jobStep env t.job t.seen).of_ok hrun
  refine ((Evolves.refl _ hbefore).trans (hjob.evolves hvalid t.running.pins)).trans (.refl _ ?_)
  refine List.perm_iff_count.2 fun id => ?_
  rw [List.count_append, count_pins, count_pins]
  cases step with
  | done =>
    obtain ⟨e, he, -⟩ := ht.job_running
    rw [(ht.load_done hstep (keyAt_of_entryAt he)).1]
    simp [Step.pins]
  | spawn next children =>
    have hzero : ∀ j ∈ children, j.pins.count id = 0 := fun j hj => by simp [hjob.pins_children j hj]
    rw [ht.load_spawn_of_zero ho hstep hzero, Nat.add_comm]
    rfl

theorem Scheduler.Idle.pins_eq {s : Scheduler SearchJob JobKey} (h : s.Idle) : s.pins = [] := by
  unfold Scheduler.pins
  rw [List.filterMap_eq_nil_iff.2, List.flatMap_nil]
  intro x hx
  obtain ⟨i, hi⟩ := List.getElem?_of_mem hx
  have hnone := h.2 i
  unfold Knows entryAt at hnone
  rw [hi] at hnone
  cases x with
  | none => rfl
  | some e => exact absurd rfl hnone

variable {s : Scheduler SearchJob JobKey} {c : SearchState σ κ} {runs : Nat} {τ : Type}
  {interrupt : Nat → SearchState σ κ → Except PlanError (Option τ)} {turns : List (Turn SearchJob JobKey (SearchState σ κ))}
  {r : Outcome τ × Scheduler SearchJob JobKey × SearchState σ κ}

/-- In a run the memo of every turn comes from those of the turns before it by operations, and if the run ends otherwise
than by an error, the memo in the end comes from all of them, and no pins are left. -/
theorem Scheduler.History.evolves (h : History (jobs env) interrupt runs s c turns r) (ho : s.Orderly none [])
    (hsound : c.memo.Sound env.config.subsetHashMatching) (hvalid : s.Holds (fun _ => ValidJob c.memo)) :
    (∀ t ∈ turns, c.memo.Evolves s.pins t.seen.memo t.before.pins) ∧
    turns.Pairwise (fun t u => t.seen.memo.Evolves t.before.pins u.seen.memo u.before.pins) ∧
    (r.1.isRegular = true → c.memo.Evolves s.pins r.2.2.memo [] ∧
      ∀ t ∈ turns, t.seen.memo.Evolves t.before.pins r.2.2.memo []) := by
  -- on the turns: in each of them the pins are those of the waiting jobs
  induction h with
  | outOfFuel => exact ⟨List.forall_mem_nil _, .nil, fun hr => by cases hr⟩
  | @completed _ s c _ hactive =>
    have hpins : s.pins.Perm [] := (ho.idle hactive).pins_eq ▸ .refl []
    exact ⟨List.forall_mem_nil _, .nil, fun _ => ⟨.refl c.memo hpins, List.forall_mem_nil _⟩⟩
  | refused => exact ⟨List.forall_mem_nil _, .nil, fun hr => by cases hr⟩
  | @interrupted _ s c =>
    exact ⟨List.forall_mem_nil _, .nil, fun _ => ⟨evolves_abandonAll env s c, List.forall_mem_nil _⟩⟩
  | @failed _ t =>
    exact ⟨List.forall_mem_singleton.2 (.refl t.seen.memo (.refl t.before.pins)), List.pairwise_singleton _ t,
      fun hr => by cases hr⟩
  | @turn _ t step _ _ _ ht hresult _ ih =>
    obtain ⟨k, -, hjob⟩ := ht.holds_job hvalid
    have hrun : (runJob env t.job).run t.seen = (.ok step, t.left) := hresult ▸ ht.run
    obtain ⟨hleft, hkept, hsteps⟩ := (keeps_jobs env t.seen).run (.refl hsound) hjob hrun
    have hafter : t.after.Holds (fun _ => ValidJob t.left.memo) := by
      refine ht.holds_after hvalid (fun _ => hkept) hresult ?_ ?_
      · rintro next children rfl _ _
        exact hsteps next (List.mem_cons_self ..)
      · rintro next children rfl j hj
        exact hsteps j (List.mem_cons_of_mem _ hj)
    obtain ⟨hturns, hlater, hend⟩ := ih (ht.orderly_after ho) hleft.sound hafter
    have hturn := ht.evolves ho hjob hresult
    refine ⟨List.forall_mem_cons.2 ⟨.refl t.seen.memo (.refl t.before.pins), fun u hu => hturn.trans (hturns u hu)⟩,
      .cons (fun u hu => hturn.trans (hturns u hu)) hlater, fun hr => ?_⟩
    obtain ⟨hlast, hall⟩ := hend hr
    exact ⟨hturn.trans hlast, List.forall_mem_cons.2 ⟨hturn.trans hlast, hall⟩⟩

end

section

variable [Zero κ] [Add κ] [LT κ] [DecidableLT κ] (setup : OptimizerSetup σ κ) {stage : SearchStage} {root : GroupId}
  {required : Required} {s t : SearchState σ κ} {o : Outcome StageEnd}

/-- In a stage that begins without pins memos come from each other by operations. -/
theorem StageTurns.evolves {turns : List (Turn SearchJob JobKey (SearchState σ κ))}
    (h : StageTurns setup stage root required s turns) (hsound : s.memo.Sound setup.config.subsetHashMatching) :
    (∀ t ∈ turns, s.memo.Evolves [] t.seen.memo t.before.pins) ∧
    turns.Pairwise (fun t u => t.seen.memo.Evolves t.before.pins u.seen.memo u.before.pins) ∧
    ((runStage setup stage root required s).1.isRegular = true →
      s.memo.Evolves [] (runStage setup stage root required s).2.memo [] ∧
      ∀ t ∈ turns, t.seen.memo.Evolves t.before.pins (runStage setup stage root required s).2.memo []) := by
  obtain ⟨last, h⟩ := h
  have hpins : ((Scheduler.empty.spawn (jobs (environment setup stage)) none
      (.optimizeGroup (s.memo.find root) required false [])).pins : List ContextId) = [] := by
    refine List.perm_nil.1 (List.perm_iff_count.2 fun id => ?_)
    have hroot : (SearchJob.optimizeGroup (s.memo.find root) required false []).pins.count id = 0 := rfl
    have hempty : Reusable (jobs (environment setup stage)) .empty := .empty
    rw [count_pins, hempty.idle.1.load_spawn, hroot, ite_self]
    rfl
  rw [← hpins]
  refine h.evolves (orderly_spawn_root _ _) hsound ?_
  exact (holds_clear .empty fun _ => ValidJob s.memo).spawn _ none trivial

theorem evolves_runStage (hsound : s.memo.Sound setup.config.subsetHashMatching)
    (hrun : runStage setup stage root required s = (o, t)) (ho : o.isRegular = true) : s.memo.Evolves [] t.memo [] := by
  obtain ⟨turns, h⟩ := exists_stageTurns setup stage root required s
  cases hrun
  exact ((h.evolves setup hsound).2.2 ho).1

/-- The memo between stages is brought about by operations, and there are no pins. -/
theorem Staged.evolves {e : Expr} {columns : Columns} (hs : Staged setup e columns root required s) :
    s.memo.Sound setup.config.subsetHashMatching ∧
      (Memo.empty setup.config.verifyProperties (some setup.config.memoLimit)).Evolves [] s.memo [] := by
  refine hs.reached (I := fun m => (Memo.empty _ _).Evolves [] m []) (fun m h => ?_) (fun m h => ?_) ?_
  · have hinsert := Evolves.apply (Memo.empty setup.config.verifyProperties (some setup.config.memoLimit) : Memo σ κ)
      [] (.insert (setup.source columns) e) trivial
    have hm : Memo.apply (Memo.empty _ _) (.insert (setup.source columns) e) = m := congrArg Prod.snd h
    rwa [hm] at hinsert
  · exact h.trans (.apply m [] .resetSearch trivial)
  · intro s t clock fuel stage o hsound h hrun ho
    exact h.trans (evolves_runStage { setup with clock, fuel } hsound hrun ho)

omit [Zero κ] [Add κ] in
theorem evolves_nextStage (s : SearchState σ κ) : s.memo.Evolves [] (nextStage s).memo [] := by
  unfold nextStage
  dsimp only
  split
  · exact .refl s.memo (.refl [])
  · exact .apply s.memo [] .resetSearch trivial

theorem retained_runStage (hsound : s.memo.Sound setup.config.subsetHashMatching) (hm : s.memo.Retained [])
    (hrun : runStage setup stage root required s = (o, t)) (ho : o.isRegular = true) : t.memo.Retained [] :=
  (evolves_runStage setup hsound hrun ho).retained hm

/-- After a stage that has completed or was interrupted, whenever that was, a context is referred to just by the
winners that name it and by the present contexts that have it as an input. -/
theorem runStage_unpins {e : Expr} {columns : Columns} (hs : Staged setup e columns root required s)
    (hrun : runStage setup stage root required (nextStage s) = (o, t)) (ho : o.isRegular = true) (id : ContextId)
    (slot : ContextSlot κ) (hslot : t.memo.contexts.slots[id.index]? = some slot) :
    slot.refs = t.memo.winnerCount id + t.memo.contexts.inputCount id := by
  have hinsert : ∀ m, (Memo.empty setup.config.verifyProperties (some setup.config.memoLimit) : Memo σ κ).insert
      (setup.source columns) e = (.ok root, m) → m.Retained [] := by
    intro m h
    have hempty := retained_empty (σ := σ) (κ := κ) setup.config.verifyProperties (some setup.config.memoLimit)
    have hm : (insert (setup.source columns) e (Memo.empty _ _)).2.Retained [] :=
      hempty.insertAt (setup.source columns) e (target_none _)
    rwa [h] at hm
  obtain ⟨hsound, hm⟩ := hs.induct hinsert (fun _ => Retained.resetSearch)
    fun {_ _ clock fuel _ _} => retained_runStage { setup with clock, fuel }
  exact (retained_runStage setup hsound hm hrun ho).counted.refs hslot

end

section

/-- Two tables of constants, one after the other. -/
def twoTables : Expr :=
  .node (.logical (.unionAll ⟨[3], [[1], [2]]⟩))
    [.node (.logical (.values ⟨[1], [[.int32 2]]⟩)) [], .node (.logical (.values ⟨[2], [[.int32 1]]⟩)) []]

def threeColumns : Columns := ⟨#[⟨"a", .int32, none⟩, ⟨"b", .int32, none⟩, ⟨"c", .int32, none⟩]⟩

/-- The time is up after so many runs of jobs. -/
def timedSetup (runs : Nat) : OptimizerSetup Unit Nat :=
  { unitSetup with
    order := [.valuesToConstTableGet, .unionAllToAppend]
    clock := fun n => if n < runs then 0 else 1 }

/-- After 36 runs the first table has been chosen and pinned, and the second one is being optimized. -/
theorem runStage_unpins_twoTables :
    ∃ m t, (Memo.empty true (some 100000) : Memo Unit Nat).insert (unitSetup.source threeColumns) twoTables =
        (.ok ⟨2⟩, m) ∧
      runStage (timedSetup 36) { timeLimit := some 1 } ⟨2⟩ .none (nextStage ⟨m, threeColumns, .none⟩) =
        (.interrupted (.exhausted .timeout), t) ∧
      ∃ slot, t.memo.contexts.slots[0]? = some slot ∧
        slot.refs = t.memo.winnerCount ⟨0⟩ + t.memo.contexts.inputCount ⟨0⟩ := by
  have hroot : ((Memo.empty true (some 100000) : Memo Unit Nat).insert (unitSetup.source threeColumns)
      twoTables).1.toOption = some ⟨2⟩ := by decide +kernel
  have hend : ((runStage (timedSetup 36) { timeLimit := some 1 } ⟨2⟩ .none (nextStage
      ⟨((Memo.empty true (some 100000) : Memo Unit Nat).insert (unitSetup.source threeColumns) twoTables).2,
        threeColumns, .none⟩)).1 matches .interrupted (.exhausted .timeout)) = true ∧
      (runStage (timedSetup 36) { timeLimit := some 1 } ⟨2⟩ .none (nextStage
        ⟨((Memo.empty true (some 100000) : Memo Unit Nat).insert (unitSetup.source threeColumns) twoTables).2,
          threeColumns, .none⟩)).2.memo.contexts.slots.length = 1 := by decide +kernel
  cases h : (Memo.empty true (some 100000) : Memo Unit Nat).insert (unitSetup.source threeColumns) twoTables with
  | mk r m =>
    rw [h] at hroot hend
    cases r with
    | error err => cases hroot
    | ok root =>
      obtain rfl : root = ⟨2⟩ := Option.some.inj hroot
      cases hrun : runStage (timedSetup 36) { timeLimit := some 1 } ⟨2⟩ .none
          (nextStage ⟨m, threeColumns, .none⟩) with
      | mk o t =>
        rw [hrun] at hend
        obtain ⟨hinterrupted, hlength⟩ := hend
        dsimp only at hinterrupted
        split at hinterrupted
        · obtain ⟨slot, hslot⟩ : ∃ slot, t.memo.contexts.slots[0]? = some slot := by
            rw [List.length_eq_one_iff] at hlength
            obtain ⟨slot, hslots⟩ := hlength
            exact ⟨slot, by rw [hslots]; rfl⟩
          have hstaged : Staged (timedSetup 36) twoTables threeColumns ⟨2⟩ .none ⟨m, threeColumns, .none⟩ := .inserted h
          exact ⟨m, t, rfl, hrun, slot, hslot, runStage_unpins (timedSetup 36) hstaged hrun rfl ⟨0⟩ slot hslot⟩
        · cases hinterrupted

end

end Cascade
