import Cascade.Proofs.Search.Scheduling
import Cascade.Proofs.Search.Turns
import Cascade.Proofs.Sequence

/-!
What waiting jobs carry. Every waiting job has a weight; a run takes the weight of its job away and brings back
that of the job it goes on as and those of the jobs it asks for anew (`Turn.Made.load_spawn`).
-/

namespace Cascade

open Relation Scheduler

namespace Scheduler

variable {J K C : Type}

/-- The weight of the job at a place. -/
def weight (w : J → Nat) (x : Option (Entry J K)) : Nat := ((x.bind Entry.job).map w).getD 0

/-- What the waiting jobs weigh together. -/
def load (s : Scheduler J K) (w : J → Nat) : Nat := total (s.entries.map (weight w))

section

variable {s : Scheduler J K} {w v : J → Nat} {id : Nat} {e : Entry J K}

theorem load_mono (s : Scheduler J K) (h : ∀ j, v j ≤ w j) : s.load v ≤ s.load w := by
  unfold load
  induction s.entries with
  | nil => exact Nat.le_refl _
  | cons x rest ih =>
    have hx : weight v x ≤ weight w x := by
      unfold weight
      cases x.bind Entry.job with
      | none => exact Nat.le_refl _
      | some j => exact h j
    simp only [List.map_cons, total_cons]
    omega

theorem load_modifyRest (s : Scheduler J K) (id : Nat) {f : Entry J K → Entry J K} (hf : ∀ e, (f e).job = e.job) :
    (s.modifyEntry id f).load w = s.load w := by
  refine congrArg total (map_modify_of_eq (weight w) (Option.map f) (fun x => ?_) s.entries id)
  cases x with
  | none => rfl
  | some e => simp [weight, hf]

theorem load_grant (s : Scheduler J K) (parent : Option Nat) : (s.grant parent).load w = s.load w := by
  cases parent with
  | none => rfl
  | some p => exact load_modifyRest s p fun _ => rfl

theorem load_setJob (he : s.entryAt id = some e) (x : Option J) :
    (s.setJob id x).load w + (e.job.map w).getD 0 = s.load w + (x.map w).getD 0 :=
  total_map_modify (weight w) _ (entryAt_eq_some_iff.1 he)

theorem load_notifyAll {ids : List Nat} {t : Scheduler J K} (ht : s.notifyAll ids = .ok t) :
    t.load w = s.load w ∧ t.active = s.active := by
  induction ids generalizing s with
  | nil =>
    cases ht
    exact ⟨rfl, rfl⟩
  | cons p rest ih =>
    cases he : s.entryAt p with
    | none =>
      rw [Scheduler.notifyAll, he] at ht
      cases ht
    | some e =>
      obtain ⟨hload, hactive⟩ := ih ((notifyAll_cons he rest).symm.trans ht)
      have hdrop : (s.dropPending p).load w = s.load w := load_modifyRest s p fun _ => rfl
      refine ⟨hload.trans (Eq.trans ?_ hdrop), hactive.trans ?_⟩
      · unfold Scheduler.notify
        split <;> rfl
      · unfold Scheduler.notify
        split <;> rfl

end

section

variable [DecidableEq K] {sys : JobSystem J K C} {s : Scheduler J K} {busy : Option Nat} {w : J → Nat} {job : J}

/-- A job that is asked for brings its weight, unless it is active already. -/
theorem Orderly.load_spawn (h : s.Orderly busy []) (sys : JobSystem J K C) (job : J) :
    (s.spawn sys busy job).load w = s.load w + if (s.active.get? (sys.key job)).isSome then 0 else w job := by
  cases hkey : s.active.get? (sys.key job) with
  | none =>
    obtain ⟨id, t, hadds, heq⟩ := h.spawn_new hkey
    rw [heq, load_grant]
    exact hadds.total_eq (weight w) rfl
  | some existing =>
    cases busy with
    | none =>
      unfold Scheduler.spawn
      dsimp only
      rw [hkey]
      rfl
    | some p =>
      by_cases hwaits : ReflTransGen s.Waits existing p
      · rw [spawn_skipped hkey hwaits]
        rfl
      · rw [spawn_linked hkey hwaits]
        have hwaiter : (s.addWaiter existing p).load w = s.load w := load_modifyRest s existing fun _ => rfl
        have hpending : ((s.addWaiter existing p).addPending p).load w = _ := load_modifyRest _ p fun _ => rfl
        exact hpending.trans hwaiter

/-- A job that is asked for is active, as are those that were. -/
theorem Orderly.isSome_active_spawn (h : s.Orderly busy []) (sys : JobSystem J K C) (job : J) (k : K) :
    ((s.spawn sys busy job).active.get? k).isSome = true ↔
      k = sys.key job ∨ (s.active.get? k).isSome = true := by
  cases hkey : s.active.get? (sys.key job) with
  | none =>
    obtain ⟨id, t, hadds, heq⟩ := h.spawn_new hkey
    rw [heq, (sameJobs_grant t busy).active_eq, hadds.active_eq, Lookup.get?_set]
    split
    · simp [*]
    · simp [*]
  | some existing =>
    have hsame : (s.spawn sys busy job).active = s.active := by
      cases busy with
      | none =>
        unfold Scheduler.spawn
        dsimp only
        rw [hkey]
      | some p =>
        by_cases hwaits : ReflTransGen s.Waits existing p
        · rw [spawn_skipped hkey hwaits]
        · rw [spawn_linked hkey hwaits]
          rfl
    rw [hsame]
    refine ⟨.inr, fun hk => hk.elim ?_ id⟩
    rintro rfl
    rw [hkey]
    rfl

/-- If the jobs that are asked for weigh nothing, the load stays. -/
theorem Orderly.load_spawnAll_of_zero (h : s.Orderly busy []) (sys : JobSystem J K C) {children : List J}
    (hzero : ∀ j ∈ children, w j = 0) : (children.foldl (Scheduler.spawn sys busy) s).load w = s.load w := by
  induction children generalizing s with
  | nil => rfl
  | cons job children ih =>
    rw [List.foldl_cons, ih (h.spawn sys job) fun j hj => hzero j (List.mem_cons_of_mem _ hj), h.load_spawn]
    rw [hzero job (List.mem_cons_self ..), ite_self, Nat.add_zero]

end

end Scheduler

namespace Turn

variable {J K C : Type} [DecidableEq K] {sys : JobSystem J K C} {t : Turn J K C} {w : J → Nat}

/-- The job that runs was waiting before, and its key is active. -/
theorem Made.taken_entry (ht : t.Made sys) :
    ∃ e, t.before.entryAt t.id = some e ∧ e.job = some t.job ∧ t.running.keyAt t.id = some e.key := by
  obtain ⟨ready, u, -, htake, hrunning⟩ := ht.taken
  have hanything : Holds ({ t.before with ready } : Scheduler J K) fun _ _ => True := fun _ _ _ _ => trivial
  obtain ⟨-, e, he, hjob, -⟩ := hanything.take htake
  obtain ⟨f, hf, hef⟩ := ht.lasts_running (show t.before.entryAt t.id = some e from he)
  exact ⟨e, he, hjob, (keyAt_of_entryAt hf).trans (congrArg some hef.key_eq)⟩

theorem Made.active_running (ht : t.Made sys) : t.running.active = t.before.active := by
  obtain ⟨ready, -, hrunning⟩ := ht.running_eq
  rw [hrunning]
  rfl

theorem Made.load_before (ht : t.Made sys) : t.before.load w = t.running.load w + w t.job := by
  obtain ⟨ready, -, hrunning⟩ := ht.running_eq
  obtain ⟨e, he, hjob, -⟩ := ht.taken_entry
  have he : ({ t.before with ready } : Scheduler J K).entryAt t.id = some e := he
  have hset := load_setJob (w := w) he none
  rw [hjob] at hset
  rw [hrunning]
  exact hset.symm

theorem Made.job_running (ht : t.Made sys) : ∃ e, t.running.entryAt t.id = some e ∧ e.job = none := by
  obtain ⟨ready, -, hrunning⟩ := ht.running_eq
  obtain ⟨e, he, -⟩ := ht.taken_entry
  rw [hrunning]
  exact ⟨_, entryAt_modifyEntry_self (s := ({ t.before with ready } : Scheduler J K)) he, rfl⟩

/-- What waiting jobs have, the job that runs has, too. -/
theorem Made.holds_job (ht : t.Made sys) {P : K → J → Prop} (h : t.before.Holds P) :
    ∃ k, t.running.keyAt t.id = some k ∧ P k t.job := by
  obtain ⟨e, he, hjob, hkey⟩ := ht.taken_entry
  exact ⟨e.key, hkey, h e t.job (mem_entries_of_entryAt he) hjob⟩

/-- What is kept true of the waiting jobs, and is true of those that the job hands to the scheduler, is true of all
that wait after the turn. -/
theorem Made.holds_after (ht : t.Made sys) {P Q : K → J → Prop} (h : t.before.Holds P) (hPQ : ∀ k j, P k j → Q k j)
    {step : Step J} (hstep : t.result = .ok step)
    (hnext : ∀ next children, step = .spawn next children → ∀ k, P k t.job → Q k next)
    (hchildren : ∀ next children, step = .spawn next children → ∀ j ∈ children, Q (sys.key j) j) : t.after.Holds Q := by
  obtain ⟨ready, u, -, htake, hrunning⟩ := ht.taken
  have h : Holds ({ t.before with ready } : Scheduler J K) P := h
  obtain ⟨hu, e, he, -, hjob⟩ := h.take htake
  have hkey : ∀ f, t.running.entryAt t.id = some f → f.key = e.key := by
    intro f hf
    obtain ⟨g, hg, heg⟩ := ht.lasts_running (show t.before.entryAt t.id = some e from he)
    rw [Option.some.inj (hf.symm.trans hg), heg.key_eq]
  have hrun : t.running.Holds Q := by
    rw [hrunning]
    exact hu.mono hPQ
  exact hrun.proceed sys (fun next children heq f hf => hkey f hf ▸ hnext next children heq e.key hjob) hchildren
    (ht.proceeds step hstep)

/-- A job that has ended is gone, and nothing else changes its weight. -/
theorem Made.load_done (ht : t.Made sys) (hdone : t.result = .ok .done) {k : K} (hk : t.running.keyAt t.id = some k) :
    t.after.load w = t.running.load w ∧ t.after.active = t.running.active.erase k := by
  obtain ⟨e, he, hjob⟩ := ht.job_running
  obtain rfl : e.key = k := Option.some.inj ((keyAt_of_entryAt he).symm.trans hk)
  have hcomplete : t.running.complete t.id = .ok t.after := ht.proceeds _ hdone
  rw [complete_eq he] at hcomplete
  obtain ⟨hload, hactive⟩ := load_notifyAll (w := w) hcomplete
  refine ⟨hload.trans ?_, hactive⟩
  have hset := total_map_set (weight w) none (entryAt_eq_some_iff.1 he)
  have hzero : weight w (some e) = 0 := by simp [weight, hjob]
  rw [hzero] at hset
  exact hset

/-- A job that is suspended has asked for jobs after it has come to a new state. -/
theorem Made.load_spawn (ht : t.Made sys) (h : t.before.Orderly none []) {job : J} {children : List J}
    (hstep : t.result = .ok (.spawn job children)) :
    (t.running.setJob t.id (some job)).load w = t.running.load w + w job ∧
      t.after.load w = (t.running.askAll sys t.id job children).load w ∧
      t.after.active = (t.running.askAll sys t.id job children).active := by
  obtain ⟨e, he, hjob⟩ := ht.job_running
  obtain ⟨hrunning, -⟩ := ht.orderly_running h
  obtain ⟨p, -, hsuspend, -⟩ := hrunning.suspend sys job children
  have hafter : t.after = _ := Except.ok.inj ((ht.proceeds _ hstep).symm.trans hsuspend)
  obtain ⟨hentries, hactive⟩ := entries_putBack (t.running.askAll sys t.id job children) t.id p
  have hset := load_setJob (w := w) he (some job)
  rw [hjob] at hset
  refine ⟨hset, ?_, hafter ▸ hactive⟩
  rw [hafter, load, hentries]
  rfl

/-- If the jobs that are asked for weigh nothing, the weight of the job that has run is what changes. -/
theorem Made.load_spawn_of_zero (ht : t.Made sys) (h : t.before.Orderly none []) {job : J} {children : List J}
    (hstep : t.result = .ok (.spawn job children)) (hzero : ∀ j ∈ children, w j = 0) :
    t.after.load w = t.running.load w + w job := by
  obtain ⟨hrunning, -⟩ := ht.orderly_running h
  obtain ⟨hset, hload, -⟩ := ht.load_spawn (w := w) h hstep
  rw [hload, askAll, (hrunning.setJob (some job)).load_spawnAll_of_zero sys hzero, hset]

end Turn
end Cascade
