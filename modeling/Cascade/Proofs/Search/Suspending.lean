import Cascade.Proofs.Search.Asking

/-!
Suspending a job. It waits for all of the jobs it has asked for, except for those that wait for it
themselves (`Orderly.asked_spawnAll`), and the state of the scheduler stays in order (`Orderly.suspend`).
-/

namespace Cascade

open Relation

namespace Scheduler

variable {J K C : Type}

/-- The scheduler after the running job has come to a new state and asked for other jobs. -/
def askAll [DecidableEq K] (sys : JobSystem J K C) (s : Scheduler J K) (p : Nat) (job : J) (children : List J) :
    Scheduler J K :=
  children.foldl (spawn sys (some p)) (s.setJob p (some job))

section

variable [DecidableEq K] {sys : JobSystem J K C} {s : Scheduler J K} {busy : Option Nat} {job : J} {p : Nat}

theorem Orderly.spawnAll (sys : JobSystem J K C) (children : List J) (h : s.Orderly busy []) :
    (children.foldl (Scheduler.spawn sys busy) s).Orderly busy [] := by
  induction children generalizing s with
  | nil => exact h
  | cons job children ih => exact ih (h.spawn sys job)

theorem Orderly.grows_spawn (h : s.Orderly busy []) (sys : JobSystem J K C) (job : J) {i : Nat} {f : Entry J K}
    (hf : s.entryAt i = some f) : ∃ g, (s.spawn sys busy job).entryAt i = some g ∧ f.Grows g := by
  cases hkey : s.active.get? (sys.key job) with
  | none =>
    obtain ⟨id, t, hadds, heq⟩ := h.spawn_new hkey
    have hi : i ≠ id := fun hi => hadds.unknown (hi ▸ knows_of_entryAt hf)
    rw [heq]
    exact grows_grant ((hadds.entryAt_eq i).trans ((if_neg hi).trans hf))
  | some existing =>
    cases busy with
    | none =>
      unfold Scheduler.spawn
      dsimp only
      rw [hkey]
      exact ⟨f, hf, .refl f⟩
    | some p =>
      by_cases hwaits : ReflTransGen s.Waits existing p
      · exact ⟨f, (spawn_skipped hkey hwaits).symm ▸ hf, .refl f⟩
      · rw [spawn_linked hkey hwaits]
        obtain ⟨g, hg, hfg⟩ := grows_addWaiter hf
        obtain ⟨k, hk, hgk⟩ := grows_addPending hg
        exact ⟨k, hk, hfg.trans hgk⟩

theorem Orderly.grows_spawnAll (sys : JobSystem J K C) (children : List J) (h : s.Orderly busy []) {i : Nat}
    {f : Entry J K} (hf : s.entryAt i = some f) :
    ∃ g, (children.foldl (Scheduler.spawn sys busy) s).entryAt i = some g ∧ f.Grows g := by
  induction children generalizing s f with
  | nil => exact ⟨f, hf, .refl f⟩
  | cons job children ih =>
    obtain ⟨g, hg, hfg⟩ := h.grows_spawn sys job hf
    obtain ⟨k, hk, hgk⟩ := ih (h.spawn sys job) hg
    exact ⟨k, hk, hfg.trans hgk⟩

/-- What a job that asks for another one comes to: it goes on without one that waits for it, and waits for
any other. -/
structure Asked (sys : JobSystem J K C) (s t : Scheduler J K) (p : Nat) (job : J) : Prop where
  waits : ∀ {u v : Nat}, t.Waits u v → s.Waits u v ∨ u = p
  get?_cases : ∀ {k : K} {a : Nat}, t.active.get? k = some a → s.active.get? k = some a ∨ ¬ s.Knows a
  child : (∃ a, s.active.get? (sys.key job) = some a ∧ ReflTransGen s.Waits a p) ∨
    ∃ a, t.active.get? (sys.key job) = some a ∧ t.Waits p a

theorem Orderly.asked_spawn (h : s.Orderly (some p) []) (sys : JobSystem J K C) (job : J) :
    Asked sys s (s.spawn sys (some p) job) p job := by
  cases hkey : s.active.get? (sys.key job) with
  | none =>
    obtain ⟨id, t, hadds, heq⟩ := h.spawn_new hkey
    have hactive : (t.grant (some p)).active = s.active.set (sys.key job) id :=
      (sameJobs_grant t (some p)).active_eq.trans hadds.active_eq
    have hwaits : ∀ u v, (t.grant (some p)).Waits u v ↔ s.Waits u v ∨ (u = p ∧ v = id) := fun u v => by
      rw [waits_grant, hadds.waits_iff]
      exact or_congr_right (and_congr_left fun _ => List.mem_singleton)
    rw [heq]
    refine ⟨fun hw => ((hwaits _ _).1 hw).imp_right And.left, fun {k a} hk => ?_, .inr ⟨id, ?_⟩⟩
    · rw [hactive, Lookup.get?_set] at hk
      split at hk
      · exact .inr (Option.some.inj hk ▸ hadds.unknown)
      · exact .inl hk
    · exact ⟨by rw [hactive, Lookup.get?_set, if_pos rfl], (hwaits p id).2 (.inr ⟨rfl, rfl⟩)⟩
  | some existing =>
    by_cases hwaits : ReflTransGen s.Waits existing p
    · rw [spawn_skipped hkey hwaits]
      exact ⟨.inl, .inl, .inl ⟨existing, hkey, hwaits⟩⟩
    · obtain ⟨e, he, -⟩ := Option.map_eq_some_iff.1 (h.keyed.1 hkey)
      have hlink : ∀ u v, ((s.addWaiter existing p).addPending p).Waits u v ↔
          s.Waits u v ∨ (u = p ∧ v = existing) := fun u v => by
        rw [waits_addPending]
        exact waits_addWaiter he u v
      rw [spawn_linked hkey hwaits]
      exact ⟨fun hw => ((hlink _ _).1 hw).imp_right And.left, .inl,
        .inr ⟨existing, hkey, (hlink p existing).2 (.inr ⟨rfl, rfl⟩)⟩⟩

/-- A job that has been asked for, unless it waits for the job that has asked, is waited for, whatever else
that one asks for. -/
theorem Orderly.asked_spawnAll (sys : JobSystem J K C) (children : List J) (h : s.Orderly (some p) [])
    (hjob : job ∈ children) : (∃ a, s.active.get? (sys.key job) = some a ∧ ReflTransGen s.Waits a p) ∨
      ∃ a, (children.foldl (Scheduler.spawn sys (some p)) s).active.get? (sys.key job) = some a ∧
        (children.foldl (Scheduler.spawn sys (some p)) s).Waits p a := by
  induction children generalizing s with
  | nil => cases hjob
  | cons first children ih =>
    have hasked := h.asked_spawn sys first
    have hspawn := h.spawn sys first
    rw [List.foldl_cons]
    rcases List.mem_cons.1 hjob with rfl | hjob
    · refine hasked.child.imp_right ?_
      rintro ⟨a, ha, hw⟩
      obtain ⟨f, hf, hkey⟩ := Option.map_eq_some_iff.1 (hspawn.keyed.1 ha)
      obtain ⟨g, hg, hfg⟩ := hspawn.grows_spawnAll sys children hf
      refine ⟨a, (hspawn.spawnAll sys children).keyed.2 ?_, hfg.waits hf hg hw⟩
      rw [keyAt_of_entryAt hg, hfg.key_eq, hkey]
    · refine (ih hspawn hjob).imp_left ?_
      rintro ⟨a, ha, hpath⟩
      have hpath : ReflTransGen s.Waits a p := reflTransGen_insert (fun _ _ => hasked.waits) hpath
      refine ⟨a, (hasked.get?_cases ha).resolve_right fun hunknown => ?_, hpath⟩
      exact h.not_reaches_of_unknown hunknown hpath

theorem Orderly.askAll (h : s.Orderly (some p) []) (sys : JobSystem J K C) (job : J) (children : List J) :
    (s.askAll sys p job children).Orderly (some p) [] := (h.setJob (some job)).spawnAll sys children

theorem Orderly.suspend (h : s.Orderly (some p) []) (sys : JobSystem J K C) (job : J) (children : List J) :
    ∃ e, (s.askAll sys p job children).entryAt p = some e ∧
      s.suspend sys p job children = .ok ((s.askAll sys p job children).putBack p e) ∧
      ((s.askAll sys p job children).putBack p e).Orderly none [] := by
  obtain ⟨f, hf⟩ := knows_iff.1 (h.busy_known rfl)
  have hset : (s.setJob p (some job)).entryAt p = some { f with job := some job } := entryAt_modifyEntry_self hf
  obtain ⟨e, he, hfe⟩ := (h.setJob (some job)).grows_spawnAll sys children hset
  refine ⟨e, he, ?_, (h.askAll sys job children).putBack he (hfe.job_eq ▸ rfl)⟩
  unfold Scheduler.suspend
  rw [hf]
  dsimp only
  split
  · rename_i hnone
    cases he.symm.trans hnone
  · rename_i hsome
    cases he.symm.trans hsome
    rfl

end

end Scheduler
end Cascade
