import Cascade.Proofs.Search.Waiting
import Mathlib.Data.List.Nodup

/-!
The state of the scheduler between its steps. Every job waits for as many others as its count says, waiting
never goes round in a circle, and the jobs on the stack are those that wait for nothing (`Orderly`). Such a
state is kept when a job is taken from the stack, when it is put back, and when it starts to wait for a job
that does not wait for it.
-/

namespace Cascade

open Relation

namespace Scheduler

variable {J K C : Type}

/-- The scheduler while the job `busy` runs, or between runs, and while the jobs `owed` are still to be told
that one they have waited for has completed. -/
structure Orderly [DecidableEq K] (s : Scheduler J K) (busy : Option Nat) (owed : List Nat) : Prop where
  keyed : ∀ {k : K} {id : Nat}, s.active.get? k = some id ↔ s.keyAt id = some k
  free_iff : ∀ {id : Nat}, id ∈ s.free ↔ id < s.entries.length ∧ ¬ s.Knows id
  free_nodup : s.free.Nodup
  known : ∀ {p c : Nat}, s.Waits p c → s.Knows p
  owed_known : ∀ {p : Nat}, p ∈ owed → s.Knows p
  busy_known : ∀ {id : Nat}, busy = some id → s.Knows id
  pending_eq : ∀ {id n : Nat}, s.pendingAt id = some n → n = s.awaited id + owed.count id
  acyclic : ∀ id, ¬ TransGen s.Waits id id
  ready_iff : ∀ {id : Nat}, id ∈ s.ready ↔ busy ≠ some id ∧ s.pendingAt id = some 0
  ready_nodup : s.ready.Nodup
  job_some : ∀ {id : Nat} {e : Entry J K}, s.entryAt id = some e → busy ≠ some id → e.job.isSome = true

/-- Changes what is left of a job. -/
def setJob (s : Scheduler J K) (id : Nat) (x : Option J) : Scheduler J K :=
  s.modifyEntry id (fun e => { e with job := x })

/-- Notes a job to be told when an active one completes. -/
def addWaiter (s : Scheduler J K) (existing p : Nat) : Scheduler J K :=
  s.modifyEntry existing (fun e => { e with waiters := e.waiters ++ [p] })

/-- Puts a job back on the stack if it waits for nothing. -/
def putBack (s : Scheduler J K) (id : Nat) (e : Entry J K) : Scheduler J K :=
  if e.pending = 0 then { s with ready := id :: s.ready } else s

theorem waits_setJob (s : Scheduler J K) (id : Nat) (x : Option J) : (s.setJob id x).Waits = s.Waits :=
  waits_modifyRest s id _ fun _ => rfl

theorem pendingAt_setJob (s : Scheduler J K) (id : Nat) (x : Option J) :
    ∀ i, (s.setJob id x).pendingAt i = s.pendingAt i := pendingAt_modifyRest s id _ fun _ => rfl

section

variable [DecidableEq K] {s t : Scheduler J K} {busy : Option Nat} {owed : List Nat} {id p : Nat} {e : Entry J K}

/-- What is left to show if only counts, waiting and the stack change. -/
theorem SameJobs.orderly (hst : s.SameJobs t) (h : s.Orderly busy owed) {busy' : Option Nat} {owed' : List Nat}
    (known : ∀ p c, t.Waits p c → s.Knows p) (owed_known : ∀ p ∈ owed', s.Knows p)
    (busy_known : ∀ id, busy' = some id → s.Knows id)
    (pending_eq : ∀ id n, t.pendingAt id = some n → n = t.awaited id + owed'.count id)
    (acyclic : ∀ id, ¬ TransGen t.Waits id id)
    (ready_iff : ∀ id, id ∈ t.ready ↔ busy' ≠ some id ∧ t.pendingAt id = some 0) (ready_nodup : t.ready.Nodup)
    (job_some : ∀ id e, t.entryAt id = some e → busy' ≠ some id → e.job.isSome = true) : t.Orderly busy' owed' where
  keyed := by
    intro k id
    rw [hst.active_eq, hst.keyAt_eq]
    exact h.keyed
  free_iff := by
    intro id
    rw [hst.free_eq, hst.length_eq, hst.knows_iff]
    exact h.free_iff
  free_nodup := hst.free_eq ▸ h.free_nodup
  known hw := (hst.knows_iff _).2 (known _ _ hw)
  owed_known hp := (hst.knows_iff _).2 (owed_known _ hp)
  busy_known hb := (hst.knows_iff _).2 (busy_known _ hb)
  pending_eq := pending_eq _ _
  acyclic := acyclic
  ready_iff := ready_iff _
  ready_nodup := ready_nodup
  job_some := job_some _ _

namespace Orderly

/-- Different active jobs have different keys. -/
theorem eq_of_keyAt (h : s.Orderly busy owed) {i j : Nat} {k : K} (hi : s.keyAt i = some k)
    (hj : s.keyAt j = some k) : i = j :=
  Option.some.inj ((h.keyed.2 hi).symm.trans (h.keyed.2 hj))

/-- A job that waits for nothing is told of nothing. -/
theorem not_waits_of_pending (h : s.Orderly busy owed) (hp : s.pendingAt p = some 0) (c : Nat) : ¬ s.Waits p c := by
  intro hw
  have hcount := h.pending_eq hp
  have hpos := awaited_pos hw
  omega

/-- The state of the running job does not matter. -/
theorem setJob (h : s.Orderly (some id) owed) (x : Option J) : (s.setJob id x).Orderly (some id) owed := by
  have hsame : s.SameJobs (s.setJob id x) := sameJobs_modifyEntry s id _ fun _ => rfl
  have hwaits := waits_setJob s id x
  have hawaited : ∀ q, (s.setJob id x).awaited q = s.awaited q :=
    awaited_modifyRest (h.busy_known rfl) _ fun _ => rfl
  have hpending := pendingAt_setJob s id x
  refine hsame.orderly h (fun p c hw => h.known (hwaits ▸ hw)) (fun _ => h.owed_known) (fun _ => h.busy_known)
    (fun i n hn => ?_) (hwaits ▸ h.acyclic) (fun i => ?_) h.ready_nodup (fun i f hf hb => ?_)
  · rw [hpending] at hn
    rw [hawaited]
    exact h.pending_eq hn
  · rw [hpending]
    exact h.ready_iff
  · have hi : i ≠ id := fun hi => hb (congrArg some hi.symm)
    exact h.job_some ((entryAt_modifyEntry_of_ne hi).symm.trans hf) hb

/-- The job on top of the stack can be taken out to be run. -/
theorem take (h : s.Orderly none []) {ready : List Nat} (hready : s.ready = id :: ready) :
    ∃ job, ({ s with ready } : Scheduler J K).take id = .ok (job, ({ s with ready } : Scheduler J K).setJob id none) ∧
      (({ s with ready } : Scheduler J K).setJob id none).Orderly (some id) [] ∧
      (({ s with ready } : Scheduler J K).setJob id none).pendingAt id = some 0 := by
  have hnodup := List.nodup_cons.1 (hready ▸ h.ready_nodup)
  obtain ⟨-, hzero⟩ := h.ready_iff.1 (hready ▸ List.mem_cons_self ..)
  obtain ⟨e, he, -⟩ := Option.map_eq_some_iff.1 hzero
  obtain ⟨job, hjob⟩ := Option.isSome_iff_exists.1 (h.job_some he nofun)
  have hpop : ({ s with ready } : Scheduler J K).Orderly (some id) [] :=
    { keyed := h.keyed
      free_iff := h.free_iff
      free_nodup := h.free_nodup
      known := h.known
      owed_known := h.owed_known
      busy_known := fun hb => Option.some.inj hb ▸ knows_of_entryAt he
      pending_eq := h.pending_eq
      acyclic := h.acyclic
      ready_iff := by
        intro i
        have hi : i ∈ s.ready ↔ _ := h.ready_iff
        rw [hready, List.mem_cons] at hi
        refine ⟨fun hmem => ⟨fun hb => ?_, (hi.1 (.inr hmem)).2⟩, fun ⟨hb, hz⟩ => ?_⟩
        · exact hnodup.1 (Option.some.inj hb ▸ hmem)
        · exact (hi.2 ⟨nofun, hz⟩).resolve_left fun hi => hb (congrArg some hi.symm)
      ready_nodup := hnodup.2
      job_some := fun hf _ => h.job_some hf nofun }
  refine ⟨job, ?_, hpop.setJob none, (pendingAt_setJob _ id none id).trans hzero⟩
  unfold Scheduler.take
  rw [show ({ s with ready } : Scheduler J K).entryAt id = some e from he]
  dsimp only
  rw [hjob]
  rfl

theorem putBack (h : s.Orderly (some id) []) (he : s.entryAt id = some e) (hjob : e.job.isSome = true) :
    (s.putBack id e).Orderly none [] := by
  have hpending := pendingAt_of_entryAt he
  have hjobs : ∀ {i : Nat} {f : Entry J K}, s.entryAt i = some f → f.job.isSome = true := by
    intro i f hf
    by_cases hi : i = id
    · subst hi
      cases he.symm.trans hf
      exact hjob
    · exact h.job_some hf fun hb => hi (Option.some.inj hb).symm
  have hnot : id ∉ s.ready := fun hmem => (h.ready_iff.1 hmem).1 rfl
  unfold Scheduler.putBack
  split
  · rename_i hzero
    exact
      { h with
        busy_known := nofun
        ready_iff := by
          intro i
          change i ∈ id :: s.ready ↔ none ≠ some i ∧ s.pendingAt i = some 0
          rw [List.mem_cons, h.ready_iff]
          refine ⟨?_, fun ⟨_, hi⟩ => ?_⟩
          · rintro (rfl | ⟨-, hi⟩)
            · exact ⟨nofun, hzero ▸ hpending⟩
            · exact ⟨nofun, hi⟩
          · by_cases hid : i = id
            · exact .inl hid
            · exact .inr ⟨fun hb => hid (Option.some.inj hb).symm, hi⟩
        ready_nodup := List.nodup_cons.2 ⟨hnot, h.ready_nodup⟩
        job_some := fun hf _ => hjobs hf }
  · rename_i hpos
    exact
      { h with
        busy_known := nofun
        ready_iff := by
          intro i
          rw [h.ready_iff]
          refine ⟨fun hi => ⟨nofun, hi.2⟩, fun ⟨_, hi⟩ => ⟨?_, hi⟩⟩
          rintro ⟨⟩
          exact hpos (Option.some.inj (hpending.symm.trans hi))
        job_some := fun hf _ => hjobs hf }

end Orderly

end

section

variable {s : Scheduler J K} {existing p : Nat} {e : Entry J K}

theorem dependents_concat (e : Entry J K) (p : Nat) :
    ({ e with waiters := e.waiters ++ [p] } : Entry J K).dependents = e.dependents ++ [p] :=
  (List.append_assoc ..).symm

theorem sameJobs_addWaiter (s : Scheduler J K) (existing p : Nat) : s.SameJobs (s.addWaiter existing p) :=
  sameJobs_modifyEntry s existing _ fun _ => rfl

theorem waits_addWaiter (he : s.entryAt existing = some e) (u v : Nat) :
    (s.addWaiter existing p).Waits u v ↔ s.Waits u v ∨ (u = p ∧ v = existing) := by
  refine ⟨?_, ?_⟩
  · rintro ⟨f, hf, hu⟩
    rcases entryAt_modifyEntry_cases hf with ⟨rfl, old, hold, rfl⟩ | ⟨-, hf⟩
    · rw [dependents_concat] at hu
      rcases List.mem_append.1 hu with hu | hu
      · exact .inl ⟨old, hold, hu⟩
      · exact .inr ⟨List.mem_singleton.1 hu, rfl⟩
    · exact .inl ⟨f, hf, hu⟩
  · rintro (⟨f, hf, hu⟩ | ⟨rfl, rfl⟩)
    · by_cases hv : v = existing
      · subst hv
        exact ⟨_, entryAt_modifyEntry_self hf, dependents_concat f p ▸ List.mem_append_left _ hu⟩
      · exact ⟨f, (entryAt_modifyEntry_of_ne hv).trans hf, hu⟩
    · exact ⟨_, entryAt_modifyEntry_self he, dependents_concat e u ▸ List.mem_append_right _ (List.mem_singleton_self u)⟩

theorem awaited_addWaiter (he : s.entryAt existing = some e) (q : Nat) :
    (s.addWaiter existing p).awaited q = s.awaited q + [p].count q := by
  have hadd := awaited_modifyEntry he (fun e => { e with waiters := e.waiters ++ [p] }) q
  rw [dependents_concat, List.count_append] at hadd
  change (s.addWaiter existing p).awaited q + _ = _ at hadd
  omega

theorem pendingAt_addWaiter (s : Scheduler J K) (existing p : Nat) :
    ∀ i, (s.addWaiter existing p).pendingAt i = s.pendingAt i := pendingAt_modifyRest s existing _ fun _ => rfl

theorem grows_addWaiter {i : Nat} {f : Entry J K} (hf : s.entryAt i = some f) :
    ∃ g, (s.addWaiter existing p).entryAt i = some g ∧ f.Grows g := by
  by_cases hi : i = existing
  · subst hi
    exact ⟨_, entryAt_modifyEntry_self hf, ⟨rfl, dependents_concat f p ▸ List.prefix_append ..⟩, rfl⟩
  · exact ⟨f, (entryAt_modifyEntry_of_ne hi).trans hf, .refl f⟩

theorem lasts_setJob {i : Nat} {f : Entry J K} (id : Nat) (x : Option J) (hf : s.entryAt i = some f) :
    ∃ g, (s.setJob id x).entryAt i = some g ∧ f.Lasts g := by
  by_cases hi : i = id
  · subst hi
    exact ⟨_, entryAt_modifyEntry_self hf, rfl, List.prefix_rfl⟩
  · exact ⟨f, (entryAt_modifyEntry_of_ne hi).trans hf, .refl f⟩

theorem entries_putBack (s : Scheduler J K) (id : Nat) (e : Entry J K) :
    (s.putBack id e).entries = s.entries ∧ (s.putBack id e).active = s.active := by
  unfold putBack
  split <;> exact ⟨rfl, rfl⟩

theorem sameJobs_addPending (s : Scheduler J K) (p : Nat) : s.SameJobs (s.addPending p) :=
  sameJobs_modifyEntry s p _ fun _ => rfl

theorem waits_addPending (s : Scheduler J K) (p : Nat) : (s.addPending p).Waits = s.Waits :=
  waits_modifyRest s p _ fun _ => rfl

theorem awaited_addPending (hp : s.Knows p) : ∀ q, (s.addPending p).awaited q = s.awaited q :=
  awaited_modifyRest hp _ fun _ => rfl

theorem pendingAt_addPending (s : Scheduler J K) (p i : Nat) :
    (s.addPending p).pendingAt i = if i = p then (s.pendingAt i).map (· + 1) else s.pendingAt i :=
  pendingAt_modifyEntry s p _ (· + 1) (fun _ => rfl) i

theorem grows_addPending {i : Nat} {f : Entry J K} (hf : s.entryAt i = some f) :
    ∃ g, (s.addPending p).entryAt i = some g ∧ f.Grows g := by
  by_cases hi : i = p
  · subst hi
    exact ⟨_, entryAt_modifyEntry_self hf, ⟨rfl, List.prefix_rfl⟩, rfl⟩
  · exact ⟨f, (entryAt_modifyEntry_of_ne hi).trans hf, .refl f⟩

end

section

variable [DecidableEq K] {s : Scheduler J K} {p existing : Nat}

/-- The running job may wait for a job that does not wait for it. -/
theorem Orderly.link (h : s.Orderly (some p) []) (hexisting : s.Knows existing)
    (hfree : ¬ ReflTransGen s.Waits existing p) : ((s.addWaiter existing p).addPending p).Orderly (some p) [] := by
  obtain ⟨e, he⟩ := knows_iff.1 hexisting
  have hp := h.busy_known rfl
  have hfirst := sameJobs_addWaiter s existing p
  have hwaits : ∀ u v, ((s.addWaiter existing p).addPending p).Waits u v → s.Waits u v ∨ (u = p ∧ v = existing) :=
    fun u v hw => (waits_addWaiter he u v).1 (waits_addPending (s.addWaiter existing p) p ▸ hw)
  refine (hfirst.trans (sameJobs_addPending _ p)).orderly h (fun u v hw => ?_) (fun _ => h.owed_known)
    (fun _ => h.busy_known) (fun i n hn => ?_) (acyclic_insert hwaits h.acyclic hfree) (fun i => ?_) h.ready_nodup
    (fun i f hf hb => ?_)
  · rcases hwaits u v hw with hw | ⟨rfl, -⟩
    · exact h.known hw
    · exact hp
  · rw [pendingAt_addPending, pendingAt_addWaiter] at hn
    rw [awaited_addPending ((hfirst.knows_iff p).2 hp), awaited_addWaiter he]
    split at hn
    · rename_i hi
      obtain ⟨k, hk, rfl⟩ := Option.map_eq_some_iff.1 hn
      rw [h.pending_eq hk, hi, List.count_singleton_self]
      rfl
    · rename_i hi
      rw [h.pending_eq hn, List.count_singleton, if_neg fun hpi => hi (eq_of_beq hpi).symm]
      rfl
  · rw [pendingAt_addPending, pendingAt_addWaiter]
    refine h.ready_iff.trans (and_congr_right fun hb => ?_)
    rw [if_neg fun hi => hb (congrArg some hi.symm)]
  · have hi : i ≠ p := fun hi => hb (congrArg some hi.symm)
    have hf := (entryAt_modifyEntry_of_ne hi).symm.trans hf
    rcases entryAt_modifyEntry_cases hf with ⟨rfl, old, hold, rfl⟩ | ⟨-, hf⟩
    · have hjob := h.job_some hold hb
      exact hjob
    · exact h.job_some hf hb

end

end Scheduler
end Cascade
