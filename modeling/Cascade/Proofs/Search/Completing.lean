import Cascade.Proofs.Search.Orderly

/-!
Completing jobs. A job that leaves tells all that have waited for it; the state of the scheduler stays in
order, and no count is taken below zero (`Orderly.complete`).
-/

namespace Cascade

open Relation

namespace Scheduler

variable {J K C : Type}

/-- Lets a job wait for one less. -/
def dropPending (s : Scheduler J K) (id : Nat) : Scheduler J K :=
  s.modifyEntry id (fun e => { e with pending := e.pending - 1 })

/-- Tells one job that another one has completed. -/
def notify (s : Scheduler J K) (id : Nat) (e : Entry J K) : Scheduler J K :=
  if e.pending ≤ 1 then { s.dropPending id with ready := id :: s.ready } else s.dropPending id

/-- Takes out a completed job. -/
def retire [DecidableEq K] (s : Scheduler J K) (id : Nat) (e : Entry J K) : Scheduler J K :=
  { s with
    entries := s.entries.set id none
    free := id :: s.free
    active := s.active.erase e.key }

/-- All of these jobs can be told of a completed one, and none has a count of zero when it is. -/
inductive CountsDown : Scheduler J K → List Nat → Prop
  | nil {s : Scheduler J K} : CountsDown s []
  | cons {s : Scheduler J K} {id : Nat} {e : Entry J K} {rest : List Nat} (he : s.entryAt id = some e)
      (hpos : 0 < e.pending) (hrest : CountsDown (s.notify id e) rest) : CountsDown s (id :: rest)

section

variable [DecidableEq K] {s : Scheduler J K} {id p : Nat} {e : Entry J K} {owed : List Nat}

/-- A job that has waited for nothing leaves; those that have waited for it are to be told. -/
theorem Orderly.retire (h : s.Orderly (some id) []) (he : s.entryAt id = some e) (hpending : e.pending = 0) :
    (s.retire id e).Orderly none e.dependents := by
  have hid := knows_of_entryAt he
  have hlt := lt_length_of_entryAt he
  have hentry : ∀ i, (s.retire id e).entryAt i = if i = id then none else s.entryAt i := join_getElem?_set hlt none
  have hkey : ∀ i, (s.retire id e).keyAt i = if i = id then none else s.keyAt i := fun i => by
    unfold keyAt
    rw [hentry]
    split <;> rfl
  have hcount : ∀ i, (s.retire id e).pendingAt i = if i = id then none else s.pendingAt i := fun i => by
    unfold pendingAt
    rw [hentry]
    split <;> rfl
  have hknows : ∀ i, (s.retire id e).Knows i ↔ i ≠ id ∧ s.Knows i := fun i => by
    unfold Knows
    rw [hentry]
    split
    · rename_i hi
      exact ⟨nofun, fun hk => absurd hi hk.1⟩
    · rename_i hi
      exact ⟨fun hk => ⟨hi, hk⟩, fun hk => hk.2⟩
  have hwaits : ∀ u v, (s.retire id e).Waits u v → s.Waits u v := by
    rintro u v ⟨f, hf, hu⟩
    rw [hentry] at hf
    split at hf
    · cases hf
    · exact ⟨f, hf, hu⟩
  have hawaited : ∀ q, (s.retire id e).awaited q + e.dependents.count q = s.awaited q := fun q => by
    have hset := total_map_set (tells q) none (entryAt_eq_some_iff.1 he)
    exact hset
  -- nobody tells the job any more, and it does not tell itself
  have hzero : s.pendingAt id = some 0 := hpending ▸ pendingAt_of_entryAt he
  have hrest : ∀ {u v : Nat}, s.Waits u v → u ≠ id := fun hw hu => h.not_waits_of_pending hzero _ (hu ▸ hw)
  exact
    { keyed := by
        intro k i
        rw [show (s.retire id e).active.get? k = _ from s.active.get?_erase e.key k, hkey]
        by_cases hk : k = e.key
        · rw [if_pos hk]
          refine ⟨nofun, fun hs => ?_⟩
          split at hs
          · cases hs
          · rename_i hi
            exact absurd (h.eq_of_keyAt (hk ▸ hs) (keyAt_of_entryAt he)) hi
        · rw [if_neg hk, h.keyed]
          split
          · rename_i hi
            subst hi
            refine ⟨fun hs => ?_, nofun⟩
            exact absurd (Option.some.inj ((keyAt_of_entryAt he).symm.trans hs)).symm hk
          · exact Iff.rfl
      free_iff := by
        intro i
        rw [hknows, show (s.retire id e).entries.length = _ from List.length_set,
          show (s.retire id e).free = id :: s.free from rfl, List.mem_cons, h.free_iff]
        by_cases hi : i = id
        · exact ⟨fun _ => ⟨hi ▸ hlt, fun hk => hk.1 hi⟩, fun _ => .inl hi⟩
        · exact ⟨fun hor => (hor.resolve_left hi).imp_right fun hn hk => hn hk.2,
            fun hk => .inr ⟨hk.1, fun hs => hk.2 ⟨hi, hs⟩⟩⟩
      free_nodup := List.nodup_cons.2 ⟨fun hmem => (h.free_iff.1 hmem).2 hid, h.free_nodup⟩
      known := fun hw => (hknows _).2 ⟨hrest (hwaits _ _ hw), h.known (hwaits _ _ hw)⟩
      owed_known := fun hp => (hknows _).2 ⟨hrest ⟨e, he, hp⟩, h.known ⟨e, he, hp⟩⟩
      busy_known := nofun
      pending_eq := by
        intro i n hn
        rw [hcount] at hn
        split at hn
        · cases hn
        · rw [hawaited, h.pending_eq hn]
          rfl
      acyclic := fun i hi => h.acyclic i (TransGen.mono hwaits _ _ hi)
      ready_iff := by
        intro i
        rw [show (s.retire id e).ready = s.ready from rfl, h.ready_iff, hcount]
        split
        · rename_i hi
          exact ⟨fun hb => absurd (congrArg some hi.symm) hb.1, nofun⟩
        · rename_i hi
          exact ⟨fun hb => ⟨nofun, hb.2⟩, fun hb => ⟨fun hs => hi (Option.some.inj hs).symm, hb.2⟩⟩
      ready_nodup := h.ready_nodup
      job_some := by
        intro i f hf _
        rw [hentry] at hf
        split at hf
        · cases hf
        · rename_i hi
          exact h.job_some hf fun hb => hi (Option.some.inj hb).symm }

/-- A job that is to be told has not been told as often as its count says. -/
theorem Orderly.pending_pos (h : s.Orderly none (p :: owed)) (he : s.entryAt p = some e) : 0 < e.pending := by
  rw [h.pending_eq (pendingAt_of_entryAt he), List.count_cons_self]
  omega

theorem Orderly.notify (h : s.Orderly none (p :: owed)) (he : s.entryAt p = some e) :
    (s.notify p e).Orderly none owed := by
  have hpos := h.pending_pos he
  have hp := knows_of_entryAt he
  have hsame : s.SameJobs (s.dropPending p) := sameJobs_modifyEntry s p _ fun _ => rfl
  have hwaits : (s.dropPending p).Waits = s.Waits := waits_modifyRest s p _ fun _ => rfl
  have hawaited : ∀ q, (s.dropPending p).awaited q = s.awaited q := awaited_modifyRest hp _ fun _ => rfl
  have hpending : ∀ i, (s.dropPending p).pendingAt i = if i = p then (s.pendingAt i).map (· - 1) else s.pendingAt i :=
    pendingAt_modifyEntry s p _ (· - 1) fun _ => rfl
  have hself : (s.dropPending p).pendingAt p = some (e.pending - 1) := by
    rw [hpending, if_pos rfl, pendingAt_of_entryAt he, Option.map_some]
  have hjob : ∀ i f, (s.dropPending p).entryAt i = some f → f.job.isSome = true := by
    intro i f hf
    rcases entryAt_modifyEntry_cases hf with ⟨rfl, old, hold, rfl⟩ | ⟨-, hf⟩
    · have hjob := h.job_some hold nofun
      exact hjob
    · exact h.job_some hf nofun
  have hcount : ∀ i n, (s.dropPending p).pendingAt i = some n → n = (s.dropPending p).awaited i + owed.count i := by
    intro i n hn
    rw [hawaited]
    by_cases hi : i = p
    · subst hi
      have hall := h.pending_eq (pendingAt_of_entryAt he)
      rw [List.count_cons_self] at hall
      have := Option.some.inj (hself.symm.trans hn)
      omega
    · rw [hpending, if_neg hi] at hn
      rw [h.pending_eq hn, List.count_cons_of_ne (Ne.symm hi)]
  have hstack : ∀ ready : List Nat, ready.Nodup → (∀ i, i ∈ ready ↔ (s.dropPending p).pendingAt i = some 0) →
      ({ s.dropPending p with ready } : Scheduler J K).Orderly none owed := by
    intro ready hnodup hready
    have hsame : s.SameJobs { s.dropPending p with ready } :=
      ⟨hsame.active_eq, hsame.free_eq, hsame.length_eq, hsame.keyAt_eq⟩
    refine hsame.orderly h (fun _ _ hw => h.known (hwaits ▸ hw)) (fun _ hq => h.owed_known (List.mem_cons_of_mem _ hq))
      (fun _ hb => nomatch hb) hcount (hwaits ▸ h.acyclic) (fun i => ?_) hnodup (fun i f hf _ => hjob i f hf)
    exact (hready i).trans ⟨fun hz => ⟨nofun, hz⟩, fun hz => hz.2⟩
  have hother : ∀ i, i ≠ p → (i ∈ s.ready ↔ (s.dropPending p).pendingAt i = some 0) := fun i hi => by
    rw [h.ready_iff, hpending, if_neg hi]
    exact ⟨fun hk => hk.2, fun hk => ⟨nofun, hk⟩⟩
  have hnot : p ∉ s.ready := fun hmem => by
    have hzero := (h.ready_iff.1 hmem).2
    rw [pendingAt_of_entryAt he] at hzero
    exact Nat.ne_of_gt hpos (Option.some.inj hzero)
  unfold Scheduler.notify
  split
  · rename_i hle
    refine hstack _ (List.nodup_cons.2 ⟨hnot, h.ready_nodup⟩) fun i => ?_
    rw [List.mem_cons]
    by_cases hi : i = p
    · subst hi
      refine ⟨fun _ => hself.trans (congrArg some ?_), fun _ => .inl rfl⟩
      omega
    · exact ⟨fun hmem => (hother i hi).1 (hmem.resolve_left hi), fun hz => .inr ((hother i hi).2 hz)⟩
  · rename_i hgt
    refine hstack _ h.ready_nodup fun i => ?_
    by_cases hi : i = p
    · subst hi
      refine ⟨fun hmem => absurd hmem hnot, fun hz => ?_⟩
      have := Option.some.inj (hself.symm.trans hz)
      omega
    · exact hother i hi

omit [DecidableEq K] in
theorem notifyAll_cons (he : s.entryAt p = some e) (rest : List Nat) :
    s.notifyAll (p :: rest) = (s.notify p e).notifyAll rest := by
  rw [Scheduler.notifyAll, he]
  rfl

/-- All jobs that are to be told can be told, and no count is taken below zero. -/
theorem Orderly.notifyAll (h : s.Orderly none owed) :
    s.CountsDown owed ∧ ∃ t, s.notifyAll owed = .ok t ∧ t.Orderly none [] := by
  induction owed generalizing s with
  | nil => exact ⟨.nil, s, rfl, h⟩
  | cons p rest ih =>
    obtain ⟨e, he⟩ := knows_iff.1 (h.owed_known (List.mem_cons_self ..))
    obtain ⟨hdown, t, ht, hto⟩ := ih (h.notify he)
    exact ⟨.cons he (h.pending_pos he) hdown, t, (notifyAll_cons he rest).trans ht, hto⟩

omit [DecidableEq K] in
theorem grows_notify (he : s.entryAt p = some e) {i : Nat} {f : Entry J K} (hf : s.entryAt i = some f) :
    ∃ g, (s.notify p e).entryAt i = some g ∧ f.Grows g := by
  have hdrop : (s.notify p e).entryAt i = (s.dropPending p).entryAt i := by
    unfold Scheduler.notify
    split <;> rfl
  rw [hdrop]
  by_cases hi : i = p
  · subst hi
    exact ⟨_, entryAt_modifyEntry_self hf, ⟨rfl, List.prefix_rfl⟩, rfl⟩
  · exact ⟨f, (entryAt_modifyEntry_of_ne hi).trans hf, .refl f⟩

omit [DecidableEq K] in
theorem grows_notifyAll {t : Scheduler J K} (ht : s.notifyAll owed = .ok t) {i : Nat} {f : Entry J K}
    (hf : s.entryAt i = some f) : ∃ g, t.entryAt i = some g ∧ f.Grows g := by
  induction owed generalizing s f with
  | nil => exact ⟨f, Except.ok.inj ht ▸ hf, .refl f⟩
  | cons p rest ih =>
    cases he : s.entryAt p with
    | none =>
      rw [Scheduler.notifyAll, he] at ht
      cases ht
    | some e =>
      obtain ⟨g, hg, hfg⟩ := grows_notify he hf
      obtain ⟨k, hk, hgk⟩ := ih ((notifyAll_cons he rest).symm.trans ht) hg
      exact ⟨k, hk, hfg.trans hgk⟩

theorem complete_eq (he : s.entryAt id = some e) : s.complete id = (s.retire id e).notifyAll e.dependents := by
  unfold complete
  rw [he]
  rfl

/-- The other jobs stay when one completes. -/
theorem grows_complete {t : Scheduler J K} (ht : s.complete id = .ok t) {i : Nat} (hi : i ≠ id) {f : Entry J K}
    (hf : s.entryAt i = some f) : ∃ g, t.entryAt i = some g ∧ f.Grows g := by
  cases he : s.entryAt id with
  | none =>
    rw [complete, he] at ht
    cases ht
  | some e =>
    have hrest : (s.retire id e).entryAt i = some f :=
      (join_getElem?_set (lt_length_of_entryAt he) none i).trans ((if_neg hi).trans hf)
    exact grows_notifyAll ((complete_eq he).symm.trans ht) hrest

theorem Orderly.complete (h : s.Orderly (some id) []) (he : s.entryAt id = some e) (hpending : e.pending = 0) :
    (s.retire id e).CountsDown e.dependents ∧ ∃ t, s.complete id = .ok t ∧ t.Orderly none [] := by
  rw [complete_eq he]
  exact (h.retire he hpending).notifyAll

end

end Scheduler
end Cascade
