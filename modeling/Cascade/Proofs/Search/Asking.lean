import Cascade.Proofs.Search.Orderly

/-!
Asking for a job. It is added under a number that no other job has, or waited for if there is one with its
key that does not wait for the job that asks; the state of the scheduler stays in order (`Orderly.spawn`).
-/

namespace Cascade

open Relation

namespace Scheduler

variable {J K C : Type}

/-- A new job has been added under an unused number. -/
structure Adds [DecidableEq K] (s t : Scheduler J K) (id : Nat) (e : Entry J K) : Prop where
  unknown : ¬ s.Knows id
  active_eq : t.active = s.active.set e.key id
  ready_eq : t.ready = id :: s.ready
  free_iff : ∀ {i : Nat}, i ∈ t.free ↔ i < t.entries.length ∧ ¬ t.Knows i
  free_nodup : t.free.Nodup
  entryAt_eq : ∀ i, t.entryAt i = if i = id then some e else s.entryAt i
  total_eq : ∀ w : Option (Entry J K) → Nat, w none = 0 → total (t.entries.map w) = total (s.entries.map w) + w (some e)

/-- Lets the job that has asked for another one wait for it. -/
def grant (s : Scheduler J K) : Option Nat → Scheduler J K
  | none => s
  | some p => s.addPending p

section

variable {s : Scheduler J K} {parent : Option Nat}

theorem sameJobs_grant (s : Scheduler J K) (parent : Option Nat) : s.SameJobs (s.grant parent) := by
  cases parent with
  | none => exact ⟨rfl, rfl, rfl, fun _ => rfl⟩
  | some p => exact sameJobs_addPending s p

theorem waits_grant (s : Scheduler J K) (parent : Option Nat) : (s.grant parent).Waits = s.Waits := by
  cases parent with
  | none => rfl
  | some p => exact waits_addPending s p

theorem awaited_grant (hknows : ∀ p, parent = some p → s.Knows p) (q : Nat) :
    (s.grant parent).awaited q = s.awaited q := by
  cases parent with
  | none => rfl
  | some p => exact awaited_addPending (hknows p rfl) q

theorem pendingAt_grant (s : Scheduler J K) (parent : Option Nat) (i : Nat) :
    (s.grant parent).pendingAt i = if parent = some i then (s.pendingAt i).map (· + 1) else s.pendingAt i := by
  cases parent with
  | none => rfl
  | some p =>
    refine (pendingAt_addPending s p i).trans (if_congr ?_ rfl rfl)
    exact ⟨fun hi => congrArg some hi.symm, fun hi => (Option.some.inj hi).symm⟩

theorem ready_grant (s : Scheduler J K) (parent : Option Nat) : (s.grant parent).ready = s.ready := by
  cases parent with
  | none => rfl
  | some p => rfl

theorem entryAt_grant_of_ne {i : Nat} (hi : parent ≠ some i) : (s.grant parent).entryAt i = s.entryAt i := by
  cases parent with
  | none => rfl
  | some p => exact entryAt_modifyEntry_of_ne fun h => hi (congrArg some h.symm)

theorem grows_grant {i : Nat} {f : Entry J K} (hf : s.entryAt i = some f) :
    ∃ g, (s.grant parent).entryAt i = some g ∧ f.Grows g := by
  cases parent with
  | none => exact ⟨f, hf, .refl f⟩
  | some p => exact grows_addPending hf

end

section

variable [DecidableEq K] {s t : Scheduler J K} {busy : Option Nat} {owed : List Nat} {id : Nat} {e : Entry J K}

theorem Orderly.adds (h : s.Orderly busy owed) (e : Entry J K) : s.Adds
    { (s.allocate e).2 with
      active := (s.allocate e).2.active.set e.key (s.allocate e).1
      ready := (s.allocate e).1 :: (s.allocate e).2.ready } (s.allocate e).1 e := by
  unfold allocate
  cases hfree : s.free with
  | nil =>
    have hunknown : ¬ s.Knows s.entries.length := fun hk => by
      obtain ⟨f, hf⟩ := knows_iff.1 hk
      exact Nat.lt_irrefl _ (lt_length_of_entryAt hf)
    exact
      { unknown := hunknown
        active_eq := rfl
        ready_eq := rfl
        free_iff := by
          intro i
          refine ⟨nofun, fun ⟨hlt, hk⟩ => ?_⟩
          unfold Knows entryAt at hk
          dsimp only at hlt hk
          rw [List.length_append, List.length_singleton] at hlt
          rw [join_getElem?_concat] at hk
          split at hk
          · exact absurd rfl hk
          · have hmem := h.free_iff.2 ⟨by omega, hk⟩
            rw [hfree] at hmem
            exact hmem
        free_nodup := List.nodup_nil
        entryAt_eq := join_getElem?_concat s.entries (some e)
        total_eq := fun w _ => by
          rw [List.map_append, total_append]
          rfl }
  | cons id free =>
    obtain ⟨hlt, hunknown⟩ := h.free_iff.1 (hfree ▸ List.mem_cons_self ..)
    have hnodup := List.nodup_cons.1 (hfree ▸ h.free_nodup)
    exact
      { unknown := hunknown
        active_eq := rfl
        ready_eq := rfl
        free_iff := by
          intro i
          have hi : i ∈ s.free ↔ _ := h.free_iff
          rw [hfree, List.mem_cons] at hi
          unfold Knows entryAt
          dsimp only
          rw [join_getElem?_set hlt, List.length_set]
          split
          · rename_i hid
            exact ⟨fun hmem => absurd (hid ▸ hmem) hnodup.1, fun hk => absurd rfl hk.2⟩
          · rename_i hid
            exact ⟨fun hmem => hi.1 (.inr hmem), fun hk => (hi.2 hk).resolve_left hid⟩
        free_nodup := hnodup.2
        entryAt_eq := join_getElem?_set hlt (some e)
        total_eq := fun w hw => by
          have hset := total_map_set w (some e) (getElem?_of_not_knows hlt hunknown)
          rwa [hw] at hset }

namespace Adds

theorem awaited_eq (h : s.Adds t id e) (q : Nat) : t.awaited q = s.awaited q + e.dependents.count q :=
  h.total_eq (tells q) rfl

theorem knows_iff (h : s.Adds t id e) (i : Nat) : t.Knows i ↔ i = id ∨ s.Knows i := by
  unfold Knows
  rw [h.entryAt_eq]
  split
  · rename_i hi
    exact ⟨fun _ => .inl hi, fun _ => rfl⟩
  · rename_i hi
    exact ⟨.inr, fun hk => hk.resolve_left hi⟩

theorem keyAt_eq (h : s.Adds t id e) (i : Nat) : t.keyAt i = if i = id then some e.key else s.keyAt i := by
  unfold keyAt
  rw [h.entryAt_eq]
  split <;> rfl

theorem pendingAt_eq (h : s.Adds t id e) (i : Nat) :
    t.pendingAt i = if i = id then some e.pending else s.pendingAt i := by
  unfold pendingAt
  rw [h.entryAt_eq]
  split <;> rfl

theorem waits_iff (h : s.Adds t id e) (u v : Nat) : t.Waits u v ↔ s.Waits u v ∨ (u ∈ e.dependents ∧ v = id) := by
  unfold Waits
  rw [h.entryAt_eq]
  split
  · rename_i hv
    refine ⟨?_, ?_⟩
    · rintro ⟨f, hf, hu⟩
      exact .inr ⟨Option.some.inj hf ▸ hu, hv⟩
    · rintro (⟨f, hf, -⟩ | ⟨hu, -⟩)
      · exact absurd (hv ▸ knows_of_entryAt hf) h.unknown
      · exact ⟨e, rfl, hu⟩
  · rename_i hv
    exact ⟨.inl, fun hw => hw.resolve_right fun hu => hv hu.2⟩

end Adds

theorem Orderly.awaited_eq_zero (h : s.Orderly busy owed) (hid : ¬ s.Knows id) : s.awaited id = 0 :=
  Nat.eq_zero_of_not_pos fun hpos => by
    obtain ⟨c, hc⟩ := exists_waits_of_awaited_pos hpos
    exact hid (h.known hc)

theorem Orderly.not_reaches_of_unknown {p : Nat} (h : s.Orderly (some p) owed) {a : Nat} (ha : ¬ s.Knows a) :
    ¬ ReflTransGen s.Waits a p := by
  intro hpath
  rcases hpath.cases_head with rfl | ⟨c, hc, -⟩
  · exact ha (h.busy_known rfl)
  · exact ha (h.known hc)

theorem count_toList (x : Option Nat) (i : Nat) : x.toList.count i = if x = some i then 1 else 0 := by
  cases x with
  | none => rfl
  | some p => simp [List.count_singleton]

/-- A new job starts with nothing to wait for, and the running job may wait for it. -/
theorem Orderly.grant_adds (h : s.Orderly busy []) {job : J} {key : K} (hkey : s.active.get? key = none)
    (hadds : s.Adds t id ⟨some job, key, busy, 0, []⟩) : (t.grant busy).Orderly busy [] := by
  have hsame := sameJobs_grant t busy
  have hold : ∀ {i : Nat}, s.Knows i → t.Knows i := fun hi => (hadds.knows_iff _).2 (.inr hi)
  have hbusy : ∀ p, busy = some p → t.Knows p := fun p hp => hold (h.busy_known hp)
  have hdependents : ∀ {u : Nat}, u ∈ (⟨some job, key, busy, 0, []⟩ : Entry J K).dependents ↔ busy = some u := by
    intro u
    simp [Entry.dependents]
  have hwaits : ∀ u v, (t.grant busy).Waits u v → s.Waits u v ∨ (busy = some u ∧ v = id) := fun u v hw => by
    rw [waits_grant, hadds.waits_iff, hdependents] at hw
    exact hw
  have hid : ∀ i, s.Knows i → i ≠ id := fun i hi hne => hadds.unknown (hne ▸ hi)
  exact
    { keyed := by
        intro k i
        rw [hsame.active_eq, hsame.keyAt_eq, hadds.active_eq, hadds.keyAt_eq, Lookup.get?_set]
        by_cases hk : k = key
        · subst hk
          rw [if_pos rfl]
          split
          · rename_i hi
            exact ⟨fun _ => rfl, fun _ => congrArg some hi.symm⟩
          · rename_i hi
            refine ⟨fun hid => absurd (Option.some.inj hid).symm hi, fun hs => ?_⟩
            have hget := h.keyed.2 hs
            rw [hkey] at hget
            cases hget
        · rw [if_neg hk, h.keyed]
          split
          · rename_i hi
            refine ⟨fun hs => ?_, fun hs => absurd (Option.some.inj hs).symm hk⟩
            exact absurd hi (hid i (knows_iff_keyAt.2 (Option.isSome_iff_exists.2 ⟨k, hs⟩)))
          · exact Iff.rfl
      free_iff := by
        intro i
        rw [hsame.free_eq, hsame.length_eq, hsame.knows_iff]
        exact hadds.free_iff
      free_nodup := hsame.free_eq ▸ hadds.free_nodup
      known := fun hw => by
        rw [hsame.knows_iff]
        rcases hwaits _ _ hw with hw | ⟨hu, -⟩
        · exact hold (h.known hw)
        · exact hbusy _ hu
      owed_known := nofun
      busy_known := fun hb => (hsame.knows_iff _).2 (hbusy _ hb)
      pending_eq := by
        intro i n hn
        rw [pendingAt_grant, hadds.pendingAt_eq] at hn
        rw [awaited_grant hbusy, hadds.awaited_eq]
        change n = s.awaited i + (busy.toList ++ []).count i + 0
        rw [List.append_nil, count_toList]
        by_cases hi : i = id
        · subst hi
          have hne : busy ≠ some i := fun hb => hadds.unknown (h.busy_known hb)
          rw [if_neg hne, if_pos rfl] at hn
          rw [if_neg hne, h.awaited_eq_zero hadds.unknown]
          exact (Option.some.inj hn).symm
        · rw [if_neg hi] at hn
          split at hn
          · rename_i hb
            obtain ⟨k, hk, rfl⟩ := Option.map_eq_some_iff.1 hn
            rw [if_pos hb, h.pending_eq hk]
            rfl
          · rename_i hb
            rw [if_neg hb, h.pending_eq hn]
            rfl
      acyclic := by
        cases busy with
        | none =>
          have hwaits : ∀ u v, (t.grant none).Waits u v → s.Waits u v := fun u v hw =>
            (hwaits u v hw).resolve_right fun hu => nomatch hu.1
          exact fun i hi => h.acyclic i (TransGen.mono hwaits _ _ hi)
        | some p =>
          have hwaits : ∀ u v, (t.grant (some p)).Waits u v → s.Waits u v ∨ (u = p ∧ v = id) := fun u v hw =>
            (hwaits u v hw).imp_right fun hu => ⟨(Option.some.inj hu.1).symm, hu.2⟩
          exact acyclic_insert hwaits h.acyclic (h.not_reaches_of_unknown hadds.unknown)
      ready_iff := by
        intro i
        rw [ready_grant, hadds.ready_eq, List.mem_cons, h.ready_iff, pendingAt_grant, hadds.pendingAt_eq]
        by_cases hi : i = id
        · have hne : busy ≠ some i := fun hb => hadds.unknown (hi ▸ h.busy_known hb)
          rw [if_neg hne, if_pos hi]
          exact ⟨fun _ => ⟨hne, rfl⟩, fun _ => .inl hi⟩
        · rw [if_neg hi]
          refine ⟨fun hor => ?_, fun ⟨hb, hz⟩ => .inr ⟨hb, by rwa [if_neg hb] at hz⟩⟩
          obtain ⟨hb, hz⟩ := hor.resolve_left hi
          exact ⟨hb, by rwa [if_neg hb]⟩
      ready_nodup := by
        rw [ready_grant, hadds.ready_eq]
        refine List.nodup_cons.2 ⟨fun hmem => ?_, h.ready_nodup⟩
        obtain ⟨f, hf, -⟩ := Option.map_eq_some_iff.1 (h.ready_iff.1 hmem).2
        exact hadds.unknown (knows_of_entryAt hf)
      job_some := by
        intro i f hf hb
        rw [entryAt_grant_of_ne hb, hadds.entryAt_eq] at hf
        split at hf
        · exact Option.some.inj hf ▸ rfl
        · exact h.job_some hf hb }

variable {sys : JobSystem J K C} {job : J}

/-- Asking for a job of which there is none adds it. -/
theorem Orderly.spawn_new (h : s.Orderly busy []) (hkey : s.active.get? (sys.key job) = none) :
    ∃ id t, s.Adds t id ⟨some job, sys.key job, busy, 0, []⟩ ∧ s.spawn sys busy job = t.grant busy := by
  refine ⟨_, _, h.adds ⟨some job, sys.key job, busy, 0, []⟩, ?_⟩
  unfold spawn
  dsimp only
  rw [hkey]
  cases busy with
  | none => rfl
  | some p => rfl

theorem spawn_skipped {p existing : Nat} (hkey : s.active.get? (sys.key job) = some existing)
    (hwaits : ReflTransGen s.Waits existing p) : s.spawn sys (some p) job = s := by
  unfold spawn
  dsimp only
  rw [hkey]
  dsimp only
  rw [if_pos ((s.dependsOn_iff p existing).2 hwaits)]

theorem spawn_linked {p existing : Nat} (hkey : s.active.get? (sys.key job) = some existing)
    (hwaits : ¬ ReflTransGen s.Waits existing p) :
    s.spawn sys (some p) job = (s.addWaiter existing p).addPending p := by
  unfold spawn
  dsimp only
  rw [hkey]
  dsimp only
  rw [if_neg fun h => hwaits ((s.dependsOn_iff p existing).1 h)]
  rfl

/-- The running job, or nobody, asks for a job. -/
theorem Orderly.spawn (h : s.Orderly busy []) (sys : JobSystem J K C) (job : J) :
    (s.spawn sys busy job).Orderly busy [] := by
  cases hkey : s.active.get? (sys.key job) with
  | none =>
    obtain ⟨id, t, hadds, heq⟩ := h.spawn_new hkey
    exact heq ▸ h.grant_adds hkey hadds
  | some existing =>
    cases busy with
    | none =>
      unfold Scheduler.spawn
      dsimp only
      rw [hkey]
      exact h
    | some p =>
      by_cases hwaits : ReflTransGen s.Waits existing p
      · exact (spawn_skipped hkey hwaits).symm ▸ h
      · have hknown : s.Knows existing :=
          knows_iff_keyAt.2 (Option.isSome_iff_exists.2 ⟨_, h.keyed.1 hkey⟩)
        exact (spawn_linked hkey hwaits).symm ▸ h.link hknown hwaits

end

end Scheduler
end Cascade
