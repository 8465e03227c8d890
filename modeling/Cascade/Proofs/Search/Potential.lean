import Cascade.Proofs.Search.Loads
import Cascade.Proofs.Search.Turns
import Mathlib.Data.Finset.Card

/-!
Why jobs run dry. Every key has a mark. As long as marks are set and not cleared, a job goes on only at a lower rank, and
it asks for few jobs, about finitely many keys. So what the waiting jobs cost, with the keys that are still to be worked
on, falls in every turn (`Ranking.potential_lt`).
-/

namespace Cascade

open Scheduler

/-- How far jobs are from their end. -/
structure Ranking (J K : Type) where
  key : J → K
  /-- the job with a key before its first run -/
  start : K → J
  rank : J → Nat
  /-- the keys that jobs can have -/
  keys : Finset K
  /-- how many jobs one asks for at most -/
  width : Nat
  /-- the highest rank of a first run -/
  height : Nat
  key_start : ∀ k, key (start k) = k
  rank_pos : ∀ j, 0 < rank j
  rank_start : ∀ k ∈ keys, rank (start k) ≤ height

namespace Ranking

variable {J K C : Type}

/-- What a run of a job comes to that sets marks only: it ends with its mark set, or it goes on at a lower rank, and then
its mark was not set if that was its first run. -/
inductive Lowers (R : Ranking J K) (before after : K → Prop) (job : J) : Step J → Prop
  | done (h : after (R.key job)) : Lowers R before after job .done
  | spawn {next : J} {keys : List K} (hnew : job = R.start (R.key job) → ¬ before (R.key job))
    (hrank : R.rank next < R.rank job) (hlength : keys.length ≤ R.width) (hkeys : ∀ k ∈ keys, k ∈ R.keys) :
    Lowers R before after job (.spawn next (keys.map R.start))

variable (R : Ranking J K)

open Classical in
/-- What a job costs: next to nothing if it will find its mark set in its first run. -/
noncomputable def cost (settled : K → Prop) (j : J) : Nat :=
  if j = R.start (R.key j) ∧ settled (R.key j) then 1 else R.rank j * (R.width + 1)

section

variable {settled before after : K → Prop}

theorem cost_pos (settled : K → Prop) (j : J) : 0 < R.cost settled j := by
  unfold cost
  split
  · exact Nat.one_pos
  · exact Nat.mul_pos (R.rank_pos j) (Nat.succ_pos _)

theorem cost_le (settled : K → Prop) (j : J) : R.cost settled j ≤ R.rank j * (R.width + 1) := by
  unfold cost
  split
  · exact Nat.mul_pos (R.rank_pos j) (Nat.succ_pos _)
  · exact Nat.le_refl _

theorem cost_of_new {j : J} (h : j = R.start (R.key j) → ¬ settled (R.key j)) :
    R.cost settled j = R.rank j * (R.width + 1) := by
  unfold cost
  exact if_neg fun hj => h hj.1 hj.2

theorem cost_start {k : K} (h : settled k) : R.cost settled (R.start k) = 1 := by
  unfold cost
  rw [R.key_start]
  exact if_pos ⟨rfl, h⟩

theorem cost_mono (h : ∀ k, before k → after k) (j : J) : R.cost after j ≤ R.cost before j := by
  by_cases hj : j = R.start (R.key j) ∧ before (R.key j)
  · unfold cost
    rw [if_pos hj, if_pos ⟨hj.1, h _ hj.2⟩]
  · rw [R.cost_of_new fun hs hb => hj ⟨hs, hb⟩]
    exact R.cost_le _ j

end

variable [DecidableEq K]

open Classical in
/-- The keys that no job is about and whose marks are not set. -/
noncomputable def unsettled (settled : K → Prop) (s : Scheduler J K) : Finset K :=
  R.keys.filter (fun k => (s.active.get? k).isSome = false ∧ ¬ settled k)

noncomputable def potential (settled : K → Prop) (s : Scheduler J K) : Nat :=
  s.load (R.cost settled) + R.height * (R.width + 1) * (R.unsettled settled s).card

variable {R} {settled before after : K → Prop} {sys : JobSystem J K C} {s : Scheduler J K} {busy : Option Nat}

open Classical in
theorem mem_unsettled {k : K} :
    k ∈ R.unsettled settled s ↔ k ∈ R.keys ∧ (s.active.get? k).isSome = false ∧ ¬ settled k := by
  unfold unsettled
  exact Finset.mem_filter

theorem unsettled_subset {t : Scheduler J K} (hmarks : ∀ k, before k → after k)
    (hactive : ∀ k, (s.active.get? k).isSome = true → (t.active.get? k).isSome = true ∨ after k) :
    R.unsettled after t ⊆ R.unsettled before s := by
  intro k hk
  obtain ⟨hkey, hinactive, hnew⟩ := mem_unsettled.1 hk
  refine mem_unsettled.2 ⟨hkey, ?_, fun h => hnew (hmarks k h)⟩
  by_contra hs
  rcases hactive k (by rwa [Bool.not_eq_false] at hs) with ht | ha
  · rw [ht] at hinactive
    cases hinactive
  · exact hnew ha

/-- Asking for a job costs one at most. -/
theorem potential_spawn (settled : K → Prop) (hsys : sys.key = R.key) (h : s.Orderly busy []) {k : K} (hk : k ∈ R.keys) :
    R.potential settled (s.spawn sys busy (R.start k)) ≤ R.potential settled s + 1 := by
  have hkey : sys.key (R.start k) = k := by rw [hsys, R.key_start]
  have hactive : ∀ x, ((s.spawn sys busy (R.start k)).active.get? x).isSome = true ↔
      x = k ∨ (s.active.get? x).isSome = true := fun x => by rw [h.isSome_active_spawn, hkey]
  have hsubset : R.unsettled settled (s.spawn sys busy (R.start k)) ⊆ R.unsettled settled s :=
    unsettled_subset (fun _ => id) fun x hx => .inl ((hactive x).2 (.inr hx))
  unfold potential
  rw [h.load_spawn, hkey]
  by_cases hnew : (s.active.get? k).isSome = true ∨ settled k
  · have hcost : (if (s.active.get? k).isSome = true then 0 else R.cost settled (R.start k)) ≤ 1 := by
      split
      · exact Nat.zero_le 1
      · rename_i hinactive
        exact Nat.le_of_eq (R.cost_start (hnew.resolve_left hinactive))
    have := Nat.mul_le_mul_left (R.height * (R.width + 1)) (Finset.card_le_card hsubset)
    omega
  · obtain ⟨hinactive, hnew⟩ := not_or.1 hnew
    have hmem : k ∈ R.unsettled settled s := mem_unsettled.2 ⟨hk, by simpa using hinactive, hnew⟩
    have hgone : k ∉ R.unsettled settled (s.spawn sys busy (R.start k)) := fun hmem => by
      have := (mem_unsettled.1 hmem).2.1
      rw [(hactive k).2 (.inl rfl)] at this
      cases this
    have hcard := Finset.card_lt_card (Finset.ssubset_iff_subset_ne.2 ⟨hsubset, fun heq => hgone (heq ▸ hmem)⟩)
    have hcost : R.cost settled (R.start k) ≤ R.height * (R.width + 1) :=
      (R.cost_le settled _).trans (Nat.mul_le_mul_right _ (R.rank_start k hk))
    have := Nat.mul_le_mul_left (R.height * (R.width + 1)) hcard
    rw [if_neg hinactive]
    rw [Nat.mul_succ] at this
    omega

theorem potential_spawnAll (settled : K → Prop) (hsys : sys.key = R.key) {keys : List K} (hkeys : ∀ k ∈ keys, k ∈ R.keys)
    (h : s.Orderly busy []) :
    R.potential settled ((keys.map R.start).foldl (Scheduler.spawn sys busy) s) ≤
      R.potential settled s + keys.length := by
  induction keys generalizing s with
  | nil => exact Nat.le_refl _
  | cons k keys ih =>
    have hfirst := potential_spawn settled hsys h (hkeys k (List.mem_cons_self ..))
    have hrest := ih (fun k hk => hkeys k (List.mem_cons_of_mem _ hk)) (h.spawn sys (R.start k))
    rw [List.map_cons, List.foldl_cons, List.length_cons]
    omega

/-- The potential falls in every turn in which marks are set and none is cleared. -/
theorem potential_lt (hsys : sys.key = R.key) {t : Turn J K C} (ht : t.Made sys) (ho : t.before.Orderly none [])
    (hmarks : ∀ k, before k → after k) (hkeyed : t.running.keyAt t.id = some (R.key t.job)) {step : Step J}
    (hstep : t.result = .ok step) (h : R.Lowers before after t.job step) :
    R.potential after t.after < R.potential before t.before := by
  have hload : t.before.load (R.cost before) = t.running.load (R.cost before) + R.cost before t.job := ht.load_before
  have hmono : t.running.load (R.cost after) ≤ t.running.load (R.cost before) := t.running.load_mono (R.cost_mono hmarks)
  cases h with
  | done hdone =>
    obtain ⟨hafter, hactive⟩ := ht.load_done (w := R.cost after) hstep hkeyed
    have hsubset : R.unsettled after t.after ⊆ R.unsettled before t.before := by
      refine unsettled_subset hmarks fun k hk => ?_
      rw [hactive, ht.active_running, Lookup.get?_erase]
      by_cases hself : k = R.key t.job
      · exact .inr (hself ▸ hdone)
      · exact .inl (by rwa [if_neg hself])
    have := Nat.mul_le_mul_left (R.height * (R.width + 1)) (Finset.card_le_card hsubset)
    have := R.cost_pos before t.job
    unfold potential
    omega
  | @spawn next keys hnew hrank hlength hkeys =>
    obtain ⟨hset, hafter, hactive⟩ := ht.load_spawn (w := R.cost after) ho hstep
    obtain ⟨hrunning, -⟩ := ht.orderly_running ho
    have hasked := potential_spawnAll after hsys hkeys (hrunning.setJob (some next))
    have hsame : R.unsettled after t.after = R.unsettled after (t.running.askAll sys t.id next (keys.map R.start)) := by
      unfold unsettled
      rw [hactive]
    have hsubset : R.unsettled after (t.running.setJob t.id (some next)) ⊆ R.unsettled before t.before :=
      unsettled_subset hmarks fun k hk => .inl (ht.active_running ▸ hk)
    have hcard := Nat.mul_le_mul_left (R.height * (R.width + 1)) (Finset.card_le_card hsubset)
    have hnext := R.cost_le after next
    have hjob := R.cost_of_new hnew
    have hstep : R.rank next * (R.width + 1) + (R.width + 1) ≤ R.rank t.job * (R.width + 1) := by
      rw [← Nat.succ_mul]
      exact Nat.mul_le_mul_right _ hrank
    unfold potential at hasked ⊢
    unfold askAll at hsame hafter
    rw [hsame, hafter]
    omega

end Ranking
end Cascade
