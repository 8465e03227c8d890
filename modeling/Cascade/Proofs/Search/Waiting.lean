import Cascade.Search.Scheduler
import Mathlib.Logic.Relation

/-!
Which jobs wait for which. The search for a job among those that wait for another finds exactly the jobs
at the ends of chains of waiting (`dependsOn_iff`), so that a job which is made to wait for another one
that does not wait for it closes no circle (`acyclic_insert`).
-/

namespace Cascade

open Relation

section

variable {α : Type} {r r' : α → α → Prop} {a b : α}

/-- A chain that may use one more step goes through it or does without. -/
theorem transGen_insert (h : ∀ u v, r' u v → r u v ∨ (u = a ∧ v = b)) {x y : α} (hxy : TransGen r' x y) :
    TransGen r x y ∨ (ReflTransGen r x a ∧ ReflTransGen r b y) := by
  induction hxy with
  | single hy =>
    rcases h _ _ hy with hy | ⟨rfl, rfl⟩
    · exact .inl (.single hy)
    · exact .inr ⟨.refl, .refl⟩
  | tail _ hz ih =>
    rcases h _ _ hz with hz | ⟨rfl, rfl⟩
    · rcases ih with hxy | ⟨hxa, hby⟩
      · exact .inl (hxy.tail hz)
      · exact .inr ⟨hxa, hby.tail hz⟩
    · rcases ih with hxy | ⟨hxa, -⟩
      · exact .inr ⟨hxy.to_reflTransGen, .refl⟩
      · exact .inr ⟨hxa, .refl⟩

theorem acyclic_insert (h : ∀ u v, r' u v → r u v ∨ (u = a ∧ v = b)) (hr : ∀ x, ¬ TransGen r x x)
    (hba : ¬ ReflTransGen r b a) (x : α) : ¬ TransGen r' x x := by
  intro hx
  rcases transGen_insert h hx with hx | ⟨hxa, hbx⟩
  · exact hr x hx
  · exact hba (hbx.trans hxa)

/-- More steps from a place do not lead there from elsewhere. -/
theorem reflTransGen_insert (h : ∀ u v, r' u v → r u v ∨ u = a) {x : α} (hxa : ReflTransGen r' x a) :
    ReflTransGen r x a := by
  induction hxa using ReflTransGen.head_induction_on with
  | refl => exact .refl
  | head hy _ ih =>
    rcases h _ _ hy with hy | rfl
    · exact .head hy ih
    · exact .refl

end

section

variable {α : Type} {l : List (Option α)}

theorem join_getElem?_set {i : Nat} (h : i < l.length) (x : Option α) (j : Nat) :
    (l.set i x)[j]?.join = if j = i then x else l[j]?.join := by
  rw [List.getElem?_set]
  by_cases hj : j = i
  · rw [if_pos hj, if_pos hj.symm, if_pos h]
    rfl
  · rw [if_neg hj, if_neg (Ne.symm hj)]

theorem join_getElem?_concat (l : List (Option α)) (x : Option α) (j : Nat) :
    (l ++ [x])[j]?.join = if j = l.length then x else l[j]?.join := by
  rcases Nat.lt_trichotomy j l.length with hj | rfl | hj
  · rw [List.getElem?_append_left hj, if_neg (Nat.ne_of_lt hj)]
  · rw [List.getElem?_concat_length, if_pos rfl]
    rfl
  · have hout : (l ++ [x]).length ≤ j := by
      rw [List.length_append, List.length_singleton]
      omega
    rw [List.getElem?_eq_none hout, List.getElem?_eq_none (Nat.le_of_lt hj), if_neg (Nat.ne_of_gt hj)]

end

namespace Scheduler

variable {J K : Type}

/-- A job is to be told when another one completes. -/
def Waits (s : Scheduler J K) (p c : Nat) : Prop := ∃ e, s.entryAt c = some e ∧ p ∈ e.dependents

/-- How often the job at a place is going to tell another one that it has completed. -/
def tells (p : Nat) (x : Option (Entry J K)) : Nat := (x.map (fun e => e.dependents.count p)).getD 0

/-- How many active jobs a job waits for, each counted as often as it is going to tell it. -/
def awaited (s : Scheduler J K) (p : Nat) : Nat := total (s.entries.map (tells p))

/-- The number belongs to an active job. -/
def Knows (s : Scheduler J K) (id : Nat) : Prop := (s.entryAt id).isSome = true

def keyAt (s : Scheduler J K) (id : Nat) : Option K := (s.entryAt id).map Entry.key

def pendingAt (s : Scheduler J K) (id : Nat) : Option Nat := (s.entryAt id).map Entry.pending

/-- An entry later on: further jobs may wait for it. -/
structure Entry.Lasts (e f : Entry J K) : Prop where
  key_eq : f.key = e.key
  dependents_prefix : e.dependents <+: f.dependents

/-- An entry later on, with the job in the same state. -/
structure Entry.Grows (e f : Entry J K) : Prop extends e.Lasts f where
  job_eq : f.job = e.job

/-- The same jobs are active, with the same numbers and keys. -/
structure SameJobs (s t : Scheduler J K) : Prop where
  active_eq : t.active = s.active
  free_eq : t.free = s.free
  length_eq : t.entries.length = s.entries.length
  keyAt_eq : ∀ id, t.keyAt id = s.keyAt id

section

variable {s : Scheduler J K} {id i : Nat} {e : Entry J K}

theorem knows_iff : s.Knows id ↔ ∃ e, s.entryAt id = some e := Option.isSome_iff_exists

theorem knows_of_entryAt (h : s.entryAt id = some e) : s.Knows id := knows_iff.2 ⟨e, h⟩

theorem keyAt_of_entryAt (h : s.entryAt id = some e) : s.keyAt id = some e.key := by
  rw [keyAt, h, Option.map_some]

theorem pendingAt_of_entryAt (h : s.entryAt id = some e) : s.pendingAt id = some e.pending := by
  rw [pendingAt, h, Option.map_some]

theorem knows_iff_keyAt : s.Knows id ↔ (s.keyAt id).isSome = true := by
  rw [Knows, keyAt, Option.isSome_map]

theorem Entry.Lasts.refl (e : Entry J K) : e.Lasts e := ⟨rfl, List.prefix_rfl⟩

theorem Entry.Lasts.trans {e f g : Entry J K} (hef : e.Lasts f) (hfg : f.Lasts g) : e.Lasts g :=
  ⟨hfg.key_eq.trans hef.key_eq, hef.dependents_prefix.trans hfg.dependents_prefix⟩

theorem Entry.Lasts.waits {t : Scheduler J K} {e f : Entry J K} (hef : e.Lasts f) (he : s.entryAt i = some e)
    (hf : t.entryAt i = some f) {p : Nat} (hw : s.Waits p i) : t.Waits p i := by
  obtain ⟨e', he', hp⟩ := hw
  cases he.symm.trans he'
  exact ⟨f, hf, hef.dependents_prefix.mem hp⟩

theorem Entry.Grows.refl (e : Entry J K) : e.Grows e := ⟨.refl e, rfl⟩

theorem Entry.Grows.trans {e f g : Entry J K} (hef : e.Grows f) (hfg : f.Grows g) : e.Grows g :=
  ⟨hef.toLasts.trans hfg.toLasts, hfg.job_eq.trans hef.job_eq⟩

theorem SameJobs.trans {t u : Scheduler J K} (hst : s.SameJobs t) (htu : t.SameJobs u) : s.SameJobs u where
  active_eq := htu.active_eq.trans hst.active_eq
  free_eq := htu.free_eq.trans hst.free_eq
  length_eq := htu.length_eq.trans hst.length_eq
  keyAt_eq id := (htu.keyAt_eq id).trans (hst.keyAt_eq id)

theorem SameJobs.knows_iff {t : Scheduler J K} (h : s.SameJobs t) (id : Nat) : t.Knows id ↔ s.Knows id := by
  rw [knows_iff_keyAt, h.keyAt_eq, knows_iff_keyAt]

theorem entryAt_eq_some_iff : s.entryAt id = some e ↔ s.entries[id]? = some (some e) := Option.join_eq_some_iff

theorem getElem?_of_not_knows (hlt : id < s.entries.length) (h : ¬ s.Knows id) : s.entries[id]? = some none := by
  cases hx : s.entries[id] with
  | none => rw [List.getElem?_eq_getElem hlt, hx]
  | some e =>
    have he : s.entries[id]? = some (some e) := by rw [List.getElem?_eq_getElem hlt, hx]
    exact absurd (knows_of_entryAt (entryAt_eq_some_iff.2 he)) h

theorem entryAt_modifyEntry (s : Scheduler J K) (i id : Nat) (f : Entry J K → Entry J K) :
    (s.modifyEntry i f).entryAt id = if id = i then (s.entryAt id).map f else s.entryAt id := by
  unfold entryAt modifyEntry
  rw [List.getElem?_modify]
  split
  · rename_i h
    subst h
    cases s.entries[i]? with
    | none => simp
    | some x => cases x <;> simp
  · rename_i h
    simp [Ne.symm h]

theorem entryAt_modifyEntry_self {f : Entry J K → Entry J K} (h : s.entryAt id = some e) :
    (s.modifyEntry id f).entryAt id = some (f e) := by
  rw [entryAt_modifyEntry, if_pos rfl, h, Option.map_some]

theorem entryAt_modifyEntry_of_ne {f : Entry J K → Entry J K} (h : id ≠ i) :
    (s.modifyEntry i f).entryAt id = s.entryAt id := by
  rw [entryAt_modifyEntry, if_neg h]

/-- An entry after a change of one of them is that one, changed, or another one. -/
theorem entryAt_modifyEntry_cases {f : Entry J K → Entry J K} (h : (s.modifyEntry i f).entryAt id = some e) :
    (id = i ∧ ∃ old, s.entryAt i = some old ∧ e = f old) ∨ (id ≠ i ∧ s.entryAt id = some e) := by
  by_cases hid : id = i
  · subst hid
    rw [entryAt_modifyEntry, if_pos rfl] at h
    obtain ⟨old, hold, rfl⟩ := Option.map_eq_some_iff.1 h
    exact .inl ⟨rfl, old, hold, rfl⟩
  · exact .inr ⟨hid, entryAt_modifyEntry_of_ne hid ▸ h⟩

theorem sameJobs_modifyEntry (s : Scheduler J K) (i : Nat) (f : Entry J K → Entry J K) (hf : ∀ e, (f e).key = e.key) :
    s.SameJobs (s.modifyEntry i f) where
  active_eq := rfl
  free_eq := rfl
  length_eq := List.length_modify ..
  keyAt_eq id := by
    unfold keyAt
    rw [entryAt_modifyEntry]
    split
    · rw [Option.map_map]
      exact congrArg (fun g => (s.entryAt id).map g) (funext hf)
    · rfl

theorem pendingAt_modifyEntry (s : Scheduler J K) (i : Nat) (f : Entry J K → Entry J K) (g : Nat → Nat)
    (hf : ∀ e, (f e).pending = g e.pending) (id : Nat) :
    (s.modifyEntry i f).pendingAt id = if id = i then (s.pendingAt id).map g else s.pendingAt id := by
  unfold pendingAt
  rw [entryAt_modifyEntry]
  split
  · rw [Option.map_map, Option.map_map]
    exact congrArg (fun g => (s.entryAt id).map g) (funext hf)
  · rfl

theorem pendingAt_modifyRest (s : Scheduler J K) (i : Nat) (f : Entry J K → Entry J K)
    (hf : ∀ e, (f e).pending = e.pending) (id : Nat) : (s.modifyEntry i f).pendingAt id = s.pendingAt id := by
  rw [pendingAt_modifyEntry s i f (fun n => n) hf]
  split
  · exact Option.map_id'
  · rfl

theorem waits_modifyRest (s : Scheduler J K) (i : Nat) (f : Entry J K → Entry J K)
    (hf : ∀ e, (f e).dependents = e.dependents) : (s.modifyEntry i f).Waits = s.Waits := by
  funext p c
  refine propext ⟨?_, ?_⟩
  · rintro ⟨e, he, hp⟩
    rcases entryAt_modifyEntry_cases he with ⟨rfl, old, hold, rfl⟩ | ⟨-, he⟩
    · exact ⟨old, hold, hf old ▸ hp⟩
    · exact ⟨e, he, hp⟩
  · rintro ⟨e, he, hp⟩
    by_cases hc : c = i
    · subst hc
      exact ⟨f e, entryAt_modifyEntry_self he, (hf e).symm ▸ hp⟩
    · exact ⟨e, (entryAt_modifyEntry_of_ne hc).trans he, hp⟩

theorem awaited_modifyEntry (h : s.entryAt i = some e) (f : Entry J K → Entry J K) (p : Nat) :
    (s.modifyEntry i f).awaited p + e.dependents.count p = s.awaited p + (f e).dependents.count p :=
  total_map_modify (tells p) (Option.map f) (entryAt_eq_some_iff.1 h)

theorem awaited_modifyRest (h : s.Knows i) (f : Entry J K → Entry J K) (hf : ∀ e, (f e).dependents = e.dependents)
    (p : Nat) : (s.modifyEntry i f).awaited p = s.awaited p := by
  obtain ⟨e, he⟩ := knows_iff.1 h
  have := awaited_modifyEntry he f p
  rw [hf] at this
  omega

theorem count_le_awaited (h : s.entryAt id = some e) (p : Nat) : e.dependents.count p ≤ s.awaited p :=
  le_total (List.mem_map.2 ⟨some e, List.mem_of_getElem? (entryAt_eq_some_iff.1 h), rfl⟩)

theorem awaited_pos {p c : Nat} (h : s.Waits p c) : 0 < s.awaited p := by
  obtain ⟨e, he, hp⟩ := h
  exact Nat.lt_of_lt_of_le (List.count_pos_iff.2 hp) (count_le_awaited he p)

theorem exists_waits_of_awaited_pos {p : Nat} (h : 0 < s.awaited p) : ∃ c, s.Waits p c := by
  refine Classical.byContradiction fun hnone => Nat.ne_of_gt h (total_eq_zero fun n hn => ?_)
  obtain ⟨x, hx, rfl⟩ := List.mem_map.1 hn
  cases x with
  | none => rfl
  | some e =>
    obtain ⟨i, hi⟩ := List.getElem?_of_mem hx
    exact List.count_eq_zero_of_not_mem fun hp => hnone ⟨i, e, entryAt_eq_some_iff.2 hi, hp⟩

end

section

variable {s : Scheduler J K} {target : Nat}

/-- The search finds only what waits for one of the jobs it starts from. -/
theorem exists_waits_of_reaches {visited stack : List Nat} (h : s.reaches target visited stack = true) :
    ∃ v ∈ stack, ReflTransGen s.Waits target v := by
  fun_induction s.reaches target visited stack with
  | case1 => cases h
  | case2 visited rest => exact ⟨target, List.mem_cons_self .., .refl⟩
  | case3 visited id rest _ _ ih =>
    obtain ⟨v, hv, hpath⟩ := ih h
    exact ⟨v, List.mem_cons_of_mem _ hv, hpath⟩
  | case4 visited id rest _ _ _ ih =>
    obtain ⟨v, hv, hpath⟩ := ih h
    exact ⟨v, List.mem_cons_of_mem _ hv, hpath⟩
  | case5 visited id rest _ _ e he ih =>
    obtain ⟨v, hv, hpath⟩ := ih h
    rcases List.mem_append.1 hv with hv | hv
    · exact ⟨id, List.mem_cons_self .., hpath.tail ⟨e, he, hv⟩⟩
    · exact ⟨v, List.mem_cons_of_mem _ hv, hpath⟩

theorem not_waits_of_entryAt_none {id : Nat} (h : s.entryAt id = none) (w : Nat) : ¬ s.Waits w id := by
  rintro ⟨e, he, -⟩
  rw [h] at he
  cases he

/-- A search has come to a job, or is going to, or nothing would be found there. -/
def Covered (s : Scheduler J K) (target : Nat) (visited stack : List Nat) (v : Nat) : Prop :=
  v ∈ visited ∨ v ∈ stack ∨ (v ≠ target ∧ ∀ w, ¬ s.Waits w v)

/-- If the search fails, nothing it covers is waited for by what it looks for. -/
theorem not_waits_of_not_reaches {visited stack : List Nat} (h : s.reaches target visited stack = false)
    (hvisited : ∀ v ∈ visited, v ≠ target ∧ ∀ u, s.Waits u v → s.Covered target visited stack u) {v : Nat}
    (hv : s.Covered target visited stack v) : ¬ ReflTransGen s.Waits target v := by
  fun_induction s.reaches target visited stack with
  | case1 visited =>
    intro hpath
    -- back along the chain everything has been visited, the job that was looked for too
    induction hpath with
    | refl =>
      rcases hv with hv | hv | hv
      · exact (hvisited target hv).1 rfl
      · cases hv
      · exact hv.1 rfl
    | tail _ hbc ih =>
      rcases hv with hv | hv | hv
      · exact ih ((hvisited _ hv).2 _ hbc)
      · cases hv
      · exact hv.2 _ hbc
  | case2 => cases h
  | case3 visited id rest _ hseen ih =>
    have hcover : ∀ u, s.Covered target visited (id :: rest) u → s.Covered target visited rest u := by
      rintro u (hu | hu | hu)
      · exact .inl hu
      · rcases List.mem_cons.1 hu with rfl | hu
        · exact .inl hseen
        · exact .inr (.inl hu)
      · exact .inr (.inr hu)
    exact ih h (fun x hx => ⟨(hvisited x hx).1, fun u hu => hcover u ((hvisited x hx).2 u hu)⟩) (hcover v hv)
  | case4 visited id rest hne _ he ih =>
    have hcover : ∀ u, s.Covered target visited (id :: rest) u → s.Covered target visited rest u := by
      rintro u (hu | hu | hu)
      · exact .inl hu
      · rcases List.mem_cons.1 hu with rfl | hu
        · exact .inr (.inr ⟨hne, not_waits_of_entryAt_none he⟩)
        · exact .inr (.inl hu)
      · exact .inr (.inr hu)
    exact ih h (fun x hx => ⟨(hvisited x hx).1, fun u hu => hcover u ((hvisited x hx).2 u hu)⟩) (hcover v hv)
  | case5 visited id rest hne _ e he ih =>
    have hcover : ∀ u, s.Covered target visited (id :: rest) u →
        s.Covered target (id :: visited) (e.dependents ++ rest) u := by
      rintro u (hu | hu | hu)
      · exact .inl (List.mem_cons_of_mem _ hu)
      · rcases List.mem_cons.1 hu with rfl | hu
        · exact .inl (List.mem_cons_self ..)
        · exact .inr (.inl (List.mem_append_right _ hu))
      · exact .inr (.inr hu)
    refine ih h (fun x hx => ?_) (hcover v hv)
    rcases List.mem_cons.1 hx with rfl | hx
    · refine ⟨hne, ?_⟩
      rintro u ⟨f, hf, hu⟩
      cases he.symm.trans hf
      exact .inr (.inl (List.mem_append_left _ hu))
    · exact ⟨(hvisited x hx).1, fun u hu => hcover u ((hvisited x hx).2 u hu)⟩

theorem dependsOn_iff (s : Scheduler J K) (job target : Nat) :
    s.dependsOn job target = true ↔ ReflTransGen s.Waits target job := by
  constructor
  · intro h
    obtain ⟨v, hv, hpath⟩ := exists_waits_of_reaches h
    exact List.mem_singleton.1 hv ▸ hpath
  · intro hpath
    rw [← Bool.not_eq_false]
    intro h
    have hjob : s.Covered target [] [job] job := .inr (.inl (List.mem_cons_self ..))
    exact not_waits_of_not_reaches h (fun _ hv => absurd hv List.not_mem_nil) hjob hpath

end

end Scheduler
end Cascade
