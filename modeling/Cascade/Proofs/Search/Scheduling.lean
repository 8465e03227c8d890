import Cascade.Search.Scheduler

/-!
Invariants of a system of jobs. If every run of a job keeps what is true of the shared state and what is
true of waiting jobs, and the jobs it asks for have it too, then it holds when the scheduler has come to
its end (`invariant_run`).
-/

namespace Cascade

/-- The jobs that a run hands to the scheduler. -/
def Step.jobs {J : Type} : Step J → List J
  | .done => []
  | .spawn job children => job :: children

/-- `I` of the state and `P` of every waiting job are kept by all runs. -/
structure JobSystem.Keeps {J K C : Type} (sys : JobSystem J K C) (I : C → Prop) (P : C → J → Prop) : Prop where
  run : ∀ {job c step d}, I c → P c job → sys.run job c = (.ok step, d) →
    I d ∧ (∀ j, P c j → P d j) ∧ ∀ j ∈ step.jobs, P d j
  abandon : ∀ {job c}, I c → I (sys.abandon job c)

/-- Whether a run has come to an end other than by an error. -/
def Outcome.isRegular {τ : Type} : Outcome τ → Bool
  | .completed | .interrupted _ => true
  | .failed _ | .outOfFuel => false

namespace Scheduler

variable {J K C τ : Type}

/-- All waiting jobs have a property under the keys they were asked for. -/
def Holds (s : Scheduler J K) (P : K → J → Prop) : Prop := ∀ e j, some e ∈ s.entries → e.job = some j → P e.key j

section

variable {s : Scheduler J K} {P : K → J → Prop}

theorem Holds.mono (h : s.Holds P) {Q : K → J → Prop} (hPQ : ∀ k j, P k j → Q k j) : s.Holds Q :=
  fun e j he hj => hPQ e.key j (h e j he hj)

theorem holds_clear (s : Scheduler J K) (P : K → J → Prop) : s.clear.Holds P := fun _ _ he => by cases he

theorem mem_entries_of_entryAt {id : Nat} {e : Entry J K} (he : s.entryAt id = some e) : some e ∈ s.entries := by
  unfold entryAt at he
  cases hx : s.entries[id]? with
  | none =>
    rw [hx] at he
    cases he
  | some x =>
    rw [hx] at he
    have he : x = some e := he
    exact he ▸ List.mem_of_getElem? hx

theorem Holds.modifyEntry (h : s.Holds P) (id : Nat) {f : Entry J K → Entry J K}
    (hf : ∀ e j, s.entryAt id = some e → (f e).job = some j → (e.job = some j ∧ (f e).key = e.key) ∨ P (f e).key j) :
    (s.modifyEntry id f).Holds P := by
  intro e j he hj
  obtain ⟨i, hi⟩ := List.mem_iff_getElem?.1 he
  simp only [Scheduler.modifyEntry, List.getElem?_modify, Option.map_eq_map] at hi
  obtain ⟨x, hx, hxe⟩ := Option.map_eq_some_iff.1 hi
  have hmem := List.mem_of_getElem? hx
  split at hxe
  · rename_i hid
    obtain ⟨y, rfl, rfl⟩ := Option.map_eq_some_iff.1 hxe
    have hy : s.entryAt id = some y := by
      unfold entryAt
      rw [hid, hx]
      rfl
    rcases hf y j hy hj with ⟨hold, hkey⟩ | hP
    · exact hkey ▸ h y j hmem hold
    · exact hP
  · exact h e j (hxe ▸ hmem) hj

theorem Holds.modifyRest (h : s.Holds P) (id : Nat) {f : Entry J K → Entry J K} (hf : ∀ e, (f e).job = e.job)
    (hkey : ∀ e, (f e).key = e.key) : (s.modifyEntry id f).Holds P :=
  h.modifyEntry id fun e _ _ hj => .inl ⟨hf e ▸ hj, hkey e⟩

theorem Holds.addPending (h : s.Holds P) (id : Nat) : (s.addPending id).Holds P :=
  h.modifyRest id (fun _ => rfl) fun _ => rfl

theorem Holds.set (h : s.Holds P) (id : Nat) {x : Option (Entry J K)}
    (hx : ∀ e j, x = some e → e.job = some j → P e.key j) : Holds { s with entries := s.entries.set id x } P := by
  intro e j he hj
  rcases List.mem_or_eq_of_mem_set he with he | he
  · exact h e j he hj
  · exact hx e j he.symm hj

theorem Holds.allocate (h : s.Holds P) {x : Entry J K} (hx : ∀ j, x.job = some j → P x.key j) :
    (s.allocate x).2.Holds P := by
  have hentry : ∀ e j, e = x → e.job = some j → P e.key j := by
    rintro e j rfl
    exact hx j
  unfold Scheduler.allocate
  split
  · exact h.set _ fun e j he hj => hentry e j (Option.some.inj he).symm hj
  · intro e j he hj
    rcases List.mem_append.1 he with he | he
    · exact h e j he hj
    · exact hentry e j (Option.some.inj (List.mem_singleton.1 he)) hj

variable [DecidableEq K] (sys : JobSystem J K C)

theorem Holds.spawn (h : s.Holds P) (parent : Option Nat) {job : J} (hjob : P (sys.key job) job) :
    (s.spawn sys parent job).Holds P := by
  unfold Scheduler.spawn
  simp only
  cases s.active.get? (sys.key job) with
  | some existing =>
    cases parent with
    | none => exact h
    | some p =>
      have hwait : (s.modifyEntry existing (fun e => { e with waiters := e.waiters ++ [p] })).Holds P :=
        h.modifyRest existing (fun _ => rfl) fun _ => rfl
      dsimp only
      split
      · exact h
      · exact hwait.addPending p
  | none =>
    have halloc : (s.allocate ⟨some job, sys.key job, parent, 0, []⟩).2.Holds P :=
      h.allocate fun j hj => Option.some.inj hj ▸ hjob
    cases parent with
    | none => exact halloc
    | some p => exact halloc.addPending p

theorem Holds.spawnAll (parent : Option Nat) (children : List J) {s : Scheduler J K} (h : s.Holds P)
    (hchildren : ∀ j ∈ children, P (sys.key j) j) : (children.foldl (Scheduler.spawn sys parent) s).Holds P := by
  induction children generalizing s with
  | nil => exact h
  | cons job children ih =>
    exact ih (h.spawn sys parent (hchildren job (List.mem_cons_self ..)))
      fun j hj => hchildren j (List.mem_cons_of_mem _ hj)

omit [DecidableEq K] in
theorem Holds.notifyAll (ids : List Nat) {s t : Scheduler J K} (h : s.Holds P) (ht : s.notifyAll ids = .ok t) :
    t.Holds P := by
  induction ids generalizing s with
  | nil => exact Except.ok.inj ht ▸ h
  | cons id ids ih =>
    unfold Scheduler.notifyAll at ht
    split at ht
    · cases ht
    · have hmod : (s.modifyEntry id (fun e => { e with pending := e.pending - 1 })).Holds P :=
        h.modifyRest id (fun _ => rfl) fun _ => rfl
      refine ih ?_ ht
      split
      · exact hmod
      · exact hmod

theorem Holds.complete (h : s.Holds P) {id : Nat} {t : Scheduler J K} (ht : s.complete id = .ok t) : t.Holds P := by
  unfold Scheduler.complete at ht
  split at ht
  · cases ht
  · rename_i e _
    have hend : Holds { s with
        entries := s.entries.set id none
        free := id :: s.free
        active := s.active.erase e.key } P := h.set id fun _ _ he => by cases he
    exact Holds.notifyAll _ hend ht

theorem Holds.suspend (h : s.Holds P) {id : Nat} {job : J} {children : List J} {t : Scheduler J K}
    (hjob : ∀ e, s.entryAt id = some e → P e.key job) (hchildren : ∀ j ∈ children, P (sys.key j) j)
    (ht : s.suspend sys id job children = .ok t) : t.Holds P := by
  have hset : (s.modifyEntry id (fun e => { e with job := some job })).Holds P :=
    h.modifyEntry id fun e j he hj => .inr (Option.some.inj hj ▸ hjob e he)
  have hall := hset.spawnAll sys (some id) children hchildren
  unfold Scheduler.suspend at ht
  split at ht
  · cases ht
  · dsimp only at ht
    split at ht
    · cases ht
    · rw [← Except.ok.inj ht]
      split
      · exact hall
      · exact hall

/-- What runs of jobs keep true of the waiting ones stays true of them when the running one ends or is suspended. -/
theorem Holds.proceed (h : s.Holds P) {id : Nat} {step : Step J} {t : Scheduler J K}
    (hnext : ∀ job children, step = .spawn job children → ∀ e, s.entryAt id = some e → P e.key job)
    (hchildren : ∀ job children, step = .spawn job children → ∀ j ∈ children, P (sys.key j) j)
    (ht : s.proceed sys id step = .ok t) : t.Holds P := by
  cases step with
  | done => exact h.complete ht
  | spawn job children => exact h.suspend sys (hnext job children rfl) (hchildren job children rfl) ht

omit [DecidableEq K] in
theorem Holds.take (h : s.Holds P) {id : Nat} {job : J} {t : Scheduler J K} (ht : s.take id = .ok (job, t)) :
    t.Holds P ∧ ∃ e, s.entryAt id = some e ∧ e.job = some job ∧ P e.key job := by
  unfold Scheduler.take at ht
  split at ht
  · cases ht
  · rename_i e he
    split at ht
    · cases ht
    · rename_i j hj
      cases ht
      exact ⟨h.modifyEntry id fun _ _ _ hj => (by cases hj), e, he, hj, h e job (mem_entries_of_entryAt he) hj⟩

end

section

variable [DecidableEq K] {sys : JobSystem J K C} {I : C → Prop} {P : C → J → Prop}

omit [DecidableEq K] in
theorem invariant_abandonAll (h : sys.Keeps I P) (s : Scheduler J K) {c : C} (hc : I c) : I (s.abandonAll sys c) := by
  unfold abandonAll
  generalize s.entries.filterMap (fun e => e.bind Entry.job) = jobs
  induction jobs generalizing c with
  | nil => exact hc
  | cons job jobs ih => exact ih (h.abandon hc)

theorem invariant_loop (h : sys.Keeps I P) (interrupt : Nat → C → Except PlanError (Option τ)) (fuel runs : Nat)
    {s : Scheduler J K} {c : C} (hc : I c) (hs : s.Holds (fun _ => P c)) {o : Outcome τ} {t : Scheduler J K} {d : C}
    (hloop : loop sys interrupt fuel runs s c = (o, t, d)) (ho : o.isRegular = true) : I d := by
  -- on the number of runs that are left
  induction fuel generalizing runs s c with
  | zero =>
    cases hloop
    cases ho
  | succ fuel ih =>
    unfold loop at hloop
    cases hready : s.ready with
    | nil =>
      rw [hready] at hloop
      dsimp only at hloop
      split at hloop
      · cases hloop
        exact hc
      · cases hloop
        cases ho
    | cons id ready =>
      rw [hready] at hloop
      dsimp only at hloop
      split at hloop
      · cases hloop
        cases ho
      · cases hloop
        exact invariant_abandonAll h s hc
      · split at hloop
        · cases hloop
          cases ho
        · rename_i job u htake
          have hs : Holds { s with ready } (fun _ => P c) := hs
          obtain ⟨hu, e, -, -, hjob⟩ := hs.take htake
          split at hloop
          · cases hloop
            cases ho
          · rename_i step d hrun
            obtain ⟨hd, hkeep, hjobs⟩ := h.run hc hjob hrun
            split at hloop
            · cases hloop
              cases ho
            · rename_i v hproceed
              have hu : Holds { u with executed := u.executed + 1 } (fun _ => P d) := hu.mono fun _ => hkeep
              refine ih _ hd (hu.proceed sys ?_ ?_ hproceed) hloop
              · rintro job' children rfl _ _
                exact hjobs job' (List.mem_cons_self ..)
              · rintro job' children rfl j hj
                exact hjobs j (List.mem_cons_of_mem _ hj)

theorem invariant_run (h : sys.Keeps I P) (interrupt : Nat → C → Except PlanError (Option τ)) (fuel : Nat) {root : J}
    {c : C} (hc : I c) (hroot : P c root) {o : Outcome τ} {t : Scheduler J K} {d : C}
    (hrun : run sys interrupt fuel root .empty c = (o, t, d)) (ho : o.isRegular = true) : I d :=
  invariant_loop h interrupt fuel 0 hc ((holds_clear .empty fun _ => P c).spawn sys none hroot) hrun ho

end

end Scheduler
end Cascade
