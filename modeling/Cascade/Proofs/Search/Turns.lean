import Cascade.Proofs.Search.Completing
import Cascade.Proofs.Search.Suspending
import Mathlib.Data.Fintype.EquivFin
import Mathlib.Data.Fintype.Card

/-!
Runs of the scheduler, turn by turn. In every turn the job on top of the stack runs and is completed or
suspended. The scheduler is in order at every moment of a turn (`Turn.Made.orderly`), and an entry stays
until the turn in which its job completes (`Turn.Made.lasts`).
-/

namespace Cascade

open Relation Scheduler

/-- One run of a job, with the scheduler before it, while the job runs and after it, and with the shared
state before and after. -/
structure Turn (J K C : Type) where
  id : Nat
  job : J
  result : Except PlanError (Step J)
  before : Scheduler J K
  running : Scheduler J K
  after : Scheduler J K
  seen : C
  left : C

namespace Turn

variable {J K C : Type} [DecidableEq K]

/-- The turn is what the scheduler makes of its jobs and the shared state. -/
structure Made (sys : JobSystem J K C) (t : Turn J K C) : Prop where
  taken : ∃ ready u, t.before.ready = t.id :: ready ∧
    ({ t.before with ready } : Scheduler J K).take t.id = .ok (t.job, u) ∧
    t.running = { u with executed := u.executed + 1 }
  run : sys.run t.job t.seen = (t.result, t.left)
  proceeds : ∀ step, t.result = .ok step → t.running.proceed sys t.id step = .ok t.after
  fails : ∀ e, t.result = .error e → t.after = t.running.clear

/-- The states of the scheduler in the course of a turn: before it, while the job runs, after each job it
asks for, and after it. -/
inductive Moment (sys : JobSystem J K C) (t : Turn J K C) : Scheduler J K → Option Nat → Prop
  | before : t.Moment sys t.before none
  | running : t.Moment sys t.running (some t.id)
  | asking {job : J} {children : List J} (h : t.result = .ok (.spawn job children)) (n : Nat) :
    t.Moment sys (t.running.askAll sys t.id job (children.take n)) (some t.id)
  | after : t.Moment sys t.after none

/-- The turn is made by the scheduler, which is in order at every moment of it. If the job completes, all
that have waited for it can be told, and no count is taken below zero. -/
structure Orderly (sys : JobSystem J K C) (t : Turn J K C) : Prop where
  made : t.Made sys
  moments : ∀ {m : Scheduler J K} {busy : Option Nat}, t.Moment sys m busy → m.Orderly busy []
  telling : t.result = .ok .done →
    ∃ e, t.running.entryAt t.id = some e ∧ (t.running.retire t.id e).CountsDown e.dependents

/-- The turn in which a job completes. -/
def Completes (t : Turn J K C) (id : Nat) : Prop := t.id = id ∧ t.result = .ok .done

end Turn

namespace Scheduler

variable {J K C : Type} [DecidableEq K] {s : Scheduler J K} {sys : JobSystem J K C} {id : Nat}
  {busy : Option Nat} {owed : List Nat}

theorem orderly_clear (s : Scheduler J K) : s.clear.Orderly none [] where
  keyed := ⟨nofun, nofun⟩
  free_iff := ⟨nofun, fun h => absurd h.1 (Nat.not_lt_zero _)⟩
  free_nodup := List.nodup_nil
  known := fun ⟨_, he, _⟩ => nomatch he
  owed_known := nofun
  busy_known := nofun
  pending_eq := nofun
  acyclic i hi := by
    obtain ⟨_, ⟨_, he, _⟩, _⟩ := TransGen.head'_iff.1 hi
    cases he
  ready_iff := ⟨nofun, fun h => nomatch h.2⟩
  ready_nodup := List.nodup_nil
  job_some := nofun

/-- If no job is on the stack, none is left: a job that is left waits for another one, and waiting ends
somewhere. -/
theorem Orderly.not_knows (h : s.Orderly none []) (hready : s.ready = []) (id : Nat) : ¬ s.Knows id := by
  have hnext : ∀ i, s.Knows i → ∃ c, s.Waits i c := by
    intro i hi
    obtain ⟨e, he⟩ := knows_iff.1 hi
    have hpos : 0 < e.pending := Nat.pos_of_ne_zero fun hzero => by
      have hmem := h.ready_iff.2 ⟨nofun, hzero ▸ pendingAt_of_entryAt he⟩
      rw [hready] at hmem
      cases hmem
    rw [h.pending_eq (pendingAt_of_entryAt he)] at hpos
    exact exists_waits_of_awaited_pos hpos
  let waitedFor : Fin s.entries.length → Fin s.entries.length → Prop := fun i j => TransGen s.Waits j i
  have htrans : IsTrans _ waitedFor := ⟨fun _ _ _ hij hjk => hjk.trans hij⟩
  have hirrefl : Std.Irrefl waitedFor := ⟨fun i => h.acyclic i⟩
  have hnone : ∀ i : Fin s.entries.length, ¬ s.Knows i := by
    intro i
    induction i using (Finite.wellFounded_of_trans_of_irrefl waitedFor).induction with
    | _ i ih =>
      intro hi
      obtain ⟨c, f, hf, hc⟩ := hnext i hi
      exact ih ⟨c, lt_length_of_entryAt hf⟩ (.single ⟨f, hf, hc⟩) (knows_of_entryAt hf)
  intro hid
  obtain ⟨e, he⟩ := knows_iff.1 hid
  exact hnone ⟨id, lt_length_of_entryAt he⟩ hid

theorem Orderly.rows_eq_nil (h : s.Orderly none []) (hready : s.ready = []) : s.active.rows = [] := by
  cases hrows : s.active.rows with
  | nil => rfl
  | cons r rows =>
    have hsome : s.active.get? r.1 ≠ none := fun hnone =>
      (s.active.get?_eq_none_iff r.1).1 hnone r (hrows ▸ List.mem_cons_self ..) rfl
    obtain ⟨id, hid⟩ := Option.ne_none_iff_exists'.1 hsome
    have hkey := h.keyed.1 hid
    exact absurd (knows_iff_keyAt.2 (Option.isSome_iff_exists.2 ⟨_, hkey⟩)) (h.not_knows hready id)

theorem Orderly.executed (h : s.Orderly busy owed) (n : Nat) :
    ({ s with executed := n } : Scheduler J K).Orderly busy owed := { h with }

/-- A running job that has waited for nothing can be completed or suspended. -/
theorem Orderly.proceed (h : s.Orderly (some id) []) (hzero : s.pendingAt id = some 0) (sys : JobSystem J K C)
    (step : Step J) : ∃ t, s.proceed sys id step = .ok t ∧ t.Orderly none [] := by
  cases step with
  | done =>
    obtain ⟨e, he, hpending⟩ := Option.map_eq_some_iff.1 hzero
    exact (h.complete he hpending).2
  | spawn job children =>
    obtain ⟨e, -, heq, ht⟩ := h.suspend sys job children
    exact ⟨_, heq, ht⟩

end Scheduler

namespace Turn

variable {J K C : Type} [DecidableEq K] {sys : JobSystem J K C} {t : Turn J K C}

/-- While a job runs, the other entries are those before its turn, and its own is only marked as running. -/
theorem Made.running_eq (ht : t.Made sys) : ∃ ready, t.before.ready = t.id :: ready ∧
    t.running = { ({ t.before with ready } : Scheduler J K).setJob t.id none with
      executed := t.before.executed + 1 } := by
  obtain ⟨ready, u, hready, htake, hrunning⟩ := ht.taken
  refine ⟨ready, hready, hrunning.trans ?_⟩
  unfold take at htake
  split at htake
  · cases htake
  · split at htake
    · cases htake
    · cases htake
      rfl

theorem Made.orderly_running (ht : t.Made sys) (h : t.before.Orderly none []) :
    t.running.Orderly (some t.id) [] ∧ t.running.pendingAt t.id = some 0 := by
  obtain ⟨ready, hready, hrunning⟩ := ht.running_eq
  obtain ⟨-, -, htaken, hzero⟩ := h.take hready
  exact ⟨hrunning ▸ htaken.executed _, hrunning ▸ hzero⟩

/-- The scheduler is in order at every moment of a turn. -/
theorem Made.orderly_moment (ht : t.Made sys) (h : t.before.Orderly none []) {m : Scheduler J K} {busy : Option Nat}
    (hm : t.Moment sys m busy) : m.Orderly busy [] := by
  obtain ⟨hrunning, hzero⟩ := ht.orderly_running h
  cases hm with
  | before => exact h
  | running => exact hrunning
  | asking hstep n => exact hrunning.askAll sys _ _
  | after =>
    cases hresult : t.result with
    | error e =>
      rw [ht.fails e hresult]
      exact orderly_clear t.running
    | ok step =>
      obtain ⟨u, hu, horderly⟩ := hrunning.proceed hzero sys step
      rw [ht.proceeds step hresult] at hu
      exact Except.ok.inj hu ▸ horderly

theorem Made.orderly (ht : t.Made sys) (h : t.before.Orderly none []) : t.Orderly sys where
  made := ht
  moments := ht.orderly_moment h
  telling _ := by
    obtain ⟨hrunning, hzero⟩ := ht.orderly_running h
    obtain ⟨e, he, hpending⟩ := Option.map_eq_some_iff.1 hzero
    exact ⟨e, he, (hrunning.complete he hpending).1⟩

theorem Made.orderly_after (ht : t.Made sys) (h : t.before.Orderly none []) : t.after.Orderly none [] :=
  ht.orderly_moment h .after

theorem Made.lasts_running (ht : t.Made sys) {id : Nat} {e : Entry J K} (he : t.before.entryAt id = some e) :
    ∃ f, t.running.entryAt id = some f ∧ e.Lasts f := by
  obtain ⟨ready, -, hrunning⟩ := ht.running_eq
  have he : ({ t.before with ready } : Scheduler J K).entryAt id = some e := he
  rw [hrunning]
  exact lasts_setJob t.id none he

/-- What is active while a job runs is active afterwards, unless that job completes. -/
theorem Made.lasts_after (ht : t.Made sys) (h : t.before.Orderly none []) {step : Step J}
    (hstep : t.result = .ok step) {id : Nat} {e : Entry J K} (he : t.running.entryAt id = some e)
    (hnot : ¬ t.Completes id) : ∃ f, t.after.entryAt id = some f ∧ e.Lasts f := by
  have hproceed := ht.proceeds step hstep
  cases step with
  | done =>
    obtain ⟨f, hf, hef⟩ := grows_complete hproceed (fun hid => hnot ⟨hid.symm, hstep⟩) he
    exact ⟨f, hf, hef.toLasts⟩
  | spawn job children =>
    obtain ⟨hrunning, -⟩ := ht.orderly_running h
    obtain ⟨p, -, hsuspend, -⟩ := hrunning.suspend sys job children
    have hafter : t.after = _ := Except.ok.inj (hproceed.symm.trans hsuspend)
    obtain ⟨f, hf, hef⟩ := lasts_setJob t.id (some job) he
    obtain ⟨g, hg, hfg⟩ := (hrunning.setJob (some job)).grows_spawnAll sys children hf
    refine ⟨g, ?_, hef.trans hfg.toLasts⟩
    rw [hafter, entryAt, (entries_putBack _ t.id p).1]
    exact hg

/-- An entry stays until the turn in which its job completes. -/
theorem Made.lasts (ht : t.Made sys) (h : t.before.Orderly none []) {step : Step J} (hstep : t.result = .ok step)
    {id : Nat} {e : Entry J K} (he : t.before.entryAt id = some e) (hnot : ¬ t.Completes id) :
    ∃ f, t.after.entryAt id = some f ∧ e.Lasts f := by
  obtain ⟨f, hf, hef⟩ := ht.lasts_running he
  obtain ⟨g, hg, hfg⟩ := ht.lasts_after h hstep hf hnot
  exact ⟨g, hg, hef.trans hfg⟩

/-- A job that is asked for either waits already for the job that asks, or is active and waited for. -/
theorem Made.asked (ht : t.Made sys) (h : t.before.Orderly none []) {job : J} {children : List J}
    (hstep : t.result = .ok (.spawn job children)) {child : J} (hchild : child ∈ children) :
    (∃ a, t.running.active.get? (sys.key child) = some a ∧ ReflTransGen t.running.Waits a t.id) ∨
      ∃ a, t.after.active.get? (sys.key child) = some a ∧ t.after.Waits t.id a := by
  obtain ⟨hrunning, -⟩ := ht.orderly_running h
  obtain ⟨p, -, hsuspend, -⟩ := hrunning.suspend sys job children
  have hafter : t.after = _ := Except.ok.inj ((ht.proceeds _ hstep).symm.trans hsuspend)
  have hwaits := waits_setJob t.running t.id (some job)
  refine ((hrunning.setJob (some job)).asked_spawnAll sys children hchild).imp ?_ ?_
  · rintro ⟨a, ha, hpath⟩
    exact ⟨a, ha, hwaits ▸ hpath⟩
  · rintro ⟨a, ha, e, he, hp⟩
    obtain ⟨hentries, hactive⟩ := entries_putBack (t.running.askAll sys t.id job children) t.id p
    refine ⟨a, ?_, e, ?_, hp⟩
    · rw [hafter, hactive]
      exact ha
    · rw [hafter, entryAt, hentries]
      exact he

theorem Made.keyAt_asked (ht : t.Made sys) (h : t.before.Orderly none []) {job : J} {children : List J}
    (hstep : t.result = .ok (.spawn job children)) {child : J} (hchild : child ∈ children) :
    ∃ a, t.after.keyAt a = some (sys.key child) := by
  have hafter := ht.orderly_after h
  rcases ht.asked h hstep hchild with ⟨a, ha, -⟩ | ⟨a, ha, -⟩
  · obtain ⟨hrunning, -⟩ := ht.orderly_running h
    obtain ⟨e, he, hkey⟩ := Option.map_eq_some_iff.1 (hrunning.keyed.1 ha)
    have hnot : ¬ t.Completes a := fun hdone => nomatch hstep.symm.trans hdone.2
    obtain ⟨f, hf, hef⟩ := ht.lasts_after h hstep he hnot
    exact ⟨a, by rw [keyAt_of_entryAt hf, hef.key_eq, hkey]⟩
  · exact ⟨a, hafter.keyed.1 ha⟩

end Turn
end Cascade
