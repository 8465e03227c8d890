import Cascade.Proofs.Search.Turns

/-!
Whole runs of the scheduler. A run never comes to a stop with jobs left, and never asks for a job it does
not know (`run_progresses`); a job is resumed only after those it has asked for have completed
(`run_awaits`).
-/

namespace Cascade

open Relation Scheduler

variable {J K C τ : Type}

namespace Scheduler

section

variable [DecidableEq K]

/-- What a run comes to after these turns, with the scheduler and the shared state that it leaves; `runs`
counts the turns before. It ends when nothing is left, when it is interrupted, or with an error of a job or
of the interruption check. -/
inductive History (sys : JobSystem J K C) (interrupt : Nat → C → Except PlanError (Option τ)) :
    Nat → Scheduler J K → C → List (Turn J K C) → Outcome τ × Scheduler J K × C → Prop
  | outOfFuel {runs : Nat} {s : Scheduler J K} {c : C} : History sys interrupt runs s c [] (.outOfFuel, s, c)
  | completed {runs : Nat} {s : Scheduler J K} {c : C} (hready : s.ready = []) (hactive : s.active.rows = []) :
    History sys interrupt runs s c [] (.completed, s, c)
  | refused {runs : Nat} {s : Scheduler J K} {c : C} {e : PlanError} (h : interrupt runs c = .error e) :
    History sys interrupt runs s c [] (.failed e, s.clear, c)
  | interrupted {runs : Nat} {s : Scheduler J K} {c : C} {reason : τ} (h : interrupt runs c = .ok (some reason)) :
    History sys interrupt runs s c [] (.interrupted reason, s.clear, s.abandonAll sys c)
  | failed {runs : Nat} {t : Turn J K C} {e : PlanError} (h : interrupt runs t.seen = .ok none) (ht : t.Made sys)
      (hresult : t.result = .error e) : History sys interrupt runs t.before t.seen [t] (.failed e, t.after, t.left)
  | turn {runs : Nat} {t : Turn J K C} {step : Step J} {turns : List (Turn J K C)}
      {r : Outcome τ × Scheduler J K × C} (h : interrupt runs t.seen = .ok none) (ht : t.Made sys)
      (hresult : t.result = .ok step) (rest : History sys interrupt (runs + 1) t.after t.left turns r) :
    History sys interrupt runs t.before t.seen (t :: turns) r

/-- A new scheduler, or one that has come to the end of a run. -/
inductive Reusable (sys : JobSystem J K C) : Scheduler J K → Prop
  | empty : Reusable sys .empty
  | run {τ : Type} {s : Scheduler J K} (hs : Reusable sys s) (interrupt : Nat → C → Except PlanError (Option τ))
      (fuel : Nat) (root : J) (c : C) (hend : (run sys interrupt fuel root s c).1 ≠ .outOfFuel) :
    Reusable sys (run sys interrupt fuel root s c).2.1

end

section

variable [DecidableEq K] {sys : JobSystem J K C} {interrupt : Nat → C → Except PlanError (Option τ)} {runs : Nat}
  {s : Scheduler J K} {c : C} {turns : List (Turn J K C)} {r : Outcome τ × Scheduler J K × C}

/-- If there is a job to run, a run takes its turn, unless it has come to its end. -/
theorem loop_cases (sys : JobSystem J K C) (interrupt : Nat → C → Except PlanError (Option τ)) (runs : Nat) (c : C)
    (h : s.Orderly none []) :
    (∃ turns r, r.1 ≠ .outOfFuel ∧ History sys interrupt runs s c turns r ∧
      ∀ fuel, loop sys interrupt (fuel + 1) runs s c = r) ∨
    ∃ (t : Turn J K C) (step : Step J), t.before = s ∧ t.seen = c ∧ interrupt runs c = .ok none ∧ t.Made sys ∧ t.result = .ok step ∧
      ∀ fuel, loop sys interrupt (fuel + 1) runs s c = loop sys interrupt fuel (runs + 1) t.after t.left := by
  simp only [loop]
  cases hready : s.ready with
  | nil =>
    have hrows := h.rows_eq_nil hready
    dsimp only
    rw [hrows]
    exact .inl ⟨[], (.completed, s, c), nofun, .completed hready hrows, fun _ => rfl⟩
  | cons id ready =>
    cases hinterrupt : interrupt runs c with
    | error e => exact .inl ⟨[], (.failed e, s.clear, c), nofun, .refused hinterrupt, fun _ => rfl⟩
    | ok stop =>
      cases stop with
      | some reason => exact .inl ⟨[], (.interrupted reason, s.clear, _), nofun, .interrupted hinterrupt, fun _ => rfl⟩
      | none =>
        obtain ⟨job, htake, horderly, hzero⟩ := h.take hready
        let running : Scheduler J K :=
          { ({ s with ready } : Scheduler J K).setJob id none with executed := s.executed + 1 }
        dsimp only
        rw [htake]
        dsimp only
        cases hrun : sys.run job c with
        | mk result d =>
          cases result with
          | error e =>
            let t : Turn J K C := ⟨id, job, .error e, s, running, running.clear, c, d⟩
            have ht : t.Made sys := ⟨⟨ready, _, hready, htake, rfl⟩, hrun, nofun, fun _ _ => rfl⟩
            exact .inl ⟨[t], (.failed e, t.after, t.left), nofun, .failed hinterrupt ht rfl, fun _ => rfl⟩
          | ok step =>
            have hrunning : running.Orderly (some id) [] := horderly.executed _
            obtain ⟨after, hproceed, -⟩ := hrunning.proceed hzero sys step
            let t : Turn J K C := ⟨id, job, .ok step, s, running, after, c, d⟩
            have ht : t.Made sys :=
              ⟨⟨ready, _, hready, htake, rfl⟩, hrun, fun _ h => Except.ok.inj h ▸ hproceed, nofun⟩
            refine .inr ⟨t, step, rfl, rfl, rfl, ht, rfl, fun fuel => ?_⟩
            dsimp only
            split
            · rename_i herror
              cases hproceed.symm.trans herror
            · rename_i hok
              cases hproceed.symm.trans hok
              rfl

/-- The run of a scheduler that is in order has a history. -/
theorem exists_history (sys : JobSystem J K C) (interrupt : Nat → C → Except PlanError (Option τ)) (fuel runs : Nat)
    (c : C) (h : s.Orderly none []) : ∃ turns, History sys interrupt runs s c turns (loop sys interrupt fuel runs s c) := by
  induction fuel generalizing runs s c with
  | zero => exact ⟨[], .outOfFuel⟩
  | succ fuel ih =>
    rcases loop_cases sys interrupt runs c h with
      ⟨turns, r, -, hr, heq⟩ | ⟨t, step, rfl, rfl, hinterrupt, ht, hresult, heq⟩
    · exact ⟨turns, heq fuel ▸ hr⟩
    · obtain ⟨turns, hturns⟩ := ih (runs + 1) t.left (ht.orderly_after h)
      exact ⟨t :: turns, heq fuel ▸ .turn hinterrupt ht hresult hturns⟩

/-- A run comes to its end, whatever fuel there is beyond some amount. -/
def Ends (sys : JobSystem J K C) (interrupt : Nat → C → Except PlanError (Option τ)) (runs : Nat) (s : Scheduler J K)
    (c : C) : Prop :=
  ∃ n r, r.1 ≠ .outOfFuel ∧ ∀ fuel, n ≤ fuel → loop sys interrupt fuel runs s c = r

/-- A run comes to its end if it does after its next turn. -/
theorem ends_of_turn (h : s.Orderly none [])
    (hturn : ∀ t : Turn J K C, t.before = s → t.seen = c → t.Made sys → ∀ step, t.result = .ok step →
      Ends sys interrupt (runs + 1) t.after t.left) : Ends sys interrupt runs s c := by
  rcases loop_cases sys interrupt runs c h with ⟨_, r, hr, -, heq⟩ | ⟨t, step, hs, hc, -, ht, hresult, heq⟩
  · refine ⟨1, r, hr, fun fuel hfuel => ?_⟩
    obtain ⟨n, rfl⟩ := Nat.exists_eq_add_of_le' hfuel
    exact heq n
  · obtain ⟨n, r, hr, hn⟩ := hturn t hs hc ht step hresult
    refine ⟨n + 1, r, hr, fun fuel hfuel => ?_⟩
    obtain ⟨k, rfl⟩ := Nat.exists_eq_add_of_le' hfuel
    rw [← Nat.add_assoc, heq]
    exact hn _ (Nat.le_add_left n k)

/-- The scheduler goes through these turns, one after the other. -/
inductive Linked (sys : JobSystem J K C) : Scheduler J K → List (Turn J K C) → Scheduler J K → Prop
  | nil {s : Scheduler J K} : Linked sys s [] s
  | cons {t : Turn J K C} {step : Step J} {turns : List (Turn J K C)} {u : Scheduler J K} (ht : t.Made sys)
      (hresult : t.result = .ok step) (rest : Linked sys t.after turns u) : Linked sys t.before (t :: turns) u

/-- Up to the beginning of any of its turns, a run goes from turn to turn. -/
theorem History.split {pre post : List (Turn J K C)} {t : Turn J K C}
    (h : History sys interrupt runs s c (pre ++ t :: post) r) :
    Linked sys s pre t.before ∧ ∃ runs', History sys interrupt runs' t.before t.seen (t :: post) r := by
  induction pre generalizing runs s c with
  | nil =>
    cases h with
    | failed hi ht hresult => exact ⟨.nil, _, .failed hi ht hresult⟩
    | turn hi ht hresult rest => exact ⟨.nil, _, .turn hi ht hresult rest⟩
  | cons u pre ih =>
    generalize hturns : u :: pre ++ t :: post = turns at h
    cases h with
    | failed hi ht hresult =>
      have := congrArg List.length hturns
      simp at this
    | turn hi ht hresult rest =>
      cases hturns
      obtain ⟨hlinked, hrest⟩ := ih rest
      exact ⟨.cons ht hresult hlinked, hrest⟩
    | _ => cases hturns

theorem History.made {t : Turn J K C} {post : List (Turn J K C)}
    (h : History sys interrupt runs s c (t :: post) r) : t.Made sys := by
  cases h with
  | failed _ ht _ => exact ht
  | turn _ ht _ _ => exact ht

/-- A run that completes goes through all of its turns and leaves no job. -/
theorem History.of_completed {u : Scheduler J K} {d : C}
    (h : History sys interrupt runs s c turns (.completed, u, d)) : Linked sys s turns u ∧ u.active.rows = [] := by
  generalize hr : ((.completed, u, d) : Outcome τ × Scheduler J K × C) = r at h
  induction h with
  | completed _ hactive =>
    cases hr
    exact ⟨.nil, hactive⟩
  | turn _ ht hresult _ ih =>
    obtain ⟨hlinked, hactive⟩ := ih hr
    exact ⟨.cons ht hresult hlinked, hactive⟩
  | _ => cases hr

theorem Linked.orderly {u : Scheduler J K} (h : Linked sys s turns u) (hs : s.Orderly none []) : u.Orderly none [] := by
  induction h with
  | nil => exact hs
  | cons ht _ _ ih => exact ih (ht.orderly_after hs)

/-- An entry stays until a turn in which its job completes. -/
theorem Linked.lasts {u : Scheduler J K} (h : Linked sys s turns u) (hs : s.Orderly none []) {id : Nat}
    {e : Entry J K} (he : s.entryAt id = some e) (hnot : ∀ t ∈ turns, ¬ t.Completes id) :
    ∃ f, u.entryAt id = some f ∧ e.Lasts f := by
  induction h generalizing e with
  | nil => exact ⟨e, he, .refl e⟩
  | cons ht hresult _ ih =>
    obtain ⟨f, hf, hef⟩ := ht.lasts hs hresult he (hnot _ (List.mem_cons_self ..))
    obtain ⟨g, hg, hfg⟩ := ih (ht.orderly_after hs) hf fun t ht => hnot t (List.mem_cons_of_mem _ ht)
    exact ⟨g, hg, hef.trans hfg⟩

theorem Linked.split {pre post : List (Turn J K C)} {t : Turn J K C} {u : Scheduler J K}
    (h : Linked sys s (pre ++ t :: post) u) :
    Linked sys s pre t.before ∧ t.Made sys ∧ (∃ step, t.result = .ok step) ∧ Linked sys t.after post u := by
  induction pre generalizing s with
  | nil =>
    cases h with
    | cons ht hresult rest => exact ⟨.nil, ht, ⟨_, hresult⟩, rest⟩
  | cons _ _ ih =>
    cases h with
    | cons ht hresult rest =>
      obtain ⟨hlinked, hrest⟩ := ih rest
      exact ⟨.cons ht hresult hlinked, hrest⟩

/-- The scheduler is in order in every turn. -/
theorem History.orderly (h : History sys interrupt runs s c turns r) (hs : s.Orderly none []) {t : Turn J K C}
    (ht : t ∈ turns) : t.Orderly sys := by
  obtain ⟨pre, post, rfl⟩ := List.append_of_mem ht
  obtain ⟨hlinked, runs', hrest⟩ := h.split
  exact hrest.made.orderly (hlinked.orderly hs)

/-- A job that is active at some time and not at a later one has completed in between. -/
theorem Linked.completes {u : Scheduler J K} (h : Linked sys s turns u) (hs : s.Orderly none []) {id : Nat}
    {e : Entry J K} (he : s.entryAt id = some e) (hgone : ¬ u.Knows id) :
    ∃ t ∈ turns, t.Completes id ∧ t.running.keyAt id = some e.key := by
  induction h generalizing e with
  | nil => exact absurd (knows_of_entryAt he) hgone
  | @cons t _ turns _ ht hresult _ ih =>
    by_cases hdone : t.Completes id
    · obtain ⟨f, hf, hef⟩ := ht.lasts_running he
      exact ⟨t, List.mem_cons_self .., hdone, (keyAt_of_entryAt hf).trans (congrArg some hef.key_eq)⟩
    · obtain ⟨f, hf, hef⟩ := ht.lasts hs hresult he hdone
      obtain ⟨w, hw, hcompletes, hkey⟩ := ih (ht.orderly_after hs) hf hgone
      exact ⟨w, List.mem_cons_of_mem _ hw, hcompletes, hkey.trans (congrArg some hef.key_eq)⟩

/-- A run fails only if the interruption check fails or a job does. -/
theorem History.of_failed {e : PlanError} {u : Scheduler J K} {d : C}
    (h : History sys interrupt runs s c turns (.failed e, u, d)) :
    interrupt (runs + turns.length) d = .error e ∨ ∃ t ∈ turns, t.result = .error e := by
  generalize hr : ((.failed e, u, d) : Outcome τ × Scheduler J K × C) = r at h
  induction h with
  | refused hi =>
    cases hr
    exact .inl hi
  | @failed _ t _ _ _ hresult =>
    cases hr
    exact .inr ⟨t, List.mem_cons_self .., hresult⟩
  | turn _ _ _ _ ih =>
    refine (ih hr).imp (fun hi => ?_) fun ⟨t, ht, hresult⟩ => ⟨t, List.mem_cons_of_mem _ ht, hresult⟩
    rwa [List.length_cons, Nat.add_comm _ 1, ← Nat.add_assoc]
  | _ => cases hr

/-- No job is active. -/
def Idle (s : Scheduler J K) : Prop := s.Orderly none [] ∧ ∀ id, ¬ s.Knows id

theorem idle_clear (s : Scheduler J K) : s.clear.Idle := ⟨orderly_clear s, fun _ h => nomatch h⟩

theorem Orderly.idle (h : s.Orderly none []) (hrows : s.active.rows = []) : s.Idle := by
  refine ⟨h, fun id hid => ?_⟩
  obtain ⟨e, he⟩ := knows_iff.1 hid
  have hget := h.keyed.2 (keyAt_of_entryAt he)
  rw [(s.active.get?_eq_none_iff e.key).2 (by simp [hrows])] at hget
  cases hget

theorem History.idle (h : History sys interrupt runs s c turns r) (hs : s.Orderly none []) (hr : r.1 ≠ .outOfFuel) :
    r.2.1.Idle := by
  induction h with
  | outOfFuel => exact absurd rfl hr
  | completed _ hactive => exact hs.idle hactive
  | refused _ => exact idle_clear _
  | interrupted _ => exact idle_clear _
  | @failed _ t e _ ht hresult =>
    rw [show (_, t.after, t.left).2.1 = t.running.clear from ht.fails e hresult]
    exact idle_clear _
  | turn _ ht _ _ ih => exact ih (ht.orderly_after hs) hr

theorem Reusable.idle (hs : Reusable sys s) : s.Idle := by
  induction hs with
  | empty => exact idle_clear .empty
  | @run _ s _ interrupt fuel root c hend ih =>
    obtain ⟨turns, h⟩ := exists_history sys interrupt fuel 0 c (ih.1.spawn sys root)
    exact h.idle (ih.1.spawn sys root) hend

/-- The first job that is asked for is active. -/
theorem Idle.keyAt_root (h : s.Idle) (sys : JobSystem J K C) (root : J) :
    ∃ id, (s.spawn sys none root).keyAt id = some (sys.key root) := by
  have hkey : s.active.get? (sys.key root) = none := by
    cases hget : s.active.get? (sys.key root) with
    | none => rfl
    | some id => exact absurd (knows_iff_keyAt.2 (Option.isSome_iff_exists.2 ⟨_, h.1.keyed.1 hget⟩)) (h.2 id)
  obtain ⟨id, t, hadds, heq⟩ := h.1.spawn_new hkey
  refine ⟨id, ?_⟩
  rw [heq]
  exact (hadds.keyAt_eq id).trans (if_pos rfl)

/-- In every run the scheduler stays in order. It fails only if a job or the interruption check does, and
completes only after all jobs that have ever been active have. -/
theorem run_progresses (hs : Reusable sys s) (interrupt : Nat → C → Except PlanError (Option τ)) (fuel : Nat)
    (root : J) (c : C) :
    ∃ turns, History sys interrupt 0 (s.spawn sys none root) c turns (run sys interrupt fuel root s c) ∧
      (s.spawn sys none root).Orderly none [] ∧ (∀ t ∈ turns, t.Orderly sys) ∧
      (∀ e, (run sys interrupt fuel root s c).1 = .failed e →
        interrupt turns.length (run sys interrupt fuel root s c).2.2 = .error e ∨ ∃ t ∈ turns, t.result = .error e) ∧
      ((run sys interrupt fuel root s c).1 = .completed →
        (∃ id, (s.spawn sys none root).keyAt id = some (sys.key root) ∧ ∃ t ∈ turns, t.Completes id) ∧
        ∀ pre t post, turns = pre ++ t :: post →
          (∀ id, t.after.Knows id → ∃ w ∈ post, w.Completes id ∧ w.running.keyAt id = t.after.keyAt id) ∧
          ∀ job children, t.result = .ok (.spawn job children) → ∀ child ∈ children,
            ∃ id, t.after.keyAt id = some (sys.key child)) := by
  have hstart := hs.idle.1.spawn sys root
  obtain ⟨turns, h⟩ := exists_history sys interrupt fuel 0 c hstart
  refine ⟨turns, h, hstart, fun t ht => h.orderly hstart ht, fun e he => ?_, fun hcompleted => ?_⟩
  · have hfailed : History sys interrupt 0 (s.spawn sys none root) c turns
        (.failed e, (run sys interrupt fuel root s c).2) := he ▸ h
    have := hfailed.of_failed
    rwa [Nat.zero_add] at this
  · have hended : History sys interrupt 0 (s.spawn sys none root) c turns
        (.completed, (run sys interrupt fuel root s c).2) := hcompleted ▸ h
    obtain ⟨hlinked, hrows⟩ := hended.of_completed
    obtain ⟨-, hgone⟩ := (hlinked.orderly hstart).idle hrows
    refine ⟨?_, fun pre t post hturns => ⟨fun id hid => ?_, fun job children hstep child hchild => ?_⟩⟩
    · obtain ⟨id, hid⟩ := hs.idle.keyAt_root sys root
      obtain ⟨e, he, -⟩ := Option.map_eq_some_iff.1 hid
      obtain ⟨t, ht, hdone, -⟩ := hlinked.completes hstart he (hgone id)
      exact ⟨id, hid, t, ht, hdone⟩
    · obtain ⟨hbefore, hmade, -, hrest⟩ := (hturns ▸ hlinked).split
      obtain ⟨e, he⟩ := knows_iff.1 hid
      obtain ⟨w, hw, hdone, hkey⟩ := hrest.completes (hmade.orderly_after (hbefore.orderly hstart)) he (hgone id)
      exact ⟨w, hw, hdone, hkey.trans (keyAt_of_entryAt he).symm⟩
    · obtain ⟨hbefore, hmade, -, -⟩ := (hturns ▸ hlinked).split
      exact hmade.keyAt_asked (hbefore.orderly hstart) hstep hchild

/-- Jobs that ask for the next lower number once, down to zero. -/
def countdown : JobSystem (Nat × Bool) Nat Unit where
  key := Prod.fst
  run
    | (n + 1, false), c => (.ok (.spawn (n + 1, true) [(n, false)]), c)
    | _, c => (.ok .done, c)
  abandon _ c := c

theorem run_progresses_countdown :
    Reusable countdown .empty ∧
      (run countdown (fun _ _ => (.ok none : Except PlanError (Option Unit))) 5 (1, false) .empty ()).1 = .completed ∧
      ∃ turns : List (Turn (Nat × Bool) Nat Unit), (∀ t ∈ turns, t.Orderly countdown) ∧ ∃ id, ∃ t ∈ turns, t.Completes id := by
  have hend : (run countdown (fun _ _ => (.ok none : Except PlanError (Option Unit))) 5 (1, false) .empty ()).1 =
      .completed := rfl
  have hempty : Reusable countdown .empty := .empty
  obtain ⟨turns, -, -, horderly, -, hcompleted⟩ :=
    run_progresses hempty (fun _ _ => (.ok none : Except PlanError (Option Unit))) 5 (1, false) ()
  obtain ⟨⟨id, -, hroot⟩, -⟩ := hcompleted hend
  exact ⟨hempty, hend, turns, horderly, id, hroot⟩

/-- A job is resumed only after all it has asked for last have completed, except for those that waited for
it; at every moment its count says how many active jobs it waits for. -/
theorem run_awaits (hs : Reusable sys s) {root : J} {fuel : Nat}
    (h : History sys interrupt 0 (s.spawn sys none root) c turns (run sys interrupt fuel root s c)) :
    (∀ t ∈ turns, ∀ m busy, t.Moment sys m busy → ∀ id n, m.pendingAt id = some n → n = m.awaited id) ∧
    ∀ pre x between y post, turns = pre ++ x :: between ++ y :: post → y.id = x.id →
      ∀ job children, x.result = .ok (.spawn job children) → ∀ child ∈ children,
        (∃ a, x.running.active.get? (sys.key child) = some a ∧ ReflTransGen x.running.Waits a x.id) ∨
        ∃ a, x.after.active.get? (sys.key child) = some a ∧ ∃ w ∈ between, w.Completes a := by
  have hstart := hs.idle.1.spawn sys root
  refine ⟨fun t ht m busy hm id n hn => ?_, ?_⟩
  · have hcount := ((h.orderly hstart ht).moments hm).pending_eq hn
    rwa [List.count_nil, Nat.add_zero] at hcount
  · intro pre x between y post hturns hid job children hstep child hchild
    rw [hturns] at h
    obtain ⟨hlinked, _, hrest⟩ := h.split
    obtain ⟨hbefore, hx, -, hgap⟩ := hlinked.split
    have hxo := hbefore.orderly hstart
    refine (hx.asked hxo hstep hchild).imp_right ?_
    rintro ⟨a, ha, hw⟩
    refine ⟨a, ha, Classical.byContradiction fun hnone => ?_⟩
    -- as long as the child is active the job waits for it, so that it is not on the stack
    obtain ⟨e, he, hp⟩ := hw
    have hafter := hx.orderly_after hxo
    obtain ⟨f, hf, hef⟩ := hgap.lasts hafter he fun t ht hdone => hnone ⟨t, ht, hdone⟩
    have hy := hgap.orderly hafter
    obtain ⟨ready, u, hready, -⟩ := hrest.made.taken
    have htop := (hy.ready_iff.1 (hready ▸ List.mem_cons_self ..)).2
    exact hy.not_waits_of_pending (hid ▸ htop) a (hef.waits he hf ⟨e, he, hp⟩)

/-- The turns in which the job with number one waits for the job with number zero. -/
def countdownTurns : List (Turn (Nat × Bool) Nat Unit) :=
  let one : Entry (Nat × Bool) Nat := ⟨some (1, false), 1, none, 0, []⟩
  let waiting : Entry (Nat × Bool) Nat := ⟨some (1, true), 1, none, 1, []⟩
  let zero : Entry (Nat × Bool) Nat := ⟨some (0, false), 0, some 0, 0, []⟩
  let first : Scheduler (Nat × Bool) Nat := ⟨[some one], [], [0], ⟨[(1, 0)]⟩, 0⟩
  let second : Scheduler (Nat × Bool) Nat := ⟨[some waiting, some zero], [], [1], ⟨[(1, 0), (0, 1)]⟩, 1⟩
  let third : Scheduler (Nat × Bool) Nat := ⟨[some { waiting with pending := 0 }, none], [1], [0], ⟨[(1, 0)]⟩, 2⟩
  [⟨0, (1, false), .ok (.spawn (1, true) [(0, false)]), first,
      ⟨[some { one with job := none }], [], [], ⟨[(1, 0)]⟩, 1⟩, second, (), ()⟩,
    ⟨1, (0, false), .ok .done, second,
      ⟨[some waiting, some { zero with job := none }], [], [], ⟨[(1, 0), (0, 1)]⟩, 2⟩, third, (), ()⟩,
    ⟨0, (1, true), .ok .done, third,
      ⟨[some { waiting with pending := 0, job := none }, none], [1], [], ⟨[(1, 0)]⟩, 3⟩,
      ⟨[none, none], [0, 1], [], ⟨[]⟩, 3⟩, (), ()⟩]

theorem history_countdown : History countdown (fun _ _ => (.ok none : Except PlanError (Option Unit))) 0
    (Scheduler.empty.spawn countdown none (1, false)) () countdownTurns
    (run countdown (fun _ _ => (.ok none : Except PlanError (Option Unit))) 5 (1, false) .empty ()) := by
  have hrun : run countdown (fun _ _ => (.ok none : Except PlanError (Option Unit))) 5 (1, false) .empty () =
      (.completed, ⟨[none, none], [0, 1], [], ⟨[]⟩, 3⟩, ()) := rfl
  have hmade : ∀ t ∈ countdownTurns, t.Made countdown := by
    refine List.forall_mem_cons.2 ⟨?_, List.forall_mem_cons.2 ⟨?_, List.forall_mem_cons.2 ⟨?_, List.forall_mem_nil _⟩⟩⟩
    all_goals exact ⟨⟨_, _, rfl, rfl, rfl⟩, rfl, by rintro _ ⟨⟩; rfl, by rintro _ ⟨⟩⟩
  obtain ⟨hfirst, hmade⟩ := List.forall_mem_cons.1 hmade
  obtain ⟨hsecond, hmade⟩ := List.forall_mem_cons.1 hmade
  have hthird := hmade _ (List.mem_cons_self ..)
  rw [hrun]
  exact .turn rfl hfirst rfl (.turn rfl hsecond rfl (.turn rfl hthird rfl (.completed rfl rfl)))

theorem run_awaits_countdown : ∃ x between y, countdownTurns = [] ++ x :: between ++ y :: [] ∧ y.id = x.id ∧
    x.result = .ok (.spawn (1, true) [(0, false)]) ∧ ∃ a, x.after.active.get? 0 = some a ∧ ∃ w ∈ between, w.Completes a := by
  refine ⟨_, [_], _, rfl, rfl, rfl, ?_⟩
  have hempty : Reusable countdown .empty := .empty
  have hawaits := (run_awaits hempty history_countdown).2 [] _ [_] _ [] rfl rfl _ _ rfl (0, false) (List.mem_cons_self ..)
  refine hawaits.resolve_left ?_
  rintro ⟨a, ha, -⟩
  cases ha

end

end Scheduler
end Cascade
