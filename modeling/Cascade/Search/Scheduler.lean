import Cascade.Collection.Count
import Cascade.Collection.Lookup
import Cascade.Error

/-!
A cooperative scheduler. A job runs until it needs the results of others; it then names those jobs
and is suspended until they have completed. Ready jobs are kept on a stack, so the work proceeds
depth first. Jobs are identified by keys: a job that is asked for while one with the same key is
active is not run again, its parent waits for the active one instead. If that one waits for the
parent, waiting would never end, and the parent goes on without it.
-/

namespace Cascade

/-- What a run of a job comes to. -/
inductive Step (J : Type)
  | done
  /-- the job is to be resumed, in a new state, after other jobs have completed -/
  | spawn (job : J) (children : List J)

/-- Jobs of type `J` with keys of type `K` that share a state of type `C`. -/
structure JobSystem (J K C : Type) where
  key : J → K
  run : J → C → Except PlanError (Step J) × C
  /-- what is done for a job that is given up -/
  abandon : J → C → C

/-- How a run of the scheduler ends. -/
inductive Outcome (τ : Type)
  | completed
  | interrupted (reason : τ)
  | failed (error : PlanError)
  /-- the bound on the number of steps was reached -/
  | outOfFuel

namespace Scheduler

/-- An active job. -/
structure Entry (J K : Type) where
  /-- none while the job runs -/
  job : Option J
  key : K
  /-- the job that asked for it first -/
  parent : Option Nat
  /-- how many jobs it waits for -/
  pending : Nat
  /-- other jobs that wait for it -/
  waiters : List Nat

/-- The jobs that wait for an active job. -/
def Entry.dependents {J K : Type} (e : Entry J K) : List Nat := e.parent.toList ++ e.waiters

end Scheduler

open Scheduler in
/-- Active jobs by number. Numbers of completed jobs are used again, the last freed first. -/
structure Scheduler (J K : Type) where
  entries : List (Option (Entry J K))
  free : List Nat
  /-- the stack of jobs that can go on, the top first -/
  ready : List Nat
  /-- the number of the active job with each key -/
  active : Lookup K Nat
  /-- how often jobs were run -/
  executed : Nat

namespace Scheduler

variable {J K C τ : Type}

def empty : Scheduler J K := ⟨[], [], [], ∅, 0⟩

instance : Inhabited (Scheduler J K) := ⟨empty⟩

/-- Forgets all jobs. -/
def clear (s : Scheduler J K) : Scheduler J K := { empty with executed := s.executed }

def entryAt (s : Scheduler J K) (id : Nat) : Option (Entry J K) := s.entries[id]?.join

def modifyEntry (s : Scheduler J K) (id : Nat) (f : Entry J K → Entry J K) : Scheduler J K :=
  { s with entries := s.entries.modify id (Option.map f) }

theorem lt_length_of_entryAt {s : Scheduler J K} {id : Nat} {e : Entry J K} (h : s.entryAt id = some e) :
    id < s.entries.length := by
  unfold entryAt at h
  cases hx : s.entries[id]? with
  | none => rw [hx] at h; cases h
  | some x => exact (List.getElem?_eq_some_iff.1 hx).1

/-- The numbers that a search has not come to. -/
def unvisited (s : Scheduler J K) (visited : List Nat) : List Nat :=
  (List.range s.entries.length).filter (fun i => !decide (i ∈ visited))

/-- Whether a search that starts at some jobs and goes on to those that wait for them finds a job. -/
def reaches (s : Scheduler J K) (target : Nat) (visited : List Nat) : List Nat → Bool
  | [] => false
  | id :: rest =>
    if id = target then true
    else if _seen : id ∈ visited then s.reaches target visited rest
    else
      match _found : s.entryAt id with
      | none => s.reaches target visited rest
      | some e => s.reaches target (id :: visited) (e.dependents ++ rest)
termination_by stack => ((s.unvisited visited).length, stack.length)
decreasing_by
  · exact .right _ (Nat.lt_succ_self _)
  · exact .right _ (Nat.lt_succ_self _)
  · refine .left _ _ (length_filter_lt ?_ (List.mem_range.2 (lt_length_of_entryAt _found)) ?_ ?_)
    · intro x hx
      simp only [List.mem_cons, Bool.not_eq_true', decide_eq_false_iff_not, not_or] at hx ⊢
      exact hx.2
    · simp [_seen]
    · simp

/-- Whether a job is another one or waited for by a chain of jobs that ends there. -/
def dependsOn (s : Scheduler J K) (job target : Nat) : Bool := s.reaches target [] [job]

/-- Lets a job wait for one more. -/
def addPending (s : Scheduler J K) (id : Nat) : Scheduler J K :=
  s.modifyEntry id (fun e => { e with pending := e.pending + 1 })

/-- Gives a new job a number. -/
def allocate (s : Scheduler J K) (e : Entry J K) : Nat × Scheduler J K :=
  match s.free with
  | id :: free => (id, { s with entries := s.entries.set id (some e), free })
  | [] => (s.entries.length, { s with entries := s.entries ++ [some e] })

/-- Adds a job that `parent` asks for. -/
def spawn [DecidableEq K] (sys : JobSystem J K C) (parent : Option Nat) (s : Scheduler J K) (job : J) :
    Scheduler J K :=
  let key := sys.key job
  match s.active.get? key with
  | some existing =>
    match parent with
    | none => s
    | some p =>
      if s.dependsOn p existing then s
      else (s.modifyEntry existing (fun e => { e with waiters := e.waiters ++ [p] })).addPending p
  | none =>
    let (id, s) := s.allocate ⟨some job, key, parent, 0, []⟩
    let s := { s with active := s.active.set key id }
    let s :=
      match parent with
      | none => s
      | some p => s.addPending p
    { s with ready := id :: s.ready }

def unknownJob (id : Nat) : PlanError := .internal ("Unknown job: " ++ toString id)

/-- Tells jobs that one they wait for has completed; those that wait for no other are ready. -/
def notifyAll (s : Scheduler J K) : List Nat → Except PlanError (Scheduler J K)
  | [] => .ok s
  | id :: rest =>
    match s.entryAt id with
    | none => .error (unknownJob id)
    | some e =>
      let s := s.modifyEntry id (fun e => { e with pending := e.pending - 1 })
      notifyAll (if e.pending ≤ 1 then { s with ready := id :: s.ready } else s) rest

/-- Ends a job. -/
def complete [DecidableEq K] (s : Scheduler J K) (id : Nat) : Except PlanError (Scheduler J K) :=
  match s.entryAt id with
  | none => .error (.internal "Unknown job")
  | some e =>
    let s := { s with
      entries := s.entries.set id none
      free := id :: s.free
      active := s.active.erase e.key }
    s.notifyAll e.dependents

/-- Suspends a job until its children have completed. -/
def suspend [DecidableEq K] (sys : JobSystem J K C) (s : Scheduler J K) (id : Nat) (job : J)
    (children : List J) : Except PlanError (Scheduler J K) :=
  match s.entryAt id with
  | none => .error (unknownJob id)
  | some _ =>
    let s := s.modifyEntry id (fun e => { e with job := some job })
    let s := children.foldl (spawn sys (some id)) s
    match s.entryAt id with
    | none => .error (unknownJob id)
    | some e => .ok (if e.pending = 0 then { s with ready := id :: s.ready } else s)

/-- Ends or suspends a job, as its run has come out. -/
def proceed [DecidableEq K] (sys : JobSystem J K C) (s : Scheduler J K) (id : Nat) :
    Step J → Except PlanError (Scheduler J K)
  | .done => s.complete id
  | .spawn job children => s.suspend sys id job children

/-- The job with a number, which is taken out to be run. -/
def take (s : Scheduler J K) (id : Nat) : Except PlanError (J × Scheduler J K) :=
  match s.entryAt id with
  | none => .error (unknownJob id)
  | some e =>
    match e.job with
    | none => .error (.internal "Job is not ready")
    | some job => .ok (job, s.modifyEntry id (fun e => { e with job := none }))

/-- Gives up all jobs, in the order of their numbers. -/
def abandonAll (sys : JobSystem J K C) (s : Scheduler J K) (c : C) : C :=
  (s.entries.filterMap (fun e => e.bind Entry.job)).foldl (fun c job => sys.abandon job c) c

/-- Runs ready jobs until there are none left. `interrupt` is asked before every run of a job, with
the number of runs before. -/
def loop [DecidableEq K] (sys : JobSystem J K C) (interrupt : Nat → C → Except PlanError (Option τ)) :
    Nat → Nat → Scheduler J K → C → Outcome τ × Scheduler J K × C
  | 0, _, s, c => (.outOfFuel, s, c)
  | fuel + 1, runs, s, c =>
    match s.ready with
    | [] =>
      match s.active.rows with
      | [] => (.completed, s, c)
      | left =>
        (.failed (.internal ("Job scheduler deadlock. Jobs left: " ++ toString left.length)), s.clear, c)
    | id :: ready =>
      match interrupt runs c with
      | .error e => (.failed e, s.clear, c)
      | .ok (some reason) => (.interrupted reason, s.clear, s.abandonAll sys c)
      | .ok none =>
        match { s with ready }.take id with
        | .error e => (.failed e, { s with ready }, c)
        | .ok (job, s) =>
          let s := { s with executed := s.executed + 1 }
          match sys.run job c with
          | (.error e, c) => (.failed e, s.clear, c)
          | (.ok step, c) =>
            match s.proceed sys id step with
            | .error e => (.failed e, s, c)
            | .ok s => loop sys interrupt fuel (runs + 1) s c

/-- Runs a job and all jobs it depends on. -/
def run [DecidableEq K] (sys : JobSystem J K C) (interrupt : Nat → C → Except PlanError (Option τ))
    (fuel : Nat) (root : J) (s : Scheduler J K) (c : C) : Outcome τ × Scheduler J K × C :=
  loop sys interrupt fuel 0 (s.spawn sys none root) c

end Scheduler
end Cascade
