import Cascade.Search.Job

/-!
Enforcers. What is placed above a plan are enforcers for what is required, each provides what it derives from the one
below, and the highest provides what is required (`enforce?_eq_some`).
-/

namespace Cascade

/-- The enforcers that can be placed for a requirement. -/
inductive Required.Enforcer (r : Required) : PhysicalOp → Prop
  | selector (scan : ScanId) {column : Option ColumnId}
    (h : ∀ c, column = some c → (scan, c) ∈ r.partition.propagators.entries) :
    r.Enforcer (.partitionSelector scan column)
  | motion {kind : MotionKind} (h : ∀ columns, kind = .redistribute columns → r.distribution.spec = .hashed columns)
    (hmerge : ∀ ordering, kind = .gatherMerge ordering → ordering = r.ordering) : r.Enforcer (.motion kind)
  | sort : r.Enforcer (.sort r.ordering)
  | spool : r.Enforcer .spool

theorem Required.Enforcer.isEnforcer {r : Required} {op : PhysicalOp} (h : r.Enforcer op) : op.isEnforcer = true := by
  cases h <;> rfl

/-- What the highest of some operators provides that are put above a plan. -/
def providedBy (p : Position) (below : Derived) (ops : List PhysicalOp) : Derived :=
  ops.foldl (fun d op => op.derived p [d]) below

/-- Enforcers above a plan, each with what it provides. -/
structure Enforced.Above (x : Enforced) (p : Position) (below : Derived) : Prop where
  enforcers : ∀ op ∈ x.ops, p.required.Enforcer op
  derived_eq : x.derived = providedBy p below x.ops

namespace Enforced.Above

variable {p : Position} {below : Derived} {x : Enforced}

theorem push (h : x.Above p below) {op : PhysicalOp} (hop : p.required.Enforcer op) : (x.push p op).Above p below where
  enforcers := by
    intro o ho
    rcases List.mem_append.1 ho with ho | ho
    · exact h.enforcers o ho
    · rwa [List.mem_singleton.1 ho]
  derived_eq := by
    unfold Enforced.push providedBy
    rw [List.foldl_append, h.derived_eq]
    rfl

theorem pushAll (ops : List PhysicalOp) (hops : ∀ op ∈ ops, p.required.Enforcer op) {x : Enforced}
    (h : x.Above p below) : (ops.foldl (fun (x : Enforced) op => x.push p op) x).Above p below := by
  induction ops generalizing x with
  | nil => exact h
  | cons op ops ih =>
    exact ih (fun o ho => hops o (List.mem_cons_of_mem _ ho)) (h.push (hops op (List.mem_cons_self ..)))

theorem apply (h : x.Above p below) {e : Enforcement} (he : ∀ op, e = .enforce op → p.required.Enforcer op)
    {y : Enforced} (hy : x.apply p e = some y) : y.Above p below := by
  cases e with
  | notNeeded => exact Option.some.inj hy ▸ h
  | enforce op => exact Option.some.inj hy ▸ h.push (he op rfl)
  | prohibited => cases hy

end Enforced.Above

namespace Derived

theorem enforcer_of_enforceDistribution {d : Derived} {r : Required} {e : EquivalenceClasses} {subset : Bool}
    {op : PhysicalOp} (h : d.enforceDistribution r e subset = .enforce op) : r.Enforcer op := by
  unfold enforceDistribution at h
  dsimp only at h
  split at h
  · cases h
  · cases hspec : r.distribution.spec with
    | hashed columns =>
      rw [hspec] at h
      dsimp only at h
      split at h
      · cases h
      · cases h
        refine .motion (fun _ heq => ?_) nofun
        cases heq
        exact hspec
    | _ =>
      rw [hspec] at h
      dsimp only at h
      repeat' split at h
      all_goals cases h
      all_goals first
        | exact .motion nofun fun _ heq => (MotionKind.gatherMerge.inj heq).symm
        | exact .motion nofun nofun

theorem enforcer_of_enforceOrdering {d : Derived} {r : Required} {op : PhysicalOp}
    (h : d.enforceOrdering r = .enforce op) : r.Enforcer op := by
  unfold enforceOrdering at h
  split at h
  · cases h
  · cases h
    exact .sort

theorem enforcer_of_partitionSelectors? {d : Derived} {r : Required} {output : ColumnSet}
    {ops : List PhysicalOp} (h : d.partitionSelectors? r output = some ops) :
    ∀ op ∈ ops, r.Enforcer op := by
  unfold partitionSelectors? at h
  dsimp only at h
  split at h
  · cases h
    intro op hop
    rcases List.mem_append.1 hop with hop | hop
    · obtain ⟨s, -, rfl⟩ := List.mem_map.1 hop
      exact .selector s nofun
    · obtain ⟨s, hs, rfl⟩ := List.mem_map.1 hop
      exact .selector s.1 fun _ hc => Option.some.inj hc ▸ (List.mem_filter.1 hs).1
  · cases h

end Derived

/-- Enforcers are found just if with them the plan meets what its position requires. -/
theorem enforce?_eq_some {p : Position} {below : Derived} {subset : Bool} {x : Enforced}
    (h : p.enforce? below subset = some x) :
    x.Above p below ∧ x.derived.satisfies p.required p.logical.equivalences subset = true := by
  unfold Position.enforce? at h
  simp only [Option.bind_eq_bind] at h
  split at h
  · cases h
  · obtain ⟨selectors, hselectors, h⟩ := Option.bind_eq_some_iff.1 h
    obtain ⟨moved, hmoved, h⟩ := Option.bind_eq_some_iff.1 h
    obtain ⟨sorted, hsorted, h⟩ := Option.bind_eq_some_iff.1 h
    have hstart : (⟨[], below⟩ : Enforced).Above p below := ⟨fun op hop => absurd hop List.not_mem_nil, rfl⟩
    have hselected := hstart.pushAll selectors (Derived.enforcer_of_partitionSelectors? hselectors)
    have hmoved := hselected.apply (fun _ => Derived.enforcer_of_enforceDistribution) hmoved
    have hsorted := hmoved.apply (fun _ => Derived.enforcer_of_enforceOrdering) hsorted
    have hlast : (if sorted.derived.rewindability.satisfies p.required.rewindability then sorted
        else sorted.push p .spool).Above p below := by
      split
      · exact hsorted
      · exact hsorted.push .spool
    generalize (if sorted.derived.rewindability.satisfies p.required.rewindability then sorted
      else sorted.push p .spool) = last at h hlast
    split at h
    · rename_i hmeets
      exact Option.some.inj h ▸ ⟨hlast, hmeets⟩
    · cases h

/-- The steps lead from what one plan provides to what another one does. -/
def Enforces {κ : Type} (p : Position) : Derived → List (EnforcerStep κ) → Derived → Prop
  | below, [], top => top = below
  | below, x :: xs, top => p.required.Enforcer x.op ∧ x.derived = x.op.derived p [below] ∧ Enforces p x.derived xs top

theorem enforces_placeEnforcers {σ κ : Type} (env : SearchEnv σ κ) (p : Position) (statistics : σ)
    (ops : List PhysicalOp) (hops : ∀ op ∈ ops, p.required.Enforcer op) (below : Derived) (cost : κ) :
    Enforces p below (Search.placeEnforcers env p statistics below cost ops) (providedBy p below ops) := by
  induction ops generalizing below cost with
  | nil => rfl
  | cons op ops ih =>
    exact ⟨hops op (List.mem_cons_self ..), rfl, ih (fun o ho => hops o (List.mem_cons_of_mem _ ho)) _ _⟩

end Cascade
