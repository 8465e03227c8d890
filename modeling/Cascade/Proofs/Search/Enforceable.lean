import Cascade.Proofs.Search.Enforcing
import Cascade.Proofs.Search.Partitions

/-!
When a plan can be given what its position requires. Selectors change only the partitions, a motion leaves these, a sort
and a spool leave these and the distribution, so each stage of the enforcers keeps what the stages before it have
provided, and only a selector can be impossible and a motion missing (`Position.enforce?_spec`).
-/

namespace Cascade

namespace PhysicalOp

def isSort : PhysicalOp → Bool
  | sort _ => true
  | _ => false

def isSpool : PhysicalOp → Bool
  | spool => true
  | _ => false

end PhysicalOp

/-- No motion makes rows that can be produced anywhere, and none spreads rows that exist in several copies. -/
def Derived.Unmovable (d : Derived) (r : RequiredDistribution) : Prop :=
  r.spec = .universal ∨
    ((d.distribution = .replicated ∨ d.distribution = .universal) ∧
      ((∃ columns, r.spec = .hashed columns) ∨ r.spec = .random ∨ r.spec = .nonSingleton))

/-- What keeps a plan from being given what its position requires. -/
inductive Position.Unenforceable (p : Position) (d : Derived) (subset : Bool) : Prop
  /-- it reads a common table expression that may not be read -/
  | cte (h : p.required.cte.allows d.cteConsumers = false)
  /-- the column of a selection that is not propagated yet is missing -/
  | propagator (scan : ScanId) (column : ColumnId) (required : (scan, column) ∈ p.required.partition.propagators.entries)
    (new : scan ∉ d.partition.propagated) (missing : column ∉ p.logical.output)
  /-- its rows are not where they are required and no motion brings them there -/
  | motion (unsatisfied : d.distribution.satisfies p.required.distribution p.logical.equivalences subset = false)
    (unmovable : d.Unmovable p.required.distribution)
  /-- no rows do where they are to be moved by no columns -/
  | noColumns (unsatisfied : d.distribution.satisfies p.required.distribution p.logical.equivalences subset = false)
    (required : p.required.distribution = .hashed [])

/-- Selectors, then at most one motion, one sort and one spool. -/
def EnforcersInOrder (ops : List PhysicalOp) : Prop :=
  ∃ (selectors : List (ScanId × Option ColumnId)) (kind : Option MotionKind) (ordering : Option OrderSpec) (spool : Bool),
    ops = selectors.map (fun s => .partitionSelector s.1 s.2) ++ kind.toList.map .motion ++
      ordering.toList.map .sort ++ if spool then [.spool] else []

theorem EnforcersInOrder.countP_le {ops : List PhysicalOp} (h : EnforcersInOrder ops) :
    ops.countP PhysicalOp.isMotion ≤ 1 ∧ ops.countP PhysicalOp.isSort ≤ 1 ∧ ops.countP PhysicalOp.isSpool ≤ 1 := by
  obtain ⟨selectors, kind, ordering, spool, rfl⟩ := h
  have hnone : ∀ q : PhysicalOp → Bool, (∀ s c, q (.partitionSelector s c) = false) →
      (selectors.map (fun s => PhysicalOp.partitionSelector s.1 s.2)).countP q = 0 := by
    intro q hq
    rw [List.countP_map, List.countP_eq_zero]
    exact fun s _ => by simp [hq]
  simp only [List.countP_append, hnone PhysicalOp.isMotion fun _ _ => rfl, hnone PhysicalOp.isSort fun _ _ => rfl,
    hnone PhysicalOp.isSpool fun _ _ => rfl]
  cases kind <;> cases ordering <;> cases spool <;> simp [PhysicalOp.isMotion, PhysicalOp.isSort, PhysicalOp.isSpool]

section

variable {d : Derived} {r : Required} {e : EquivalenceClasses} {subset : Bool} {p : Position} {output : ColumnSet}
  {ops : List PhysicalOp}

theorem Distribution.alignedWith_self (e : EquivalenceClasses) (columns : List ColumnId) :
    alignedWith e columns columns = true := by
  induction columns with
  | nil => rfl
  | cons c columns ih => simpa [alignedWith, EquivalenceClasses.areEquivalent] using ih

theorem Distribution.covered_self (e : EquivalenceClasses) (columns : List ColumnId) :
    covered e columns columns = true :=
  List.all_eq_true.2 fun c hc => List.any_eq_true.2 ⟨c, hc, by simp [EquivalenceClasses.areEquivalent]⟩

/-- Rows that are moved by the required columns are where they are required, if there are columns to compare. -/
theorem Distribution.hashed_satisfies_self (columns : List ColumnId) (matching : HashMatching) :
    (hashed columns).satisfies ⟨.hashed columns, matching⟩ e subset = true ↔
      (⟨.hashed columns, matching⟩ : RequiredDistribution) ≠ .hashed [] := by
  cases matching with
  | exact => exact iff_of_true (alignedWith_self e columns) nofun
  | satisfy => cases columns <;> simp [satisfies, covered_self, RequiredDistribution.hashed]

namespace Derived

theorem enforceDistribution_of_satisfied (h : d.distribution.satisfies r.distribution e subset = true) :
    d.enforceDistribution r e subset = .notNeeded := by
  unfold enforceDistribution
  rw [if_pos h]

theorem enforceDistribution_of_unmovable (h : d.distribution.satisfies r.distribution e subset = false)
    (hmove : d.Unmovable r.distribution) : d.enforceDistribution r e subset = .prohibited := by
  unfold enforceDistribution
  rw [h]
  obtain hspec | ⟨hcopies, hspec⟩ := hmove
  · rw [hspec]
    rfl
  · have hduplicated : d.isDuplicated = true := by simpa [isDuplicated] using hcopies
    obtain ⟨columns, hspec⟩ | hspec | hspec := hspec
    all_goals
      rw [hspec, hduplicated]
      rfl

/-- A motion brings rows to where they are required, unless they are to be moved by no columns. -/
theorem exists_motion (h : d.distribution.satisfies r.distribution e subset = false)
    (hmove : ¬ d.Unmovable r.distribution) :
    ∃ kind, d.enforceDistribution r e subset = .enforce (.motion kind) ∧
      ((ofMotion kind d).distribution.satisfies r.distribution e subset = true ↔ r.distribution ≠ .hashed []) := by
  have hspread : (∃ columns, r.distribution.spec = .hashed columns) ∨ r.distribution.spec = .random ∨
      r.distribution.spec = .nonSingleton → d.isDuplicated = false := by
    refine fun hspec => Bool.eq_false_iff.2 fun hcopies => hmove (.inr ⟨?_, hspec⟩)
    simpa [isDuplicated] using hcopies
  have hcolumns : ∀ {spec}, r.distribution.spec = spec → spec ≠ .hashed [] → r.distribution ≠ .hashed [] := by
    rintro _ rfl hspec hnone
    exact hspec (congrArg RequiredDistribution.spec hnone)
  unfold enforceDistribution
  rw [if_neg (Bool.eq_false_iff.1 h)]
  cases hspec : r.distribution.spec with
  | any => simp [Distribution.satisfies, hspec] at h
  | universal => exact absurd (.inl hspec) hmove
  | singleton | strictSingleton =>
    dsimp only
    split <;> refine ⟨_, rfl, iff_of_true ?_ (hcolumns hspec nofun)⟩ <;> simp [Distribution.satisfies, hspec, ofMotion]
  | replicated =>
    refine ⟨_, rfl, iff_of_true ?_ (hcolumns hspec nofun)⟩
    simp [Distribution.satisfies, hspec, ofMotion]
  | hashed columns =>
    rw [hspread (.inl ⟨columns, hspec⟩)]
    have hr : r.distribution = ⟨.hashed columns, r.distribution.matching⟩ := by rw [← hspec]
    rw [hr]
    exact ⟨_, rfl, Distribution.hashed_satisfies_self columns _⟩
  | random | nonSingleton =>
    rw [hspread (by simp [hspec])]
    refine ⟨_, rfl, iff_of_true ?_ (hcolumns hspec nofun)⟩
    simp [Distribution.satisfies, hspec, ofMotion]

theorem partitionSelectors?_eq_none_iff : d.partitionSelectors? r output = none ↔
    ∃ scan column, (scan, column) ∈ r.partition.propagators.entries ∧ scan ∉ d.partition.propagated ∧ column ∉ output := by
  unfold partitionSelectors?
  simp

/-- Nothing is selected where the partitions are as required. -/
theorem partitionSelectors?_of_satisfied (h : d.partition.satisfies r.partition = true) :
    d.partitionSelectors? r output = some [] := by
  obtain ⟨hopen, hpropagated⟩ := PartitionInfo.satisfies_iff.1 h
  have hstatic : (d.partition.unresolved \ r.partition.allowedUnresolved).toList = [] := by
    refine List.eq_nil_iff_forall_not_mem.2 fun s hs => ?_
    obtain ⟨hs, hnot⟩ := SortedSet.mem_diff.1 hs
    exact hnot (hopen s hs)
  have hmissing : r.partition.propagators.entries.filter (fun x => !decide (x.1 ∈ d.partition.propagated)) = [] := by
    refine List.filter_eq_nil_iff.2 fun x hx => ?_
    simpa using hpropagated x.1 (List.mem_map_of_mem hx)
  unfold partitionSelectors?
  simp [hstatic, hmissing]

theorem exists_partition_of_selectors (hops : ∀ op ∈ ops, ∃ scan column, op = .partitionSelector scan column)
    (d : Derived) : ∃ q, providedBy p d ops = { d with partition := q } ∧
      (∀ s ∈ q.unresolved, s ∈ d.partition.unresolved ∧ .partitionSelector s none ∉ ops) ∧
      ∀ s, s ∈ d.partition.propagated ∨ (∃ c, .partitionSelector s (some c) ∈ ops) → s ∈ q.propagated := by
  induction ops generalizing d with
  | nil => exact ⟨d.partition, rfl, fun s hs => ⟨hs, List.not_mem_nil⟩, fun s hs => hs.elim id nofun⟩
  | cons op ops ih =>
    obtain ⟨⟨scan, column, rfl⟩, hrest⟩ := List.forall_mem_cons.1 hops
    obtain ⟨q, hq, hopen, hpropagated⟩ := ih hrest (ofPartitionSelector scan column d)
    refine ⟨q, hq, fun s hs => ?_, fun s hs => hpropagated s ?_⟩
    · obtain ⟨hs, hnot⟩ := hopen s hs
      cases column with
      | some c => exact ⟨hs, fun hmem => hnot (by simpa using hmem)⟩
      | none =>
        obtain ⟨hs, hne⟩ := SortedSet.mem_filter.1 hs
        refine ⟨hs, fun hmem => ?_⟩
        obtain heq | hmem := List.mem_cons.1 hmem
        · cases heq
          simp at hne
        · exact hnot hmem
    · cases column with
      | none => exact hs.imp_right fun ⟨c, hc⟩ => ⟨c, by simpa using hc⟩
      | some c =>
        obtain hs | ⟨c', hs⟩ := hs
        · exact .inl (SortedSet.mem_insert.2 (.inr hs))
        · obtain heq | hs := List.mem_cons.1 hs
          · cases heq
            exact .inl (SortedSet.mem_insert.2 (.inl rfl))
          · exact .inr ⟨c', hs⟩

theorem eq_of_partitionSelectors? (h : d.partitionSelectors? r output = some ops) :
    ops = (d.partition.unresolved \ r.partition.allowedUnresolved).toList.map (fun s => .partitionSelector s none) ++
      (r.partition.propagators.entries.filter (fun x => !decide (x.1 ∈ d.partition.propagated))).map
        (fun x => .partitionSelector x.1 (some x.2)) := by
  unfold partitionSelectors? at h
  dsimp only at h
  split at h
  · exact (Option.some.inj h).symm
  · cases h

theorem exists_selectors (h : d.partitionSelectors? r output = some ops) :
    ∃ selectors : List (ScanId × Option ColumnId), ops = selectors.map (fun s => .partitionSelector s.1 s.2) := by
  rw [eq_of_partitionSelectors? h]
  refine ⟨(d.partition.unresolved \ r.partition.allowedUnresolved).toList.map (fun s => (s, none)) ++
    (r.partition.propagators.entries.filter (fun x => !decide (x.1 ∈ d.partition.propagated))).map
      (fun x => (x.1, some x.2)), ?_⟩
  simp only [List.map_append, List.map_map, Function.comp_def]

/-- The selectors make the partitions what is required and change nothing else. -/
theorem partition_of_selectors (h : d.partitionSelectors? r output = some ops) :
    ∃ q, providedBy p d ops = { d with partition := q } ∧ q.satisfies r.partition = true := by
  obtain ⟨selectors, heq⟩ := exists_selectors h
  have hops : ∀ op ∈ ops, ∃ scan column, op = .partitionSelector scan column := by
    rw [heq, List.forall_mem_map]
    exact fun s _ => ⟨s.1, s.2, rfl⟩
  obtain ⟨q, hq, hopen, hpropagated⟩ := exists_partition_of_selectors (p := p) hops d
  have hplaced := eq_of_partitionSelectors? h
  refine ⟨q, hq, PartitionInfo.satisfies_iff.2 ⟨fun s hs => ?_, fun s hs => hpropagated s ?_⟩⟩
  · obtain ⟨hs, hnot⟩ := hopen s hs
    by_contra hallowed
    rw [hplaced] at hnot
    exact hnot (List.mem_append_left _ (List.mem_map_of_mem (SortedSet.mem_diff.2 ⟨hs, hallowed⟩)))
  · obtain ⟨x, hx, rfl⟩ := List.mem_map.1 hs
    by_cases hold : x.1 ∈ d.partition.propagated
    · exact .inl hold
    · have hmissing : x ∈ r.partition.propagators.entries.filter (fun x => !decide (x.1 ∈ d.partition.propagated)) :=
        List.mem_filter.2 ⟨hx, by simpa using hold⟩
      rw [hplaced]
      exact .inr ⟨x.2, List.mem_append_right _ (List.mem_map.2 ⟨x, hmissing, rfl⟩)⟩

theorem satisfies_iff : d.satisfies r e subset = true ↔
    d.ordering.satisfies r.ordering = true ∧ d.distribution.satisfies r.distribution e subset = true ∧
      d.rewindability.satisfies r.rewindability = true ∧ d.partition.satisfies r.partition = true ∧
      r.cte.allows d.cteConsumers = true := by
  unfold satisfies
  simp only [Bool.and_eq_true, and_assoc]

end Derived

theorem OrderSpec.satisfies_self (o : OrderSpec) : o.satisfies o = true :=
  List.isPrefixOf_iff_prefix.2 List.prefix_rfl

theorem Rewindability.rewindable_satisfies (r : Rewindability) : rewindable.satisfies r = true := by
  cases r <;> rfl

namespace Enforced

theorem pushAll_eq (ops : List PhysicalOp) (x : Enforced) :
    ops.foldl (fun (x : Enforced) op => x.push p op) x = ⟨x.ops ++ ops, providedBy p x.derived ops⟩ := by
  induction ops generalizing x with
  | nil => rw [List.append_nil]; rfl
  | cons op ops ih =>
    rw [List.foldl_cons, ih, push, List.append_assoc]
    rfl

/-- The sort above the others, where it is needed. -/
def sorted (x : Enforced) (p : Position) : Enforced :=
  if x.derived.ordering.satisfies p.required.ordering then x else x.push p (.sort p.required.ordering)

/-- The spool above the others, where it is needed. -/
def spooled (x : Enforced) (p : Position) : Enforced :=
  if x.derived.rewindability.satisfies p.required.rewindability then x else x.push p .spool

theorem sorted_ops (x : Enforced) (p : Position) :
    ∃ ordering : Option OrderSpec, (x.sorted p).ops = x.ops ++ ordering.toList.map .sort := by
  unfold sorted
  split
  · exact ⟨none, (List.append_nil _).symm⟩
  · exact ⟨some p.required.ordering, rfl⟩

theorem spooled_ops (x : Enforced) (p : Position) :
    ∃ spool : Bool, (x.spooled p).ops = x.ops ++ if spool then [.spool] else [] := by
  unfold spooled
  split
  · exact ⟨false, (List.append_nil _).symm⟩
  · exact ⟨true, rfl⟩

/-- A sort, where it is needed, provides the order and keeps all that does not concern the order of rows. -/
theorem sorted_derived (x : Enforced) (p : Position) :
    (x.sorted p).derived.ordering.satisfies p.required.ordering = true ∧
      (x.sorted p).derived.distribution = x.derived.distribution ∧ (x.sorted p).derived.partition = x.derived.partition ∧
      (x.sorted p).derived.cteConsumers = x.derived.cteConsumers := by
  unfold sorted
  split
  · exact ⟨‹_›, rfl, rfl, rfl⟩
  · exact ⟨p.required.ordering.satisfies_self, rfl, rfl, rfl⟩

/-- A spool, where it is needed, lets the rows be read again and keeps the rest. -/
theorem spooled_derived (x : Enforced) (p : Position) :
    (x.spooled p).derived.rewindability.satisfies p.required.rewindability = true ∧
      (x.spooled p).derived.ordering = x.derived.ordering ∧
      (x.spooled p).derived.distribution = x.derived.distribution ∧
      (x.spooled p).derived.partition = x.derived.partition ∧
      (x.spooled p).derived.cteConsumers = x.derived.cteConsumers := by
  unfold spooled
  split
  · exact ⟨‹_›, rfl, rfl, rfl, rfl⟩
  · exact ⟨p.required.rewindability.rewindable_satisfies, rfl, rfl, rfl, rfl⟩

/-- With a sort and a spool, where they are needed, only what they keep can be missing. -/
theorem finished_satisfies_iff (x : Enforced) :
    ((x.sorted p).spooled p).derived.satisfies p.required e subset = true ↔
      x.derived.distribution.satisfies p.required.distribution e subset = true ∧
      x.derived.partition.satisfies p.required.partition = true ∧
      p.required.cte.allows x.derived.cteConsumers = true := by
  obtain ⟨hordering, hdistribution, hpartition, hcte⟩ := x.sorted_derived p
  obtain ⟨hrewindability, hordering', hdistribution', hpartition', hcte'⟩ := (x.sorted p).spooled_derived p
  rw [Derived.satisfies_iff, hordering', hdistribution', hpartition', hcte', hdistribution, hpartition, hcte]
  exact ⟨fun ⟨_, hd, _, hp, hc⟩ => ⟨hd, hp, hc⟩, fun ⟨hd, hp, hc⟩ => ⟨hordering, hd, hrewindability, hp, hc⟩⟩

theorem finished_of_satisfied {x : Enforced} (h : x.derived.satisfies p.required e subset = true) :
    (x.sorted p).spooled p = x := by
  obtain ⟨hordering, -, hrewindability, -⟩ := Derived.satisfies_iff.1 h
  unfold sorted
  rw [if_pos hordering]
  unfold spooled
  rw [if_pos hrewindability]

theorem apply_enforceOrdering (x : Enforced) (p : Position) :
    x.apply p (x.derived.enforceOrdering p.required) = some (x.sorted p) := by
  unfold Derived.enforceOrdering sorted
  split <;> rfl

end Enforced

namespace Position

/-- The sort and the spool come above a motion, and this above the selectors. -/
theorem enforce?_eq (hcte : p.required.cte.allows d.cteConsumers = true)
    (hselectors : d.partitionSelectors? p.required p.logical.output = some ops) (subset : Bool) :
    p.enforce? d subset = ((⟨ops, providedBy p d ops⟩ : Enforced).apply p
      ((providedBy p d ops).enforceDistribution p.required p.logical.equivalences subset)).bind (fun x =>
        if ((x.sorted p).spooled p).derived.satisfies p.required p.logical.equivalences subset then
          some ((x.sorted p).spooled p)
        else none) := by
  unfold enforce?
  rw [if_neg (by simp [hcte]), hselectors]
  simp only [Option.bind_eq_bind, Option.bind_some, Enforced.pushAll_eq, List.nil_append, Enforced.apply_enforceOrdering]
  rfl

/-- A motion, where one is placed, stands above the selectors and below a sort and a spool. -/
theorem enforcersInOrder_finished (hselectors : d.partitionSelectors? r output = some ops) (p : Position)
    (kind : Option MotionKind) (top : Derived) :
    EnforcersInOrder (((⟨ops ++ kind.toList.map .motion, top⟩ : Enforced).sorted p).spooled p).ops := by
  obtain ⟨selectors, hops⟩ := Derived.exists_selectors hselectors
  obtain ⟨ordering, hsorted⟩ := Enforced.sorted_ops ⟨ops ++ kind.toList.map .motion, top⟩ p
  obtain ⟨spool, hspooled⟩ := Enforced.spooled_ops (Enforced.sorted ⟨ops ++ kind.toList.map .motion, top⟩ p) p
  exact ⟨selectors, kind, ordering, spool, by rw [hspooled, hsorted, hops]⟩

/-- Where selectors can be placed, only a motion can be missing. -/
theorem not_unenforceable (hcte : p.required.cte.allows d.cteConsumers = true)
    (hselectors : d.partitionSelectors? p.required p.logical.output = some ops)
    (hmotion : d.distribution.satisfies p.required.distribution p.logical.equivalences subset = false →
      ¬ d.Unmovable p.required.distribution ∧ p.required.distribution ≠ .hashed []) : ¬ p.Unenforceable d subset := by
  rintro (hforbidden | ⟨scan, column, hrequired, hnew, hmissing⟩ | ⟨hnot, hmove⟩ | ⟨hnot, hnone⟩)
  · cases hcte.symm.trans hforbidden
  · have hnone := Derived.partitionSelectors?_eq_none_iff.2 ⟨scan, column, hrequired, hnew, hmissing⟩
    cases hselectors.symm.trans hnone
  · exact (hmotion hnot).1 hmove
  · exact (hmotion hnot).2 hnone

/-- Above the selectors only the motion can be impossible or fail. -/
theorem enforce?_cases_of_selectors (hcte : p.required.cte.allows d.cteConsumers = true)
    (hselectors : d.partitionSelectors? p.required p.logical.output = some ops) (subset : Bool) :
    (p.enforce? d subset = none ∧ p.Unenforceable d subset) ∨
      ∃ x, p.enforce? d subset = some x ∧ EnforcersInOrder x.ops ∧ ¬ p.Unenforceable d subset := by
  obtain ⟨q, hq, hpartition⟩ := Derived.partition_of_selectors (p := p) hselectors
  have hordered := enforcersInOrder_finished hselectors p
  have hpossible := @not_unenforceable d subset p ops hcte hselectors
  rw [enforce?_eq hcte hselectors, hq]
  cases hsatisfied : d.distribution.satisfies p.required.distribution p.logical.equivalences subset with
  | true =>
    have hfinished := (Enforced.finished_satisfies_iff (p := p) ⟨ops, { d with partition := q }⟩).2
      ⟨hsatisfied, hpartition, hcte⟩
    rw [Derived.enforceDistribution_of_satisfied (d := { d with partition := q }) hsatisfied]
    refine .inr ⟨_, if_pos hfinished, List.append_nil ops ▸ hordered none _, hpossible fun hnot => ?_⟩
    cases hsatisfied.symm.trans hnot
  | false =>
    by_cases hmove : d.Unmovable p.required.distribution
    · rw [Derived.enforceDistribution_of_unmovable (d := { d with partition := q }) hsatisfied hmove]
      exact .inl ⟨rfl, .motion hsatisfied hmove⟩
    obtain ⟨kind, hkind, hmoved⟩ := Derived.exists_motion (d := { d with partition := q }) hsatisfied hmove
    have hkept : ∀ kind (top : Derived), (Derived.ofMotion kind top).partition = top.partition ∧
        (Derived.ofMotion kind top).cteConsumers = top.cteConsumers := by
      rintro (_ | _ | _ | _ | _) top <;> exact ⟨rfl, rfl⟩
    obtain ⟨hpartition', hcte'⟩ := hkept kind { d with partition := q }
    have hfinished := @Enforced.finished_satisfies_iff p.logical.equivalences subset p
      ((⟨ops, { d with partition := q }⟩ : Enforced).push p (.motion kind))
    rw [hkind]
    by_cases hnone : p.required.distribution = .hashed []
    · refine .inl ⟨if_neg fun h => ?_, .noColumns hsatisfied hnone⟩
      exact hmoved.1 (hfinished.1 h).1 hnone
    · refine .inr ⟨_, if_pos (hfinished.2 ⟨hmoved.2 hnone, ?_, ?_⟩), hordered (some kind) _, hpossible fun _ => ⟨hmove, hnone⟩⟩
      · exact hpartition'.symm ▸ hpartition
      · exact hcte'.symm ▸ hcte

/-- Enforcers are placed stage by stage, unless a stage is impossible. -/
theorem enforce?_cases (p : Position) (d : Derived) (subset : Bool) :
    (p.enforce? d subset = none ∧ p.Unenforceable d subset) ∨
      ∃ x, p.enforce? d subset = some x ∧ EnforcersInOrder x.ops ∧ ¬ p.Unenforceable d subset := by
  cases hcte : p.required.cte.allows d.cteConsumers with
  | false =>
    refine .inl ⟨?_, .cte hcte⟩
    unfold enforce?
    rw [if_pos (by simp [hcte])]
    rfl
  | true =>
    cases hselectors : d.partitionSelectors? p.required p.logical.output with
    | none =>
      obtain ⟨scan, column, hrequired, hnew, hmissing⟩ := Derived.partitionSelectors?_eq_none_iff.1 hselectors
      refine .inl ⟨?_, .propagator scan column hrequired hnew hmissing⟩
      unfold enforce?
      rw [if_neg (by simp [hcte]), hselectors]
      rfl
    | some ops => exact enforce?_cases_of_selectors hcte hselectors subset

/-- Nothing is placed above a plan that has what is required. -/
theorem enforce?_of_satisfied (h : d.satisfies p.required p.logical.equivalences subset = true) :
    p.enforce? d subset = some ⟨[], d⟩ := by
  obtain ⟨-, hdistribution, -, hpartition, hcte⟩ := Derived.satisfies_iff.1 h
  have hself : (((⟨[], d⟩ : Enforced).sorted p).spooled p) = ⟨[], d⟩ := Enforced.finished_of_satisfied h
  rw [enforce?_eq hcte (Derived.partitionSelectors?_of_satisfied hpartition)]
  change ((⟨[], d⟩ : Enforced).apply p (d.enforceDistribution _ _ _)).bind _ = _
  rw [Derived.enforceDistribution_of_satisfied hdistribution]
  change (if ((⟨[], d⟩ : Enforced).sorted p |>.spooled p).derived.satisfies _ _ _ then _ else _) = _
  rw [hself, if_pos h]

/-- Enforcers provide what is required, one of a kind at most and none without need, and they are placed unless a common
table expression, a column or a motion is missing. -/
theorem enforce?_spec (p : Position) (d : Derived) (subset : Bool) :
    (∀ x, p.enforce? d subset = some x →
      x.derived = providedBy p d x.ops ∧ x.derived.satisfies p.required p.logical.equivalences subset = true ∧
      (x.ops.countP PhysicalOp.isMotion ≤ 1 ∧ x.ops.countP PhysicalOp.isSort ≤ 1 ∧ x.ops.countP PhysicalOp.isSpool ≤ 1) ∧
      (x.ops = [] ↔ d.satisfies p.required p.logical.equivalences subset = true)) ∧
    (p.enforce? d subset = none ↔ p.Unenforceable d subset) := by
  obtain ⟨hnone, himpossible⟩ | ⟨x, hsome, hstaged, hpossible⟩ := enforce?_cases p d subset
  · exact ⟨fun x hx => (nomatch hnone.symm.trans hx), iff_of_true hnone himpossible⟩
  · refine ⟨fun y hy => ?_, iff_of_false (fun hnone => (nomatch hnone.symm.trans hsome)) hpossible⟩
    obtain rfl : x = y := Option.some.inj (hsome.symm.trans hy)
    obtain ⟨habove, hmeets⟩ := enforce?_eq_some hsome
    refine ⟨habove.derived_eq, hmeets, hstaged.countP_le, fun hops => ?_, fun hsatisfied => ?_⟩
    · rw [habove.derived_eq, hops] at hmeets
      exact hmeets
    · rw [← Option.some.inj ((enforce?_of_satisfied hsatisfied).symm.trans hsome)]

/-- Sales as a report wants them: on one node, by year, to be read again. -/
def report : Position :=
  ⟨{ Required.none with
      ordering := .ascending [1], distribution := .singleton, rewindability := .rewindable
      partition := ⟨∅, .ofList [(7, 1)]⟩ },
    { LogicalProperties.empty with output := .ofList [1, 2] }, []⟩

/-- Sales by region, the partitions of which nothing has selected yet. -/
def regional : Derived := { Derived.ofDistribution (.hashed [2]) with partition := ⟨.ofList [3], ∅⟩ }

/-- Sales by region are gathered and sorted for a report; sales that can be produced anywhere are not spread again. -/
theorem enforce?_spec_report :
    (∃ x, report.enforce? regional false = some x ∧
      x.ops = [.partitionSelector 3 none, .partitionSelector 7 (some 1), .motion .gather, .sort (.ascending [1])] ∧
      x.derived = providedBy report regional x.ops ∧
      x.derived.satisfies report.required report.logical.equivalences false = true) ∧
    ({ report with required.distribution := .nonSingleton } : Position).enforce? (.ofSource .universal) false = none := by
  constructor
  · have hsome : report.enforce? regional false = some
        ⟨[.partitionSelector 3 none, .partitionSelector 7 (some 1), .motion .gather, .sort (.ascending [1])],
          ⟨.ascending [1], .strictSingleton, .rewindable, ⟨∅, .ofList [7]⟩, ∅⟩⟩ := rfl
    obtain ⟨hderived, hmeets, -⟩ := (enforce?_spec report regional false).1 _ hsome
    exact ⟨_, hsome, rfl, hderived, hmeets⟩
  · exact (enforce?_spec _ (.ofSource .universal) false).2.2 (.motion rfl (.inr ⟨.inr rfl, .inr (.inr rfl)⟩))

end Position

end

end Cascade
