import Cascade.Derivation.Physical

/-!
What an operator with several inputs promises of the distribution of its rows. Rows can be promised on one node or as a
copy on every segment, and a join can promise only what all it reads provides (`Distribution.Backed`). Joins of two
inputs do, but for a right outer hash join whose inner rows can be produced anywhere
(`PhysicalOp.join_backed_iff`). An index join does unless the outer rows can be produced anywhere, or are on one node
or on every segment, and those of the table are not (`PhysicalOp.indexJoin_backed_iff`). Inputs that are appended to each
other stay on one node or spread across the segments, unless the rows of one among several can be produced anywhere
(`PhysicalOp.append_gathered_iff`).
-/

namespace Cascade

namespace Distribution

/-- Whether all rows can be had on one node. -/
def onOneNode : Distribution → Bool
  | singleton | strictSingleton | universal => true
  | _ => false

/-- Whether all rows can be had on every segment. -/
def everywhere : Distribution → Bool
  | replicated | universal => true
  | _ => false

/-- A distribution promises no more than others provide: where it will do for rows that have to be on one node, or
on every segment, so do they. -/
def Backed (d : Distribution) (sources : List Distribution) : Prop :=
  ∀ required : RequiredDistribution, required.spec = .replicated ∨ required.spec = .singleton →
    ∀ (e : EquivalenceClasses) (subset : Bool), d.satisfies required e subset = true →
      ∀ s ∈ sources, s.satisfies required e subset = true

/-- Inner rows are where a join needs them: on the node of outer rows that are all on one, and on every segment if those
are. -/
structure Beside (inner outer : Distribution) : Prop where
  single : outer.isSingleton = true → inner.onOneNode = true
  copied : outer = .replicated → inner.everywhere = true

/-- Where looking up rows of a table is said to leave them where the table has them otherwise: the outer rows can be
produced anywhere and those of the table cannot, they are on one node and the table is copied to the segments, or they
are copied and those of the table can be produced anywhere. -/
def Oversteps (outer table : Distribution) : Prop :=
  (outer = .universal ∧ table ≠ .universal) ∨ (outer.isSingleton = true ∧ table = .replicated) ∨
  (outer = .replicated ∧ table = .universal)

section

variable {d outer inner table : Distribution} {required : RequiredDistribution} {e : EquivalenceClasses} {subset : Bool}

theorem satisfies_singleton (h : required.spec = .singleton) : d.satisfies required e subset = d.onOneNode := by
  cases d <;> simp [satisfies, onOneNode, h]

theorem satisfies_replicated (h : required.spec = .replicated) : d.satisfies required e subset = d.everywhere := by
  cases d <;> simp [satisfies, everywhere, h]

theorem ne_replicated_of_satisfies (hspec : required.spec = .singleton) (h : d.satisfies required e subset = true) :
    d ≠ .replicated := by
  rintro rfl
  cases (satisfies_singleton hspec).symm.trans h

theorem eq_hashed_of_satisfies {columns : List ColumnId} (hspec : required.spec = .hashed columns)
    (h : d.satisfies required e subset = true) : ∃ hash, d = .hashed hash := by
  cases d with
  | hashed hash => exact ⟨hash, rfl⟩
  | _ => simp [satisfies, hspec] at h

theorem onOneNode_of_isSingleton (h : d.isSingleton = true) : d.onOneNode = true := by
  cases d <;> first | rfl | cases h

theorem backed_iff {sources : List Distribution} : d.Backed sources ↔
    (d.onOneNode = true → ∀ s ∈ sources, s.onOneNode = true) ∧
    (d.everywhere = true → ∀ s ∈ sources, s.everywhere = true) := by
  constructor
  · have hone : RequiredDistribution.singleton.spec = .singleton := rfl
    have hall : RequiredDistribution.replicated.spec = .replicated := rfl
    intro h
    constructor
    · simpa only [satisfies_singleton hone] using h .singleton (.inr hone) .none false
    · simpa only [satisfies_replicated hall] using h .replicated (.inl hall) .none false
  · rintro ⟨hone, hall⟩ required (hspec | hspec) e subset
    · simpa only [satisfies_replicated hspec] using hall
    · simpa only [satisfies_singleton hspec] using hone

theorem beside_of_singleton (hspec : required.spec = .singleton) (houter : outer ≠ .replicated)
    (h : inner.satisfies required e subset = true) : inner.Beside outer :=
  ⟨fun _ => (satisfies_singleton hspec).symm.trans h, fun hall => absurd hall houter⟩

theorem beside_of_replicated (hspec : required.spec = .replicated) (houter : ¬ outer.isSingleton = true)
    (h : inner.satisfies required e subset = true) : inner.Beside outer :=
  ⟨fun hsingle => absurd hsingle houter, fun _ => (satisfies_replicated hspec).symm.trans h⟩

theorem beside_hashed (inner : Distribution) (hash : List ColumnId) : inner.Beside (.hashed hash) :=
  ⟨fun h => (nomatch h), fun h => (nomatch h)⟩

/-- A join that keeps the outer distribution, unless that is universal, promises no more than its inputs. -/
theorem Beside.backed (h : inner.Beside outer) :
    (if outer = .universal then inner else outer).Backed [outer, inner] := by
  obtain ⟨hone, hall⟩ := h
  rw [backed_iff]
  cases outer <;> simp_all [onOneNode, everywhere, isSingleton]

/-- Of two inputs on one node the second one promises more just if its rows can be produced on any node and those of
the first one cannot. -/
theorem backed_inner_iff (houter : outer.onOneNode = true) (hinner : inner.onOneNode = true) :
    inner.Backed [outer, inner] ↔ ¬ (outer.isSingleton = true ∧ inner = .universal) := by
  rw [backed_iff]
  cases outer <;> cases inner <;> simp_all [onOneNode, everywhere, isSingleton]

/-- A look-up in a table keeps the outer distribution, or takes that of the table if the outer rows are copied. -/
theorem backed_lookup_iff (hone : outer.isSingleton = true → table = .replicated ∨ table.onOneNode = true)
    (hall : outer = .replicated → table.isSingleton = false) :
    (if outer = .replicated then table else outer).Backed [outer, table] ↔ ¬ outer.Oversteps table := by
  rw [backed_iff, Oversteps]
  cases outer <;> cases table <;> simp_all [onOneNode, everywhere, isSingleton]

end

end Distribution

section

variable {p : Position} {request : Nat} {outer inner : Derived} {asked : Required}

/-- A join keeps the distribution of its outer input, unless that is universal. -/
theorem Derived.ofJoin_distribution (outer inner : Derived) : (ofJoin [outer, inner]).distribution =
    if outer.distribution = .universal then inner.distribution else outer.distribution := by
  unfold ofJoin gathered ofDistribution
  rw [List.getElem?_cons_zero, Option.map_some, Option.getD_some]
  cases outer.distribution <;> rfl

namespace HashJoin

variable {j : HashJoin}

theorem outerDistribution_of_requiredInput
    (h : (PhysicalOp.hashJoin j).requiredInput p request 0 [] = some asked) :
    j.outerDistribution request = some asked.distribution := by
  obtain ⟨_, -, h⟩ := Option.bind_eq_some_iff.1 h
  obtain ⟨_, -, h⟩ := Option.bind_eq_some_iff.1 h
  obtain ⟨_, -, h⟩ := Option.bind_eq_some_iff.1 h
  rw [if_pos rfl] at h
  obtain ⟨wanted, hwanted, h⟩ := Option.bind_eq_some_iff.1 h
  rw [hwanted, ← Option.some.inj h]

theorem innerDistribution_of_requiredInput
    (h : (PhysicalOp.hashJoin j).requiredInput p request 1 [outer] = some asked) :
    ∃ e, j.innerDistribution e request outer.distribution = some asked.distribution := by
  obtain ⟨_, -, h⟩ := Option.bind_eq_some_iff.1 h
  obtain ⟨left, -, h⟩ := Option.bind_eq_some_iff.1 h
  obtain ⟨_, -, h⟩ := Option.bind_eq_some_iff.1 h
  rw [if_neg Nat.one_ne_zero] at h
  obtain ⟨_, hhead, h⟩ := Option.bind_eq_some_iff.1 h
  obtain ⟨wanted, hwanted, h⟩ := Option.bind_eq_some_iff.1 h
  rw [← Option.some.inj hhead] at hwanted
  exact ⟨left.equivalences, hwanted.trans (congrArg _ (congrArg Required.distribution (Option.some.inj h)))⟩

theorem outerDistribution_cases {wanted : RequiredDistribution} (h : j.outerDistribution request = some wanted) :
    (request = 0 ∧ wanted.spec = .hashed j.leftKeys) ∨ (request = 1 ∧ j.type ≠ .rightOuter) ∨
    (request = 2 ∧ wanted.spec = .singleton) := by
  unfold outerDistribution at h
  split at h
  · split at h
    · cases h
    · exact .inl ⟨rfl, Option.some.inj h ▸ rfl⟩
  · split at h
    · cases h
    · exact .inr (.inl ⟨rfl, ‹_›⟩)
  · exact .inr (.inr ⟨rfl, Option.some.inj h ▸ rfl⟩)
  · cases h

/-- The inner input is brought to the one node of the outer one, moved by hash as that one is, or copied. -/
theorem innerDistribution_cases {e : EquivalenceClasses} {outer : Distribution} {wanted : RequiredDistribution}
    (h : j.innerDistribution e request outer = some wanted) :
    (wanted.spec = .singleton ∧ (request = 2 ∨ outer.isSingleton = true)) ∨
    ((∃ hash, outer = .hashed hash) ∧ ∃ columns, wanted.spec = .hashed columns) ∨
    (wanted.spec = .replicated ∧ ¬ outer.isSingleton = true ∧ j.type ≠ .rightOuter) := by
  unfold innerDistribution at h
  split at h
  · rename_i hcopied
    obtain ⟨-, htype, hsingle⟩ := hcopied
    refine .inr (.inr ⟨Option.some.inj h ▸ rfl, by simpa using hsingle, ?_⟩)
    rw [htype]
    decide
  · split at h
    · split at h
      · exact .inr (.inl ⟨⟨_, rfl⟩, _, (congrArg RequiredDistribution.spec (Option.some.inj h)).symm⟩)
      · split at h
        · rename_i hsingle
          exact .inl ⟨Option.some.inj h ▸ rfl, .inr hsingle⟩
        · rename_i hsingle
          split at h
          · cases h
          · rename_i htype
            exact .inr (.inr ⟨Option.some.inj h ▸ rfl, hsingle, htype⟩)
    · split at h
      · cases h
      · rename_i htype
        split at h
        · rename_i hsingle
          exact .inl ⟨Option.some.inj h ▸ rfl, .inr hsingle⟩
        · rename_i hsingle
          exact .inr (.inr ⟨Option.some.inj h ▸ rfl, hsingle, htype⟩)
    · exact .inl ⟨Option.some.inj h ▸ rfl, .inl rfl⟩
    · cases h

variable {wanted wantedInner : RequiredDistribution} {e f g : EquivalenceClasses} {subset subset' : Bool}
  {outer inner : Distribution}

/-- A request brings the inner rows to where the outer ones are. -/
theorem beside_of_asked (hwanted : j.outerDistribution request = some wanted)
    (houter : outer.satisfies wanted e subset = true)
    (hwantedInner : j.innerDistribution f request outer = some wantedInner)
    (hinner : inner.satisfies wantedInner g subset' = true) : inner.Beside outer := by
  rcases innerDistribution_cases hwantedInner with ⟨hspec, hsingle⟩ | ⟨⟨hash, rfl⟩, -⟩ | ⟨hspec, hsingle, -⟩
  · refine Distribution.beside_of_singleton hspec ?_ hinner
    rintro rfl
    -- the last request brings the outer rows to one node as well
    obtain rfl := hsingle.resolve_right (by decide)
    rcases outerDistribution_cases hwanted with ⟨h, -⟩ | ⟨h, -⟩ | ⟨-, hone⟩
    · cases h
    · cases h
    · exact Distribution.ne_replicated_of_satisfies hone houter rfl
  · exact Distribution.beside_hashed inner hash
  · exact Distribution.beside_of_replicated hspec hsingle hinner

/-- The inputs of a right outer join are moved by hash or brought to one node. -/
theorem inputs_of_rightOuter (htype : j.type = .rightOuter) (hwanted : j.outerDistribution request = some wanted)
    (houter : outer.satisfies wanted e subset = true)
    (hwantedInner : j.innerDistribution f request outer = some wantedInner)
    (hinner : inner.satisfies wantedInner g subset' = true) :
    ((∃ hash, outer = .hashed hash) ∧ ∃ hash, inner = .hashed hash) ∨
    (outer.onOneNode = true ∧ inner.onOneNode = true) := by
  rcases innerDistribution_cases hwantedInner with ⟨hspec, hsingle⟩ | ⟨hhash, columns, hspec⟩ | ⟨-, -, hnot⟩
  · rw [Distribution.satisfies_singleton hspec] at hinner
    refine .inr ⟨?_, hinner⟩
    rcases outerDistribution_cases hwanted with ⟨rfl, -⟩ | ⟨-, hnot⟩ | ⟨-, hone⟩
    · exact Distribution.onOneNode_of_isSingleton (hsingle.resolve_left (by decide))
    · exact absurd htype hnot
    · rwa [Distribution.satisfies_singleton hone] at houter
  · exact .inl ⟨hhash, Distribution.eq_hashed_of_satisfies hspec hinner⟩
  · exact absurd htype hnot

/-- The distribution of a hash join; that of the inner input if all its rows are kept. -/
theorem derived_distribution (j : HashJoin) (p : Position) (outer inner : Derived) :
    ((PhysicalOp.hashJoin j).derived p [outer, inner]).distribution =
      if j.type = .rightOuter ∨ outer.distribution = .universal then inner.distribution else outer.distribution := by
  change (Derived.ofHashJoin j [outer, inner]).distribution = _
  unfold Derived.ofHashJoin
  dsimp only
  rw [Derived.ofJoin_distribution]
  cases j.type <;> simp

end HashJoin

theorem nestedLoopDistribution_of_requiredInput {type : JoinType} {on : Scalar} {child : Nat} {before : List Derived}
    (h : (PhysicalOp.nestedLoopJoin type on).requiredInput p request child before = some asked) :
    nestedLoopDistribution type request child before = some asked.distribution := by
  obtain ⟨_, -, h⟩ := Option.bind_eq_some_iff.1 h
  obtain ⟨wanted, hwanted, h⟩ := Option.bind_eq_some_iff.1 h
  rw [hwanted]
  split at h <;> rw [← Option.some.inj h]

/-- A request brings the inner rows to where the outer ones are. -/
theorem beside_of_nestedLoop {type : JoinType} {wanted wantedInner : RequiredDistribution}
    {e f : EquivalenceClasses} {subset subset' : Bool}
    (hwanted : nestedLoopDistribution type request 0 [] = some wanted)
    (houter : outer.distribution.satisfies wanted e subset = true)
    (hwantedInner : nestedLoopDistribution type request 1 [outer] = some wantedInner)
    (hinner : inner.distribution.satisfies wantedInner f subset' = true) :
    inner.distribution.Beside outer.distribution := by
  match request with
  | 0 =>
    by_cases hsingle : outer.distribution.isSingleton = true
    · obtain rfl : .singleton = wantedInner := Option.some.inj ((if_pos hsingle).symm.trans hwantedInner)
      refine Distribution.beside_of_singleton rfl (fun hall => ?_) hinner
      rw [hall] at hsingle
      cases hsingle
    · have hspec : wantedInner.spec = .replicated := by
        have hwantedInner := (if_neg hsingle).symm.trans hwantedInner
        split at hwantedInner <;> rw [← Option.some.inj hwantedInner] <;> rfl
      exact Distribution.beside_of_replicated hspec hsingle hinner
  | 1 =>
    cases hwanted
    cases hwantedInner
    exact Distribution.beside_of_singleton rfl (Distribution.ne_replicated_of_satisfies rfl houter) hinner
  | n + 2 => cases hwanted

def saleOfYear : Scalar := .binary (.column 1) .eq (.column 2)

/-- A join of years with sales by hash. -/
def salesHashJoin (type : JoinType) : PhysicalOp := .hashJoin ⟨type, saleOfYear, [1], [2], []⟩

/-- A look-up of years in a table of sales. -/
def salesLookup (table : Distribution) : IndexJoin :=
  ⟨.inner, "sales", "sales", "sales_year", [2], saleOfYear, [1], [2], table⟩

/-- Nothing is asked of an operator with so many inputs. -/
def Position.unasked (inputs : Nat) : Position := ⟨.none, .empty, .replicate inputs .empty⟩

/-- A join of two inputs that have what a request asks of them, the inner one in view of what the outer one has,
promises no more than both provide, but for a right outer hash join of rows on one node and rows that can be produced
on any. -/
theorem PhysicalOp.join_backed_iff (op : PhysicalOp)
    (hop : (∃ j, op = .hashJoin j) ∨ ∃ type on, op = .nestedLoopJoin type on) (p : Position) (request : Nat)
    (outer inner : Derived) (asked askedInner : Required) (e f : EquivalenceClasses) (subset subset' : Bool)
    (hasked : op.requiredInput p request 0 [] = some asked)
    (houter : outer.distribution.satisfies asked.distribution e subset = true)
    (haskedInner : op.requiredInput p request 1 [outer] = some askedInner)
    (hinner : inner.distribution.satisfies askedInner.distribution f subset' = true) :
    (op.derived p [outer, inner]).distribution.Backed [outer.distribution, inner.distribution] ↔
      ¬ ∃ j, op = .hashJoin j ∧ j.type = .rightOuter ∧ outer.distribution.isSingleton = true ∧
        inner.distribution = .universal := by
  rcases hop with ⟨j, rfl⟩ | ⟨type, on, rfl⟩
  · have hasked := HashJoin.outerDistribution_of_requiredInput hasked
    obtain ⟨equal, haskedInner⟩ := HashJoin.innerDistribution_of_requiredInput haskedInner
    rw [HashJoin.derived_distribution]
    by_cases htype : j.type = .rightOuter
    · have hexcept : (∃ k, PhysicalOp.hashJoin j = .hashJoin k ∧ k.type = .rightOuter ∧
          outer.distribution.isSingleton = true ∧ inner.distribution = .universal) ↔
          outer.distribution.isSingleton = true ∧ inner.distribution = .universal := by
        refine ⟨?_, fun h => ⟨j, rfl, htype, h⟩⟩
        rintro ⟨_, -, -, h⟩
        exact h
      rw [hexcept, if_pos (.inl htype)]
      rcases HashJoin.inputs_of_rightOuter htype hasked houter haskedInner hinner with
        ⟨⟨hash, heq⟩, hash', heq'⟩ | ⟨hone, hone'⟩
      · rw [heq, heq', Distribution.backed_iff]
        exact ⟨fun _ h => (nomatch h.2), fun _ => ⟨fun h => (nomatch h), fun h => (nomatch h)⟩⟩
      · exact Distribution.backed_inner_iff hone hone'
    · have hbeside := HashJoin.beside_of_asked hasked houter haskedInner hinner
      refine iff_of_true ?_ ?_
      · simpa only [htype, false_or] using hbeside.backed
      · rintro ⟨k, heq, hk, -⟩
        cases heq
        exact htype hk
  · have hbeside := beside_of_nestedLoop (nestedLoopDistribution_of_requiredInput hasked) houter
      (nestedLoopDistribution_of_requiredInput haskedInner) hinner
    refine iff_of_true ?_ ?_
    · change (Derived.ofJoin [outer, inner]).distribution.Backed _
      rw [Derived.ofJoin_distribution]
      exact hbeside.backed
    · rintro ⟨k, heq, -⟩
      cases heq

/-- Years on every segment, beside sales that can be produced there. -/
theorem join_backed_iff_salesHashJoin : ∃ asked askedInner,
    (salesHashJoin .inner).requiredInput (.unasked 2) 1 0 [] = some asked ∧
    Distribution.replicated.satisfies asked.distribution .none false = true ∧
    (salesHashJoin .inner).requiredInput (.unasked 2) 1 1 [.ofDistribution .replicated] = some askedInner ∧
    Distribution.universal.satisfies askedInner.distribution .none false = true ∧
    ((salesHashJoin .inner).derived (.unasked 2)
      [.ofDistribution .replicated, .ofDistribution .universal]).distribution.Backed [.replicated, .universal] := by
  refine ⟨_, _, rfl, rfl, rfl, rfl, ?_⟩
  refine (PhysicalOp.join_backed_iff (salesHashJoin .inner) (.inl ⟨_, rfl⟩) (.unasked 2) 1 (.ofDistribution .replicated)
    (.ofDistribution .universal) _ _ .none .none false false rfl rfl rfl rfl).2 ?_
  rintro ⟨j, hj, htype, -⟩
  cases hj
  cases htype

/-- Years on the coordinator, joined with sales that can be produced anywhere and are all kept, are taken for copies
on every segment. -/
theorem join_unbacked_salesHashJoin : ∃ asked askedInner,
    (salesHashJoin .rightOuter).requiredInput (.unasked 2) 2 0 [] = some asked ∧
    Distribution.strictSingleton.satisfies asked.distribution .none false = true ∧
    (salesHashJoin .rightOuter).requiredInput (.unasked 2) 2 1 [.ofDistribution .strictSingleton] = some askedInner ∧
    Distribution.universal.satisfies askedInner.distribution .none false = true ∧
    ((salesHashJoin .rightOuter).derived (.unasked 2)
      [.ofDistribution .strictSingleton, .ofDistribution .universal]).distribution.satisfies .replicated .none false =
        true ∧
    Distribution.strictSingleton.satisfies .replicated .none false = false :=
  ⟨_, _, rfl, rfl, rfl, rfl, rfl, rfl⟩

namespace IndexJoin

variable {j : IndexJoin}

theorem outerDistribution_of_requiredInput {child : Nat} {before : List Derived}
    (h : (PhysicalOp.indexNestedLoopJoin j).requiredInput p request child before = some asked) :
    j.outerDistribution request = some asked.distribution := by
  obtain ⟨_, -, h⟩ := Option.bind_eq_some_iff.1 h
  obtain ⟨wanted, hwanted, h⟩ := Option.bind_eq_some_iff.1 h
  rw [hwanted, ← Option.some.inj h]

/-- What a request asks of the outer rows, by the distribution of the table. -/
theorem outerDistribution_cases {wanted : RequiredDistribution} (h : j.outerDistribution request = some wanted) :
    (j.distribution = .replicated ∨ j.distribution = .universal) ∨
    (j.distribution.isSingleton = true ∧ wanted.spec = .singleton) ∨
    (j.distribution.isSingleton = false ∧
      ((∃ columns, wanted.spec = .hashed columns) ∨ wanted.spec = .replicated)) := by
  unfold outerDistribution at h
  split at h
  · rename_i htable
    exact .inl (.inl htable)
  · rename_i htable
    exact .inl (.inr htable)
  · rename_i columns htable
    obtain ⟨outerColumns, -, rfl⟩ := Option.map_eq_some_iff.1 h
    exact .inr (.inr ⟨htable ▸ rfl, .inl ⟨outerColumns, rfl⟩⟩)
  · split at h
    · rename_i hsingle
      exact .inr (.inl ⟨hsingle, Option.some.inj h ▸ rfl⟩)
    · cases h
  · rename_i columns htable
    split at h
    · exact .inr (.inr ⟨htable ▸ rfl, .inr (Option.some.inj h ▸ rfl)⟩)
    · cases h
  · rename_i htable
    split at h
    · exact .inr (.inr ⟨htable ▸ rfl, .inr (Option.some.inj h ▸ rfl)⟩)
    · cases h
  · cases h

theorem table_of_outer {wanted : RequiredDistribution} {e : EquivalenceClasses} {subset : Bool} {outer : Distribution}
    (hwanted : j.outerDistribution request = some wanted) (houter : outer.satisfies wanted e subset = true) :
    (outer.isSingleton = true → j.distribution = .replicated ∨ j.distribution.onOneNode = true) ∧
    (outer = .replicated → j.distribution.isSingleton = false) := by
  rcases outerDistribution_cases hwanted with (htable | htable) | ⟨htable, hspec⟩ | ⟨htable, ⟨columns, hspec⟩ | hspec⟩
  · rw [htable]
    exact ⟨fun _ => .inl rfl, fun _ => rfl⟩
  · rw [htable]
    exact ⟨fun _ => .inr rfl, fun _ => rfl⟩
  · refine ⟨fun _ => .inr (Distribution.onOneNode_of_isSingleton htable), ?_⟩
    exact fun hall => absurd hall (Distribution.ne_replicated_of_satisfies hspec houter)
  · obtain ⟨hash, rfl⟩ := Distribution.eq_hashed_of_satisfies hspec houter
    exact ⟨fun h => (nomatch h), fun h => (nomatch h)⟩
  · refine ⟨fun hsingle => ?_, fun _ => htable⟩
    rw [Distribution.satisfies_replicated hspec] at houter
    cases outer with
    | singleton => cases houter
    | strictSingleton => cases houter
    | _ => cases hsingle

end IndexJoin

/-- An index join of outer rows that are as a request asks promises no more than these and the table provide, but
where it oversteps. -/
theorem PhysicalOp.indexJoin_backed_iff (j : IndexJoin) (p : Position) (request : Nat) (outer : Derived)
    (asked : Required) (e : EquivalenceClasses) (subset : Bool)
    (hasked : (PhysicalOp.indexNestedLoopJoin j).requiredInput p request 0 [] = some asked)
    (houter : outer.distribution.satisfies asked.distribution e subset = true) :
    ((PhysicalOp.indexNestedLoopJoin j).derived p [outer]).distribution.Backed
      [outer.distribution, j.distribution] ↔ ¬ outer.distribution.Oversteps j.distribution := by
  obtain ⟨hone, hall⟩ := IndexJoin.table_of_outer (IndexJoin.outerDistribution_of_requiredInput hasked) houter
  exact Distribution.backed_lookup_iff hone hall

/-- Years on every segment, looked up in copies of the table. -/
theorem indexJoin_backed_iff_salesLookup : ∃ asked,
    (PhysicalOp.indexNestedLoopJoin (salesLookup .replicated)).requiredInput (.unasked 1) 0 0 [] = some asked ∧
    Distribution.replicated.satisfies asked.distribution .none false = true ∧
    ((PhysicalOp.indexNestedLoopJoin (salesLookup .replicated)).derived (.unasked 1)
      [.ofDistribution .replicated]).distribution.Backed [.replicated, .replicated] := by
  refine ⟨_, rfl, rfl, ?_⟩
  refine (PhysicalOp.indexJoin_backed_iff (salesLookup .replicated) (.unasked 1) 0 (.ofDistribution .replicated) _ .none
    false rfl rfl).2 ?_
  simp [Distribution.Oversteps, Derived.ofDistribution, salesLookup, Distribution.isSingleton]

/-- Years that can be produced anywhere, looked up in a table that is spread at random: what each segment finds of its
share is taken for all rows. -/
theorem indexJoin_unbacked_salesLookup : ∃ asked,
    (PhysicalOp.indexNestedLoopJoin (salesLookup .random)).requiredInput (.unasked 1) 1 0 [] = some asked ∧
    Distribution.universal.satisfies asked.distribution .none false = true ∧
    ((PhysicalOp.indexNestedLoopJoin (salesLookup .random)).derived (.unasked 1)
      [.ofDistribution .universal]).distribution.satisfies .singleton .none false = true ∧
    Distribution.random.satisfies .singleton .none false = false :=
  ⟨_, rfl, rfl, rfl, rfl⟩

namespace Distribution

/-- Whether rows are on several nodes, each on one of them. -/
def isSpread : Distribution → Bool
  | hashed _ | random => true
  | _ => false

variable {d : Distribution} {required : RequiredDistribution} {e : EquivalenceClasses} {subset : Bool}

theorem satisfies_nonSingleton (h : required.spec = .nonSingleton) : d.satisfies required e subset = d.isSpread := by
  cases d <;> simp [satisfies, isSpread, h]

theorem isSingleton_iff : d.isSingleton = true ↔ d.onOneNode = true ∧ d ≠ .universal := by
  cases d <;> simp [isSingleton, onOneNode]

theorem isSpread_eq_false (h : d.onOneNode = true) : d.isSpread = false := by
  cases d <;> first | rfl | cases h

theorem onOneNode_mapped (source target : List ColumnId) : (d.mapped source target).onOneNode = d.onOneNode := by
  cases d with
  | hashed columns =>
    unfold mapped
    dsimp only
    split <;> rfl
  | _ => rfl

theorem isSpread_mapped (source target : List ColumnId) : (d.mapped source target).isSpread = d.isSpread := by
  cases d with
  | hashed columns =>
    unfold mapped
    dsimp only
    split <;> rfl
  | _ => rfl

end Distribution

namespace Concatenation

variable {u : Concatenation} {inputs : List Derived}

/-- A single input is read as it is, with its columns renamed. -/
theorem derived_single (u : Concatenation) (p : Position) (input : Derived) :
    let d := ((PhysicalOp.append u).derived p [input]).distribution
    d.onOneNode = input.distribution.onOneNode ∧ d.isSpread = input.distribution.isSpread := by
  change let d := (Derived.ofAppend u [input]).distribution
    d.onOneNode = input.distribution.onOneNode ∧ d.isSpread = input.distribution.isSpread
  unfold Derived.ofAppend Derived.gathered Derived.ofDistribution
  dsimp only
  split
  · rename_i h
    have hsingle : input.distribution.isSingleton = true := by simpa using h
    cases hd : input.distribution <;> first | exact ⟨rfl, rfl⟩ | (rw [hd] at hsingle; cases hsingle)
  · exact ⟨Distribution.onOneNode_mapped _ _, Distribution.isSpread_mapped _ _⟩

/-- Several inputs are on one node only if none can be produced elsewhere. -/
theorem derived_several (u : Concatenation) (p : Position) (h : 2 ≤ inputs.length) :
    ((PhysicalOp.append u).derived p inputs).distribution =
      if ∀ i ∈ inputs, i.distribution.isSingleton = true then .singleton else .random := by
  match inputs, h with
  | first :: second :: rest, _ =>
    change (Derived.ofAppend u (first :: second :: rest)).distribution = _
    unfold Derived.ofAppend Derived.gathered Derived.ofDistribution
    simp

/-- The inputs have what a request asks of them, each in view of what those before it have. -/
def Asked (u : Concatenation) (p : Position) (request : Nat) (inputs : List Derived) : Prop :=
  ∀ i (hi : i < inputs.length), ∃ asked e subset,
    (PhysicalOp.append u).requiredInput p request i (inputs.take i) = some asked ∧
    inputs[i].distribution.satisfies asked.distribution e subset = true

/-- Rows that can be produced anywhere are read among others. -/
def Duplicates (inputs : List Derived) : Prop := 2 ≤ inputs.length ∧ ∃ i ∈ inputs, i.distribution = .universal

theorem not_duplicates_single (input : Derived) : ¬ Duplicates [input] := fun h => Nat.not_succ_le_self 1 h.1

theorem not_duplicates_of_isSpread (h : ∀ i ∈ inputs, i.distribution.isSpread = true) : ¬ Duplicates inputs := by
  rintro ⟨-, i, hi, huniversal⟩
  have hspread := h i hi
  rw [huniversal] at hspread
  cases hspread

theorem isSingleton_iff (h : 2 ≤ inputs.length) : (∀ i ∈ inputs, i.distribution.isSingleton = true) ↔
    (∀ i ∈ inputs, i.distribution.onOneNode = true) ∧ ¬ Duplicates inputs := by
  simp only [Distribution.isSingleton_iff, Duplicates, h, true_and, not_exists, not_and, forall_and]

/-- A request wants all inputs spread or all on one node. -/
theorem Asked.cases {p : Position} {request : Nat} (h : u.Asked p request inputs) :
    (∀ i ∈ inputs, i.distribution.isSpread = true) ∨ (∀ i ∈ inputs, i.distribution.onOneNode = true) := by
  match request with
  | 0 =>
    refine .inl fun i hi => ?_
    obtain ⟨place, hplace, rfl⟩ := List.getElem_of_mem hi
    obtain ⟨asked, e, subset, hasked, hsatisfied⟩ := h place hplace
    obtain ⟨_, -, hasked⟩ := Option.bind_eq_some_iff.1 hasked
    rwa [← Option.some.inj hasked, Distribution.satisfies_nonSingleton rfl] at hsatisfied
  | 1 =>
    refine .inr fun i hi => ?_
    obtain ⟨place, hplace, rfl⟩ := List.getElem_of_mem hi
    obtain ⟨asked, e, subset, hasked, hsatisfied⟩ := h place hplace
    obtain ⟨_, -, hasked⟩ := Option.bind_eq_some_iff.1 hasked
    rwa [← Option.some.inj hasked, Distribution.satisfies_singleton rfl] at hsatisfied
  | n + 2 =>
    refine .inl fun i hi => ?_
    obtain ⟨place, hplace, rfl⟩ := List.getElem_of_mem hi
    obtain ⟨asked, e, subset, hasked, -⟩ := h place hplace
    obtain ⟨_, -, hasked⟩ := Option.bind_eq_some_iff.1 hasked
    cases hasked

end Concatenation

/-- Inputs that are all on one node are on one node together, unless there are several and the rows of one can be
produced anywhere. Several inputs are spread across the segments together only if each is; of those that have what a
request asks of them it takes the rows of one that can be produced anywhere, which each segment then reads. -/
theorem PhysicalOp.append_gathered_iff (u : Concatenation) (p : Position) (inputs : List Derived) (hne : inputs ≠ []) :
    (((∀ i ∈ inputs, ∃ e subset, i.distribution.satisfies .singleton e subset = true) →
        ∀ e subset, ((append u).derived p inputs).distribution.satisfies .singleton e subset = true) ↔
      ¬ ((∀ i ∈ inputs, i.distribution.onOneNode = true) ∧ Concatenation.Duplicates inputs)) ∧
    ((((append u).derived p inputs).distribution.isSpread = true → ∀ i ∈ inputs, i.distribution.isSpread = true) ↔
      inputs.length = 1 ∨ (∀ i ∈ inputs, i.distribution.isSingleton = true) ∨
        ∀ i ∈ inputs, i.distribution.isSpread = true) ∧
    ∀ request, u.Asked p request inputs →
      ((((append u).derived p inputs).distribution.isSpread = true → ∀ i ∈ inputs, i.distribution.isSpread = true) ↔
        ¬ Concatenation.Duplicates inputs) := by
  have hone : RequiredDistribution.singleton.spec = .singleton := rfl
  simp only [Distribution.satisfies_singleton hone, exists_const, forall_const]
  match inputs, hne with
  | [input], _ =>
    obtain ⟨hgathered, hspread⟩ := u.derived_single p input
    simp only [hgathered, hspread, Concatenation.not_duplicates_single, List.mem_singleton, forall_eq,
      List.length_singleton, and_false, not_false_iff, imp_self, true_or, implies_true, and_self]
  | first :: second :: rest, _ =>
    have hlength : 2 ≤ (first :: second :: rest).length := Nat.le_add_left ..
    have hfirst := List.mem_cons_self (a := first) (l := second :: rest)
    generalize first :: second :: rest = inputs at hlength hfirst
    have hsingle := Concatenation.isSingleton_iff hlength
    rw [Concatenation.derived_several u p hlength]
    by_cases h : ∀ i ∈ inputs, i.distribution.isSingleton = true
    · rw [if_pos h]
      refine ⟨iff_of_true (fun _ => rfl) fun hdup => (hsingle.1 h).2 hdup.2, ?_, fun request _ => ?_⟩
      · exact iff_of_true (fun hspread => nomatch hspread) (.inr (.inl h))
      · exact iff_of_true (fun hspread => nomatch hspread) (hsingle.1 h).2
    · rw [if_neg h]
      refine ⟨⟨fun hall hdup => (nomatch hall hdup.1), fun hdup hall => ?_⟩, ?_, fun request hasked => ?_⟩
      · exact absurd (hsingle.2 ⟨hall, fun hdup' => hdup ⟨hall, hdup'⟩⟩) h
      · have hseveral : inputs.length ≠ 1 := by omega
        simp only [hseveral, h, false_or]
        exact ⟨fun hspread => hspread rfl, fun hspread _ => hspread⟩
      · rcases hasked.cases with hspread | hall
        · exact iff_of_true (fun _ => hspread) (Concatenation.not_duplicates_of_isSpread hspread)
        · refine iff_of_false (fun hspread => ?_) fun hdup => h (hsingle.2 ⟨hall, hdup⟩)
          exact nomatch (Distribution.isSpread_eq_false (hall first hfirst)).symm.trans (hspread rfl first hfirst)

/-- Sales of two years. -/
def yearlySales : Concatenation := ⟨[5], [[1], [2]]⟩

/-- Sales of one year that are spread at random, appended to those of another that are spread by hash. -/
theorem append_gathered_iff_yearlySales :
    yearlySales.Asked (.unasked 2) 0 [.ofDistribution .random, .ofDistribution (.hashed [2])] ∧
    ((((PhysicalOp.append yearlySales).derived (.unasked 2)
        [.ofDistribution .random, .ofDistribution (.hashed [2])]).distribution.isSpread = true →
      ∀ i ∈ [Derived.ofDistribution .random, Derived.ofDistribution (.hashed [2])], i.distribution.isSpread = true) ↔
      ¬ Concatenation.Duplicates [.ofDistribution .random, .ofDistribution (.hashed [2])]) := by
  have hasked : yearlySales.Asked (.unasked 2) 0 [.ofDistribution .random, .ofDistribution (.hashed [2])] := by
    rintro (_ | _ | i) hi
    · exact ⟨_, .none, false, rfl, rfl⟩
    · exact ⟨_, .none, false, rfl, rfl⟩
    · simp only [List.length_cons, List.length_nil] at hi
      omega
  exact ⟨hasked, (PhysicalOp.append_gathered_iff yearlySales (.unasked 2) _ (by simp)).2.2 0 hasked⟩

/-- Sales on the coordinator, and others that can be produced there, are taken for sales that are spread at random. -/
theorem append_ungathered_yearlySales :
    yearlySales.Asked (.unasked 2) 1 [.ofDistribution .strictSingleton, .ofDistribution .universal] ∧
    ((PhysicalOp.append yearlySales).derived (.unasked 2)
      [.ofDistribution .strictSingleton, .ofDistribution .universal]).distribution = .random ∧
    Distribution.random.satisfies .singleton .none false = false ∧
    Distribution.strictSingleton.isSpread = false ∧ Distribution.universal.isSpread = false := by
  refine ⟨?_, rfl, rfl, rfl, rfl⟩
  rintro (_ | _ | i) hi
  · exact ⟨_, .none, false, rfl, rfl⟩
  · exact ⟨_, .none, false, rfl, rfl⟩
  · simp only [List.length_cons, List.length_nil] at hi
    omega

end

end Cascade
