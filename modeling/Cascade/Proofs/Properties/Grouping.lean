import Cascade.Proofs.Properties.Colocation

/-!
Where an aggregate finds the rows of a group. Hash columns that will do for some columns are equal to some of these, so
rows that agree on the latter are on one segment. An aggregate that completes its groups asks for its grouping columns or
for a single node; either way the rows of a group are all on one node, or every node has all rows
(`Distribution.hashed_gathers`).
-/

namespace Cascade

/-- The nodes of a cluster, and the segment that rows with some values are moved to. -/
structure Layout (N α : Type) where
  coordinator : N
  segments : List N
  segmentOf : List α → N
  segmentOf_mem : ∀ values, segmentOf values ∈ segments

namespace Layout

variable {N α : Type} (K : Layout N α)

def nodes : List N := K.coordinator :: K.segments

/-- All rows are on one of some nodes. -/
def Alone (nodes : List N) (rows : Multiset (ColumnId → α)) (on : N → Multiset (ColumnId → α)) : Prop :=
  ∃ n ∈ nodes, on n = rows ∧ ∀ m, m ≠ n → on m = 0

section

variable [DecidableEq N]

/-- The nodes have the rows that a distribution says. -/
def Places (rows : Multiset (ColumnId → α)) (on : N → Multiset (ColumnId → α)) : Distribution → Prop
  | .any => True
  | .singleton => Alone K.nodes rows on
  | .strictSingleton => Alone [K.coordinator] rows on
  | .replicated => ∀ n ∈ K.segments, on n = rows
  | .hashed columns => ∀ n, on n = rows.filter (fun r => K.segmentOf (columns.map r) = n)
  | .random | .nonSingleton => (K.segments.map on).sum = rows
  | .universal => ∀ n ∈ K.nodes, on n = rows

variable {rows : Multiset (ColumnId → α)} {on : N → Multiset (ColumnId → α)} {columns : List ColumnId} {n : N}
  {row : ColumnId → α} {d : Distribution} {required : RequiredDistribution} {e : EquivalenceClasses} {subset : Bool}

theorem segmentOf_of_mem (h : K.Places rows on (.hashed columns)) (hrow : row ∈ on n) :
    row ∈ rows ∧ K.segmentOf (columns.map row) = n :=
  Multiset.mem_filter.1 (h n ▸ hrow)

/-- Rows that are wanted on one node are all on one, or on every node. -/
theorem alone_of_satisfies (hspec : required.spec = .singleton) (hd : d.satisfies required e subset = true)
    (h : K.Places rows on d) : (∀ n ∈ K.nodes, on n = rows) ∨ Alone K.nodes rows on := by
  rw [Distribution.satisfies_singleton hspec] at hd
  cases d with
  | universal => exact .inl h
  | singleton => exact .inr h
  | strictSingleton =>
    obtain ⟨n, hn, hon, hother⟩ := h
    exact .inr ⟨n, List.mem_singleton.1 hn ▸ List.mem_cons_self .., hon, hother⟩
  | _ => cases hd

end

variable [DecidableEq α] {rows : Multiset (ColumnId → α)} {on : N → Multiset (ColumnId → α)} {groupBy : List ColumnId}

/-- The rows with the grouping values of a row. -/
def group (groupBy : List ColumnId) (row : ColumnId → α) (rows : Multiset (ColumnId → α)) : Multiset (ColumnId → α) :=
  rows.filter (fun r => groupBy.map r = groupBy.map row)

/-- The rows of each group are all on one node. -/
def GroupsMeet (groupBy : List ColumnId) (rows : Multiset (ColumnId → α)) (on : N → Multiset (ColumnId → α)) : Prop :=
  ∀ row ∈ rows, ∃ n ∈ K.nodes, group groupBy row (on n) = group groupBy row rows ∧
    ∀ m, m ≠ n → group groupBy row (on m) = 0

variable {K}

theorem Alone.groupsMeet (h : Alone K.nodes rows on) : K.GroupsMeet groupBy rows on := by
  obtain ⟨n, hn, hon, hother⟩ := h
  intro row hrow
  refine ⟨n, hn, congrArg _ hon, fun m hm => ?_⟩
  rw [hother m hm]
  rfl

/-- The rows of a group are moved to one segment if the grouping values determine those of the hash columns. -/
theorem groupsMeet_of_hashed [DecidableEq N] {columns : List ColumnId} (h : K.Places rows on (.hashed columns))
    (hdetermined : ∀ r ∈ rows, ∀ s ∈ rows, groupBy.map r = groupBy.map s → columns.map r = columns.map s) :
    K.GroupsMeet groupBy rows on := by
  intro row hrow
  refine ⟨K.segmentOf (columns.map row), List.mem_cons_of_mem _ (K.segmentOf_mem _), ?_, fun m hm => ?_⟩
  · unfold group
    rw [h, Multiset.filter_filter]
    refine Multiset.filter_congr fun r hr => and_iff_left_of_imp fun hgroup => ?_
    rw [hdetermined r hr row hrow hgroup]
  · unfold group
    rw [h, Multiset.filter_filter]
    refine Multiset.filter_eq_nil.2 fun r hr ⟨hgroup, hsegment⟩ => hm ?_
    rw [← hsegment, hdetermined r hr row hrow hgroup]

end Layout

namespace Distribution

variable {α : Type} {e : EquivalenceClasses} {columns wanted : List ColumnId} {subset : Bool} {row row' : ColumnId → α}

/-- Rows that agree on the wanted columns agree on columns that are equal to some of these. -/
theorem eq_of_covered (h : covered e columns wanted = true) (hrow : e.RespectedBy row) (hrow' : e.RespectedBy row')
    (hagree : ∀ c ∈ wanted, row c = row' c) : ∀ c ∈ columns, row c = row' c := by
  intro c hc
  obtain ⟨w, hw, hcw⟩ := covered_iff.1 h c hc
  calc
    row c = row w := hrow.eq hcw
    _ = row' w := hagree w hw
    _ = row' c := (hrow'.eq hcw).symm

theorem map_eq_of_covered (h : covered e columns wanted = true) (hrow : e.RespectedBy row) (hrow' : e.RespectedBy row')
    (hagree : ∀ c ∈ wanted, row c = row' c) : columns.map row = columns.map row' :=
  List.map_congr_left (eq_of_covered h hrow hrow' hagree)

end Distribution

/-- An aggregate that completes its groups asks for rows on one node or, if it groups by columns, moved by these. -/
theorem Aggregation.inputDistribution_cases {a : Aggregation} {request : Nat} {wanted : RequiredDistribution}
    (hstage : a.stage ≠ .localStage) (h : a.inputDistribution request = some wanted) :
    wanted = .singleton ∨ wanted = .hashed a.groupBy := by
  unfold inputDistribution at h
  split at h
  · rw [if_neg hstage] at h
    split at h
    · exact .inl (Option.some.inj h).symm
    · exact .inr (Option.some.inj h).symm
  · exact .inl (Option.some.inj h).symm
  · cases h

section

variable {op : PhysicalOp} {a : Aggregation} {p : Position} {request child : Nat} {before : List Derived} {asked : Required}

theorem Aggregation.inputDistribution_of_requiredInput (hop : op = .hashAggregate a ∨ op = .streamAggregate a)
    (h : op.requiredInput p request child before = some asked) :
    a.inputDistribution request = some asked.distribution := by
  obtain rfl | rfl := hop
  all_goals
    obtain ⟨_, -, h⟩ := Option.bind_eq_some_iff.1 h
    obtain ⟨wanted, hwanted, h⟩ := Option.bind_eq_some_iff.1 h
    rw [hwanted, ← Option.some.inj h]

end

/-- Hash columns that satisfy a requirement keep rows together that agree on the wanted columns, and have their values
place by place if they have to match exactly. So an aggregate that completes its groups has the rows of each on one
node, or all rows on every node. -/
theorem Distribution.hashed_gathers {N α : Type} [DecidableEq N] [DecidableEq α] (K : Layout N α)
    (e : EquivalenceClasses) (columns wanted : List ColumnId) (subset : Bool) :
    ((hashed columns).satisfies (.hashed wanted) e subset = true →
      (∀ row row' : ColumnId → α, e.RespectedBy row → e.RespectedBy row' → (∀ c ∈ wanted, row c = row' c) →
        ∀ c ∈ columns, row c = row' c) ∧
      ∀ rows on, (∀ row ∈ rows, e.RespectedBy row) → K.Places rows on (.hashed columns) →
        ∀ n m, ∀ row ∈ on n, ∀ row' ∈ on m, (∀ c ∈ wanted, row c = row' c) → n = m) ∧
    ((hashed columns).satisfies (.exactHashed wanted) e subset = true →
      ∀ row : ColumnId → α, e.RespectedBy row → columns.map row = wanted.map row) ∧
    ∀ (op : PhysicalOp) (a : Aggregation), op = .hashAggregate a ∨ op = .streamAggregate a → a.stage ≠ .localStage →
      ∀ (p : Position) (input : LogicalProperties), p.inputs[0]? = some input →
      ∀ (request : Nat) (before : List Derived) (asked : Required), op.requiredInput p request 0 before = some asked →
      ∀ d : Distribution, d.satisfies asked.distribution input.equivalences subset = true →
      ∀ rows on, (∀ row ∈ rows, input.equivalences.RespectedBy row) → K.Places rows on d →
        (∀ n ∈ K.nodes, on n = rows) ∨ K.GroupsMeet a.groupBy rows on := by
  refine ⟨fun h => ?_, fun h row hrow => (map_eq_of_alignedWith h hrow).symm, ?_⟩
  · have hcovered := covered_of_satisfies h
    refine ⟨fun row row' => eq_of_covered hcovered, fun rows on hrows hon n m row hrow row' hrow' hagree => ?_⟩
    obtain ⟨hmem, rfl⟩ := K.segmentOf_of_mem hon hrow
    obtain ⟨hmem', rfl⟩ := K.segmentOf_of_mem hon hrow'
    exact congrArg K.segmentOf (map_eq_of_covered hcovered (hrows row hmem) (hrows row' hmem') hagree)
  · intro op a hop hstage p input _ request before asked hasked d hd rows on hrows hon
    obtain hwanted | hwanted :=
      Aggregation.inputDistribution_cases hstage (Aggregation.inputDistribution_of_requiredInput hop hasked)
    · exact (K.alone_of_satisfies (congrArg RequiredDistribution.spec hwanted) hd hon).imp_right
        Layout.Alone.groupsMeet
    · rw [hwanted] at hd
      obtain ⟨hash, rfl⟩ := eq_hashed_of_satisfies rfl hd
      refine .inr (Layout.groupsMeet_of_hashed hon fun r hr s hs hgroup => ?_)
      exact map_eq_of_covered (covered_of_satisfies hd) (hrows r hr) (hrows s hs) (List.map_inj_left.1 hgroup)

/-- A coordinator and two segments; rows are moved by the sum of their values. -/
def parityLayout : Layout (Fin 3) Nat where
  coordinator := 0
  segments := [1, 2]
  segmentOf values := if values.foldl (· + ·) 0 % 2 = 0 then 1 else 2
  segmentOf_mem values := by split <;> simp

/-- A sale by its year and its region, which is in two columns. -/
def regionalRow (year region : Nat) : ColumnId → Nat := fun c => if c = 1 then year else region

/-- The region is in the second and in the third column. -/
def regionTwice : EquivalenceClasses := ⟨[.ofList [2, 3]]⟩

theorem regionTwice_respectedBy (year region : Nat) : regionTwice.RespectedBy (regionalRow year region) := by
  have hregion : ∀ c ∈ SortedSet.ofList [2, 3], regionalRow year region c = region := by
    intro c hc
    obtain rfl | rfl : c = 2 ∨ c = 3 := by simpa using SortedSet.mem_ofList.1 hc
    all_goals rfl
  intro s hs a ha b hb
  obtain rfl := List.mem_singleton.1 hs
  rw [hregion a ha, hregion b hb]

/-- Sales on the segments of their regions. -/
def regionalSpread : Fin 3 → Multiset (ColumnId → Nat) := fun n =>
  Multiset.filter (fun r => parityLayout.segmentOf ([3].map r) = n)
    {regionalRow 2023 7, regionalRow 2024 7, regionalRow 2024 8}

/-- Sales moved by region, grouped by year and the other region column. -/
theorem hashed_gathers_regionalRow :
    (Distribution.hashed [3]).satisfies (.hashed [2]) regionTwice true = true ∧
    (∀ c ∈ [3], regionalRow 2023 7 c = regionalRow 2024 7 c) ∧
    (Distribution.hashed [3]).satisfies (.exactHashed [2]) regionTwice true = true ∧
    [3].map (regionalRow 2024 7) = [2].map (regionalRow 2024 7) ∧
    ∃ asked, (PhysicalOp.hashAggregate ⟨[1, 2], [], .globalStage⟩).requiredInput
        ⟨.none, .empty, [{ LogicalProperties.empty with equivalences := regionTwice }]⟩ 0 0 [] = some asked ∧
      (Distribution.hashed [3]).satisfies asked.distribution regionTwice true = true ∧
      ((∀ n ∈ parityLayout.nodes, regionalSpread n = {regionalRow 2023 7, regionalRow 2024 7, regionalRow 2024 8}) ∨
        parityLayout.GroupsMeet [1, 2] {regionalRow 2023 7, regionalRow 2024 7, regionalRow 2024 8} regionalSpread) := by
  obtain ⟨hsatisfy, hexact, haggregate⟩ := Distribution.hashed_gathers parityLayout regionTwice [3] [2] true
  have hsales := regionTwice_respectedBy
  have hagree : ∀ c ∈ [2], regionalRow 2023 7 c = regionalRow 2024 7 c := List.forall_mem_singleton.2 rfl
  refine ⟨by decide, (hsatisfy (by decide)).1 _ _ (hsales 2023 7) (hsales 2024 7) hagree, by decide,
    hexact (by decide) _ (hsales 2024 7), _, rfl, by decide, ?_⟩
  refine haggregate _ ⟨[1, 2], [], .globalStage⟩ (.inl rfl) (by decide)
    ⟨.none, .empty, [{ LogicalProperties.empty with equivalences := regionTwice }]⟩ _ rfl 0 [] _ rfl
    (.hashed [3]) (by decide) _ _ ?_ fun _ => rfl
  intro row hrow
  simp only [Multiset.insert_eq_cons, Multiset.mem_cons, Multiset.mem_singleton] at hrow
  obtain rfl | rfl | rfl := hrow
  all_goals exact hsales _ _

end Cascade
