import Cascade.Proofs.Properties.Closure
import Cascade.Proofs.Properties.Distributions
import Cascade.Proofs.Semantics.Elimination

/-!
Where a hash join finds the rows it matches. The inner rows are moved by the right keys that stand beside the left
keys the outer hash columns are equal to, so rows that agree on the keys have the same values in the hash columns, place
by place, and are on one node whatever the hash function (`PhysicalOp.hashJoin_colocates`).
-/

namespace Cascade

variable {α : Type} {e : EquivalenceClasses} {row o i : ColumnId → α}

namespace EquivalenceClasses

variable {a b : ColumnId}

/-- The columns of a class have the same value. -/
def RespectedBy (e : EquivalenceClasses) (row : ColumnId → α) : Prop :=
  ∀ s ∈ e.classes, ∀ a ∈ s, ∀ b ∈ s, row a = row b

theorem areEquivalent_comm (e : EquivalenceClasses) (a b : ColumnId) : e.areEquivalent a b = e.areEquivalent b a := by
  rw [Bool.eq_iff_iff, areEquivalent_iff, areEquivalent_iff, eq_comm]
  simp only [Together, and_comm]

theorem RespectedBy.eq (h : e.RespectedBy row) (hab : e.areEquivalent a b = true) : row a = row b := by
  obtain rfl | ⟨s, hs, ha, hb⟩ := areEquivalent_iff.1 hab
  · rfl
  · exact h s hs a ha b hb

end EquivalenceClasses

namespace Distribution

variable {columns wanted : List ColumnId} {inner : Distribution} {subset : Bool}

theorem covered_iff : covered e columns wanted = true ↔ ∀ c ∈ columns, ∃ w ∈ wanted, e.areEquivalent c w = true := by
  simp only [covered, List.all_eq_true, List.any_eq_true]

/-- Hash columns that will do for some columns are equal to some of these. -/
theorem covered_of_satisfies (h : (hashed columns).satisfies (.hashed wanted) e subset = true) :
    covered e columns wanted = true := by
  obtain ⟨h, -⟩ := Bool.and_eq_true_iff.1 h
  exact (Bool.and_eq_true_iff.1 h).2

theorem map_eq_of_alignedWith (h : alignedWith e wanted columns = true) (hrow : e.RespectedBy row) :
    wanted.map row = columns.map row := by
  obtain ⟨hlength, hall⟩ := Bool.and_eq_true_iff.1 h
  refine (forall₂_map_eq_iff row wanted columns).1 ?_
  refine List.forall₂_iff_zip.2 ⟨of_decide_eq_true hlength, fun hmem => hrow.eq ?_⟩
  exact List.all_eq_true.1 hall _ hmem

/-- Rows that are to be moved by some columns are moved by columns with the same values, place by place. -/
theorem exists_hash_of_satisfies (h : inner.satisfies (.exactHashed wanted) e subset = true) :
    ∃ hash, inner = .hashed hash ∧ alignedWith e wanted hash = true := by
  obtain ⟨hash, rfl⟩ := eq_hashed_of_satisfies rfl h
  exact ⟨hash, rfl, h⟩

end Distribution

namespace HashJoin

variable {j : HashJoin} {columns keys hash : List ColumnId} {f : EquivalenceClasses}

/-- The keys are pairs of columns that the condition equates. -/
structure Keyed (j : HashJoin) : Prop where
  length : j.leftKeys.length = j.rightKeys.length
  equates : ∀ k ∈ j.leftKeys.zip j.rightKeys, j.on.Equates k.1 k.2

/-- An outer and an inner row have the same values in each pair of keys. -/
def Agree (j : HashJoin) (o i : ColumnId → α) : Prop := ∀ k ∈ j.leftKeys.zip j.rightKeys, o k.1 = i k.2

/-- A column that is equal to a left key is matched with the right key at its place. -/
theorem exists_matchingKeys (hj : j.Keyed) (h : Distribution.covered e columns j.leftKeys = true) :
    ∃ keys, j.matchingKeys? e columns = some keys := by
  unfold matchingKeys?
  induction columns with
  | nil => exact ⟨[], rfl⟩
  | cons c columns ih =>
    obtain ⟨hc, hcolumns⟩ := List.forall_mem_cons.1 (Distribution.covered_iff.1 h)
    obtain ⟨k, hk, hck⟩ := hc
    obtain ⟨keys, hkeys⟩ := ih (Distribution.covered_iff.2 hcolumns)
    have hfound : (j.leftKeys.findIdx? (fun k => e.areEquivalent k c)).isSome = true := by
      rw [List.findIdx?_isSome]
      exact List.any_eq_true.2 ⟨k, hk, (e.areEquivalent_comm k c).trans hck⟩
    obtain ⟨place, hplace⟩ := Option.isSome_iff_exists.1 hfound
    obtain ⟨hlt, -⟩ := List.findIdx?_eq_some_iff_getElem.1 hplace
    refine ⟨j.rightKeys.get ⟨place, hj.length ▸ hlt⟩ :: keys, ?_⟩
    rw [List.mapM_cons, hplace, hkeys, Option.bind_some, List.getElem?_eq_getElem (hj.length ▸ hlt)]
    rfl

/-- Rows that agree on the keys have the same values in matching columns. -/
theorem map_eq_of_matchingKeys (h : j.matchingKeys? e columns = some keys) (ho : e.RespectedBy o)
    (hagree : j.Agree o i) :
    columns.map o = keys.map i := by
  rw [← List.forall₂_eq_eq_eq, List.forall₂_map_left_iff, List.forall₂_map_right_iff]
  refine (forall₂_of_mapM_some h).imp fun c key hkey => ?_
  obtain ⟨place, hplace, hright⟩ := Option.bind_eq_some_iff.1 hkey
  obtain ⟨hlt, hequal, -⟩ := List.findIdx?_eq_some_iff_getElem.1 hplace
  have hpair : (j.leftKeys[place], key) ∈ j.leftKeys.zip j.rightKeys :=
    List.mem_iff_getElem?.2 ⟨place, List.getElem?_zip_eq_some.2 ⟨List.getElem?_eq_getElem hlt, hright⟩⟩
  exact (ho.eq hequal).symm.trans (hagree _ hpair)

/-- Rows that agree on the keys have the same values in the hash columns of both inputs. -/
theorem map_eq_of_agree (h : j.matchingKeys? e columns = some keys) (haligned : Distribution.alignedWith f keys hash = true)
    (ho : e.RespectedBy o) (hi : f.RespectedBy i) (hagree : j.Agree o i) : columns.map o = hash.map i :=
  (map_eq_of_matchingKeys h ho hagree).trans (Distribution.map_eq_of_alignedWith haligned hi)

/-- Rows for which the condition is true agree on the keys, apart from the widths of values. -/
theorem Keyed.agree (hj : j.Keyed) {F : Functions} {b : Binding} (hon : j.on.truth F b = some true) :
    j.Agree (fun c => (b c).widen) (fun c => (b c).widen) := fun k hk =>
  ((Value.equals_iff _ _).1 ((hj.equates k hk).equals hon)).2.2

/-- Rows that are matched have the same values in the hash columns of both inputs, apart from the widths of values. -/
theorem Keyed.map_eq_of_match (hj : j.Keyed) (h : j.matchingKeys? e columns = some keys)
    (haligned : Distribution.alignedWith f keys hash = true) {F : Functions} {b : Binding}
    (he : e.RespectedBy (fun c => (b c).widen)) (hf : f.RespectedBy (fun c => (b c).widen))
    (hon : j.on.truth F b = some true) : columns.map (fun c => (b c).widen) = hash.map (fun c => (b c).widen) :=
  map_eq_of_agree h haligned he hf (hj.agree hon)

end HashJoin

/-- A logical join is made into a hash join by pairs of columns that its condition equates. -/
theorem Rule.keyed_of_mem {σ κ : Type} {ctx : RuleContext σ κ} {columns after : Columns} {e : Expr}
    {alternatives : List Expr} (hrun : (joinToHashJoin.transform ctx e).run columns = (.ok alternatives, after))
    {j : HashJoin} {inputs : List Expr} (hj : .ofPhysical (.hashJoin j) inputs ∈ alternatives) : j.Keyed := by
  have h : Yields (joinToHashJoin.transform ctx e) columns
      (fun alternatives _ => ∀ j inputs, .ofPhysical (.hashJoin j) inputs ∈ alternatives → j.Keyed) (fun _ _ => True) := by
    unfold joinToHashJoin
    dsimp only
    split
    · refine (Yields.any _ _).bind fun leftColumns _ _ => (Yields.any _ _).bind fun right _ _ => ?_
      split
      · exact Yields.of_pure fun j inputs hj => absurd hj List.not_mem_nil
      · refine Yields.of_pure fun j inputs hj => ?_
        cases List.mem_singleton.1 hj
        refine ⟨(List.length_map _).trans (List.length_map _).symm, fun k hk => ?_⟩
        rw [List.zip_map'] at hk
        obtain ⟨key, hkey, rfl⟩ := List.mem_map.1 hk
        exact (equates_of_mem_joinKeys hkey).1
    · exact Yields.of_pure fun j inputs hj => absurd hj List.not_mem_nil
  exact h.of_ok hrun j inputs hj

section

variable {j : HashJoin} {p : Position} {left right : LogicalProperties} {outer : Derived} {request : Nat}
  {wanted : RequiredDistribution}

theorem HashJoin.exists_requiredInput (hinputs : p.inputs = [left, right])
    (h : j.innerDistribution left.equivalences request outer.distribution = some wanted) :
    ∃ asked, (PhysicalOp.hashJoin j).requiredInput p request 1 [outer] = some asked ∧ asked.distribution = wanted := by
  simp only [PhysicalOp.requiredInput, HashJoin.requiredInput, hinputs]
  simp [h]

/-- Inner rows are moved to where the outer rows with the same keys are. -/
def HashJoin.Colocates (j : HashJoin) (left right : EquivalenceClasses) (outer inner : Distribution) : Prop :=
  ∃ columns hash, outer = .hashed columns ∧ inner = .hashed hash ∧
    ∀ o i : Binding, left.RespectedBy o → right.RespectedBy i → j.Agree o i → columns.map o = hash.map i

/-- Below outer rows that are moved by hash, inner rows with the same keys have the same values in the hash columns. A
`NOT IN` has to see all inner rows; they are on every segment, unless the outer rows are on one node. -/
theorem PhysicalOp.hashJoin_colocates (hj : j.Keyed) (hinputs : p.inputs = [left, right]) :
    (j.type ≠ .leftAntiSemiNotIn → ∀ (outer : Derived) (asked : Required) (subset : Bool),
      (hashJoin j).requiredInput p 0 0 [] = some asked →
      outer.distribution.satisfies asked.distribution left.equivalences subset = true →
      ∃ columns keys askedInner, outer.distribution = .hashed columns ∧
        j.matchingKeys? left.equivalences columns = some keys ∧
        (hashJoin j).requiredInput p 0 1 [outer] = some askedInner ∧ askedInner.distribution = .exactHashed keys ∧
        ∀ (inner : Distribution) (subset' : Bool),
          inner.satisfies askedInner.distribution right.equivalences subset' = true →
          j.Colocates left.equivalences right.equivalences outer.distribution inner) ∧
    (j.type = .leftAntiSemiNotIn → ∀ request ≤ 1, ∀ outer : Derived, outer.distribution.isSingleton = false →
      ∃ askedInner, (hashJoin j).requiredInput p request 1 [outer] = some askedInner ∧
        ∀ (inner : Distribution) (e : EquivalenceClasses) (subset : Bool),
          inner.satisfies askedInner.distribution e subset = true → inner = .replicated ∨ inner = .universal) := by
  constructor
  · intro htype outer asked subset hasked houter
    have hwanted := HashJoin.outerDistribution_of_requiredInput hasked
    change (if j.leftKeys.isEmpty then none else some (.hashed j.leftKeys)) = some asked.distribution at hwanted
    split at hwanted
    · cases hwanted
    rw [← Option.some.inj hwanted] at houter
    obtain ⟨columns, hcolumns⟩ := Distribution.eq_hashed_of_satisfies rfl houter
    rw [hcolumns] at houter
    obtain ⟨keys, hkeys⟩ := HashJoin.exists_matchingKeys hj (Distribution.covered_of_satisfies houter)
    have hinner : j.innerDistribution left.equivalences 0 outer.distribution = some (.exactHashed keys) := by
      simp [HashJoin.innerDistribution, htype, hcolumns, hkeys]
    obtain ⟨askedInner, haskedInner, heq⟩ := HashJoin.exists_requiredInput hinputs hinner
    refine ⟨columns, keys, askedInner, hcolumns, hkeys, haskedInner, heq, fun inner subset' h => ?_⟩
    obtain ⟨hash, hhash, haligned⟩ := Distribution.exists_hash_of_satisfies (heq ▸ h)
    exact ⟨columns, hash, hcolumns, hhash, fun o i => HashJoin.map_eq_of_agree hkeys haligned⟩
  · intro htype request hrequest outer hsingle
    have hinner : j.innerDistribution left.equivalences request outer.distribution = some .mandatoryReplicated := by
      simp [HashJoin.innerDistribution, hrequest, htype, hsingle]
    obtain ⟨askedInner, haskedInner, heq⟩ := HashJoin.exists_requiredInput hinputs hinner
    refine ⟨askedInner, haskedInner, fun inner e subset h => ?_⟩
    rw [heq, Distribution.satisfies_replicated rfl] at h
    cases inner with
    | replicated => exact .inl rfl
    | universal => exact .inr rfl
    | _ => cases h

/-- A join of years and their regions with sales. -/
def regionalSales (type : JoinType) : HashJoin :=
  ⟨type, .and (.binary (.column 1) .eq (.column 3)) (.binary (.column 4) .eq (.column 2)), [1, 2], [3, 4], []⟩

theorem keyed_regionalSales (type : JoinType) : (regionalSales type).Keyed :=
  ⟨rfl, List.forall_mem_cons.2 ⟨⟨_, List.mem_cons_self .., .inl rfl⟩,
    List.forall_mem_singleton.2 ⟨_, List.mem_cons_of_mem _ (List.mem_singleton.2 rfl), .inr rfl⟩⟩⟩

/-- Either input has its region in two columns. -/
def regionalPosition : Position :=
  ⟨.none, .empty, [{ LogicalProperties.empty with equivalences := ⟨[.ofList [2, 5]]⟩ },
    { LogicalProperties.empty with equivalences := ⟨[.ofList [4, 6]]⟩ }]⟩

/-- Years moved by the second region column first go with sales that are moved by region first. -/
theorem hashJoin_colocates_regionalSales :
    (∃ asked askedInner, (PhysicalOp.hashJoin (regionalSales .inner)).requiredInput regionalPosition 0 0 [] = some asked ∧
      (Distribution.hashed [5, 1]).satisfies asked.distribution ⟨[.ofList [2, 5]]⟩ false = true ∧
      (PhysicalOp.hashJoin (regionalSales .inner)).requiredInput regionalPosition 0 1
        [.ofDistribution (.hashed [5, 1])] = some askedInner ∧ askedInner.distribution = .exactHashed [4, 3] ∧
      (Distribution.hashed [6, 3]).satisfies askedInner.distribution ⟨[.ofList [4, 6]]⟩ false = true ∧
      (regionalSales .inner).Colocates ⟨[.ofList [2, 5]]⟩ ⟨[.ofList [4, 6]]⟩ (.hashed [5, 1]) (.hashed [6, 3])) ∧
    ∃ askedInner, (PhysicalOp.hashJoin (regionalSales .leftAntiSemiNotIn)).requiredInput regionalPosition 0 1
        [.ofDistribution (.hashed [5, 1])] = some askedInner ∧
      ∀ inner : Distribution, inner.satisfies askedInner.distribution .none false = true →
        inner = .replicated ∨ inner = .universal := by
  constructor
  · obtain ⟨columns, keys, askedInner, hcolumns, hkeys, hasked, heq, hinner⟩ :=
      (PhysicalOp.hashJoin_colocates (keyed_regionalSales .inner) (p := regionalPosition) rfl).1 (by decide)
        (.ofDistribution (.hashed [5, 1])) _ false rfl (by decide)
    cases hcolumns
    obtain rfl : [4, 3] = keys := Option.some.inj hkeys
    have hsatisfied : (Distribution.hashed [6, 3]).satisfies (.exactHashed [4, 3]) ⟨[.ofList [4, 6]]⟩ false = true := by
      decide
    exact ⟨_, askedInner, rfl, by decide, hasked, heq, heq ▸ hsatisfied, hinner _ false (heq ▸ hsatisfied)⟩
  · obtain ⟨askedInner, hasked, hinner⟩ :=
      (PhysicalOp.hashJoin_colocates (keyed_regionalSales .leftAntiSemiNotIn) (p := regionalPosition) rfl).2 rfl 0
        (Nat.zero_le 1) (.ofDistribution (.hashed [5, 1])) rfl
    exact ⟨askedInner, hasked, fun inner => hinner inner .none false⟩

end

end Cascade
