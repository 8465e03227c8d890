import Cascade.Proofs.Semantics.Pruning
import Cascade.Proofs.Semantics.Scans
import Cascade.Proofs.Stateful
import Cascade.Rule.Implementation

/-!
Partition elimination by a hash join. The rows that a listed scan need not read have other values in the
partition column than the left key has, so they match no left row.
-/

namespace Cascade

/-- The values a column of a left input selects. -/
def Relation.selects (L : Relation) (k : ColumnId) (scope : Scope) (v : Value) : Bool :=
  decide (((L.rows scope).filter (fun l => (scope.binding.with l k).equals v = true)).card ≠ 0)

theorem Relation.selects_iff {L : Relation} {k : ColumnId} {scope : Scope} {v : Value} :
    L.selects k scope v = true ↔ ∃ l ∈ L.rows scope, (scope.binding.with l k).equals v = true := by
  unfold selects
  rw [decide_eq_true_iff, ← Nat.pos_iff_ne_zero, Multiset.card_pos_iff_exists_mem]
  exact exists_congr fun l => Multiset.mem_filter

theorem Relation.selects_null (L : Relation) (k : ColumnId) (scope : Scope) : L.selects k scope .null = false := by
  rw [← Bool.not_eq_true, selects_iff]
  rintro ⟨l, -, h⟩
  rw [Value.equals_null] at h
  cases h

namespace JoinType

variable {on : Row → Truth} {pad l : Row} {rs rs' : Multiset Row}

/-- Apart from `NOT IN`, a left row looks at matching rows only. -/
theorem contribution_congr {type : JoinType} (htype : type ≠ .leftAntiSemiNotIn)
    (h : matched on l rs = matched on l rs') : type.contribution on pad l rs = type.contribution on pad l rs' := by
  cases type with
  | leftAntiSemiNotIn => exact absurd rfl htype
  | _ => simp only [contribution, h]

theorem matched_congr {p : ColumnId} {keep : Value → Bool}
    (hon : ∀ r ∈ rs, on (l.merge r) = some true → r.Has p keep)
    (hon' : ∀ r ∈ rs', on (l.merge r) = some true → r.Has p keep)
    (h : rs.filter (Row.Has p keep) = rs'.filter (Row.Has p keep)) : matched on l rs = matched on l rs' := by
  have hkept : ∀ {L : Multiset Row}, (∀ r ∈ L, on (l.merge r) = some true → r.Has p keep) →
      matched on l L = matched on l (L.filter (Row.Has p keep)) := by
    intro L hL
    unfold matched
    rw [Multiset.filter_map, Multiset.filter_map, Multiset.filter_filter]
    exact congrArg _ (Multiset.filter_congr fun r hr => (and_iff_left_of_imp (hL r hr)).symm)
  rw [hkept hon, hkept hon', h]

end JoinType

/-- A condition equates a left column with a right one. -/
def Scalar.Equates (on : Scalar) (k p : ColumnId) : Prop :=
  ∃ e ∈ on.conjuncts, e.columnEquality? = some (k, p) ∨ e.columnEquality? = some (p, k)

theorem Scalar.Equates.equals {on : Scalar} {k p : ColumnId} (h : on.Equates k p) {F : Functions} {b : Binding}
    (hon : on.truth F b = some Bool.true) : (b k).equals (b p) = Bool.true := by
  obtain ⟨e, he, heq⟩ := h
  have hholds := (holds_iff_conjuncts on).1 (holds_iff.2 hon) e he
  rcases heq with heq | heq
  · rwa [holds_columnEquality heq] at hholds
  · rwa [holds_columnEquality heq, Value.equals_comm] at hholds

namespace Relation

variable {L R R' : Relation} {k p : ColumnId} {scope : Scope}

/-- A right row matches only if its value is selected by the left input. -/
theorem has_of_match {on : Scalar} (hon : on.Equates k p) (hk : k ∉ R.columns) (hpL : p ∉ L.columns)
    (hpR : p ∈ R.columns) {F : Functions} {l r : Row} (hl : l ∈ L.rows scope) (hr : r ∈ R.rows scope)
    (h : on.truth F (scope.binding.with (l.merge r)) = some true) : r.Has p (L.selects k scope) := by
  obtain ⟨v, hv⟩ := Option.isSome_iff_exists.1 ((R.rows_over scope r hr p).2 hpR)
  have hp : scope.binding.with (l.merge r) p = v :=
    Binding.with_of_some ((Row.merge_of_none ((L.rows_over scope l hl).eq_none hpL) r).trans hv)
  have hkey : scope.binding.with (l.merge r) k = scope.binding.with l k := by
    unfold Binding.with Row.merge
    rw [(R.rows_over scope r hr).eq_none hk, Option.or_none]
  have hequal := hon.equals h
  rw [hp, hkey] at hequal
  unfold Row.Has
  rw [hv, Option.any_some, selects_iff]
  exact ⟨l, hl, hequal⟩

/-- A join does not see what its key column does not select on the right. -/
theorem join_rows_congr {type : JoinType} (hright : type ≠ .rightOuter) (hnotIn : type ≠ .leftAntiSemiNotIn)
    {on : Scalar} (hon : on.Equates k p) (hk : k ∉ R.columns) (hp : p ∉ L.columns)
    (h : AgreeOn p (L.selects k scope) R' R) (F : Functions) :
    (L.join type (fun b => on.truth F b) R').rows scope = (L.join type (fun b => on.truth F b) R).rows scope := by
  simp only [join, if_neg hright, add_zero, h.columns]
  refine Multiset.bind_congr fun l hl => JoinType.contribution_congr hnotIn ?_
  refine JoinType.matched_congr ?_ ?_ (h.rows scope)
  · exact fun r hr => has_of_match hon (h.columns ▸ hk) hp (h.columns ▸ h.mem) hl hr
  · exact fun r hr => has_of_match hon hk hp h.mem hl hr

end Relation

namespace Rule

theorem equates_of_mem_joinKeys {on : Scalar} {left right : ColumnSet} {k p : ColumnId}
    (h : (k, p) ∈ joinKeys on left right) : on.Equates k p ∧ k ∈ left ∧ p ∈ right := by
  obtain ⟨⟨a, b⟩, hab, h⟩ := List.mem_filterMap.1 h
  obtain ⟨e, he, heq⟩ := List.mem_filterMap.1 hab
  dsimp only at h
  split at h
  · rename_i hin
    cases h
    exact ⟨⟨e, he, .inl heq⟩, hin⟩
  · split at h
    · rename_i hin
      cases h
      exact ⟨⟨e, he, .inr heq⟩, hin⟩
    · cases h

theorem key_of_mem_eliminatedScans {type : JoinType} {keys : List (ColumnId × ColumnId)}
    {consumers : SortedMap ScanId ColumnId} {s : ScanId} {k : ColumnId}
    (h : (s, k) ∈ eliminatedScans type keys consumers) :
    type ≠ .rightOuter ∧ ∃ p, (s, p) ∈ consumers.entries ∧ (k, p) ∈ keys := by
  unfold eliminatedScans at h
  split at h
  · cases h
  · rename_i htype
    refine ⟨htype, ?_⟩
    obtain ⟨⟨s', p⟩, hentry, h⟩ := List.mem_filterMap.1 h
    obtain ⟨⟨k', p'⟩, hfind, h⟩ := Option.map_eq_some_iff.1 h
    cases h
    obtain rfl : p' = p := by simpa using List.find?_some hfind
    exact ⟨p', hentry, List.mem_of_find?_eq_some hfind⟩

variable {σ κ : Type} {ctx : RuleContext σ κ} {columns after : Columns}

theorem yields_properties (e : Expr) : Yields (ctx.properties e) columns
    (fun p t => t = columns ∧ ctx.memo.derive (ctx.source columns) e = .ok p) (fun _ _ => True) :=
  Yields.bind_get (Yields.of_lift (fun _ hp => ⟨rfl, hp⟩) (fun _ _ => trivial))

/-- A hash join lists the scans of its right input that a left key selects. -/
theorem partitionScans_of_mem {type : JoinType} {on : Scalar} {left right : Expr} {alternatives : List Expr}
    (hrun : (joinToHashJoin.transform ctx (.ofLogical (.join type on) [left, right])).run columns =
      (.ok alternatives, after)) {j : HashJoin} {inputs : List Expr}
    (hj : .ofPhysical (.hashJoin j) inputs ∈ alternatives) :
    ∃ l r, ctx.memo.derive (ctx.source columns) left = .ok l ∧ ctx.memo.derive (ctx.source columns) right = .ok r ∧
      j.partitionScans = eliminatedScans type (joinKeys on l.output r.output) r.partitionConsumers := by
  have h : Yields (joinToHashJoin.transform ctx (.ofLogical (.join type on) [left, right])) columns
      (fun alternatives _ => ∀ j inputs, .ofPhysical (.hashJoin j) inputs ∈ alternatives →
        ∃ l r, ctx.memo.derive (ctx.source columns) left = .ok l ∧
          ctx.memo.derive (ctx.source columns) right = .ok r ∧
          j.partitionScans = eliminatedScans type (joinKeys on l.output r.output) r.partitionConsumers)
      (fun _ _ => True) := by
    refine (Yields.bind_iff ..).2 ((Yields.bind_iff ..).2 ((yields_properties left).mono ?_ fun _ _ _ => trivial))
    rintro l _ ⟨rfl, hl⟩
    refine Yields.of_pure ?_
    refine (yields_properties right).bind ?_
    rintro r _ ⟨rfl, hr⟩
    dsimp only
    split
    · exact Yields.of_pure fun j inputs hj => absurd hj List.not_mem_nil
    · refine Yields.of_pure fun j inputs hj => ?_
      cases List.mem_singleton.1 hj
      exact ⟨l, r, hl, hr, rfl⟩
  exact h.of_ok hrun j inputs hj

/-- The scans a hash join lists need not read the rows that no left row selects, where their partition column
is carried up to the join. -/
theorem joinToHashJoin_prunes (S : Interpretation) {c : Catalog} {cs : Columns}
    (hsource : (ctx.source columns).logical = LogicalOp.properties c cs) {type : JoinType} {on : Scalar}
    {left right : Expr} {alternatives : List Expr} {j : HashJoin} {inputs : List Expr} {s : ScanId} {k p : ColumnId}
    (hrun : (joinToHashJoin.transform ctx (.ofLogical (.join type on) [left, right])).run columns =
      (.ok alternatives, after))
    (hj : .ofPhysical (.hashJoin j) inputs ∈ alternatives) (hs : (s, k) ∈ j.partitionScans)
    (hnotIn : type ≠ .leftAntiSemiNotIn) (hleft : left.Closed) (hright : right.Closed)
    (hcarries : right.Carries S s p)
    (hdisjoint : ∀ x ∈ (left.meaning S).columns, x ∉ (right.meaning S).columns) (scope : Scope) :
    ((left.meaning S).join type (fun b => on.truth S.toFunctions b)
        (right.meaning (S.prune s ((left.meaning S).selects k scope)))).rows scope =
      ((Expr.ofLogical (.join type on) [left, right]).meaning S).rows scope := by
  obtain ⟨l, r, hl, hr, hscans⟩ := partitionScans_of_mem hrun hj
  obtain ⟨htype, p', hconsumer, hkey⟩ := key_of_mem_eliminatedScans (hscans ▸ hs)
  obtain ⟨g, is, hg, hscan, hcolumn⟩ := Expr.exists_get_of_consumer hsource hright hr hconsumer
  obtain rfl : p = p' := Option.some.inj ((hcarries.partitionColumn_eq hg hscan).symm.trans hcolumn)
  obtain ⟨hon, hk, hp⟩ := equates_of_mem_joinKeys hkey
  rw [← Expr.columns_meaning hsource (fun g hg => absurd hg (hleft g)) hl] at hk
  rw [← Expr.columns_meaning hsource (fun g hg => absurd hg (hright g)) hr] at hp
  rw [Expr.meaning_join]
  exact Relation.join_rows_congr htype hnotIn hon (hdisjoint k hk) (fun hpl => hdisjoint p hpl hp)
    (hcarries.agreeOn_prune (Relation.selects_null ..)) S.toFunctions

end Rule

section

/-- A catalog with one table, partitioned by its only column. -/
def salesCatalog : Catalog :=
  ⟨⟨[("sale", ⟨"sale", [⟨"year", "sale", .int32, true⟩], .random, some "year", [], none⟩)]⟩, ∅⟩

def salesColumns : Columns := ⟨#[⟨"wanted", .int32, none⟩, ⟨"year", .int32, some ⟨"sale", "sale"⟩⟩]⟩

def salesContext : RuleContext Unit Nat where
  memo := .empty true none
  group := ⟨0⟩
  catalog := salesCatalog
  config := {}
  hints := .none
  source columns := { logical := LogicalOp.properties salesCatalog columns, statistics := fun _ _ _ => .ok () }

def wantedYear : Expr := .ofLogical (.values ⟨[1], [[.int32 2024]]⟩) []

def sales : Expr := .ofLogical (.get ⟨"sale", "sale", [2], 1, some 2⟩) []

def salesYears : Expr :=
  .ofLogical (.aggregate ⟨[2], [], .single⟩) [.ofLogical (.select (.not (.isNull (.column 2)))) [sales]]

def isWanted : Scalar := .binary (.column 1) .eq (.column 2)

/-- A table of sales in some years. -/
noncomputable def salesIn (years : List Value) : Interpretation :=
  .ofTables (fun _ => ↑(years.map fun y => fun _ : String => y)) (fun _ => "year")

def outermost : Scope := ⟨fun _ => .null, fun _ => 0⟩

/-- Only one of two years is read for an outer join with the years of the sales. -/
theorem joinToHashJoin_prunes_salesYears :
    let S := salesIn [.int32 2024, .int32 2025]
    ∃ j, (Rule.joinToHashJoin.transform salesContext
        (.ofLogical (.join .leftOuter isWanted) [wantedYear, salesYears])).run salesColumns =
        (.ok [.ofPhysical (.hashJoin j) [wantedYear, salesYears]], salesColumns) ∧
      (1, 1) ∈ j.partitionScans ∧
      ((sales.meaning (S.prune 1 ((wantedYear.meaning S).selects 1 outermost))).rows outermost).card = 1 ∧
      ((wantedYear.meaning S).join .leftOuter (fun b => isWanted.truth S.toFunctions b)
          (salesYears.meaning (S.prune 1 ((wantedYear.meaning S).selects 1 outermost)))).rows outermost =
        ((Expr.ofLogical (.join .leftOuter isWanted) [wantedYear, salesYears]).meaning S).rows outermost := by
  intro S
  let j : HashJoin := ⟨.leftOuter, isWanted, [1], [2], [(1, 1)]⟩
  have hrun : (Rule.joinToHashJoin.transform salesContext
      (.ofLogical (.join .leftOuter isWanted) [wantedYear, salesYears])).run salesColumns =
      (.ok [.ofPhysical (.hashJoin j) [wantedYear, salesYears]], salesColumns) := rfl
  have hscans : (1, 1) ∈ j.partitionScans := List.mem_singleton.2 rfl
  have hleft : wantedYear.Closed := by
    intro g hg
    simp [wantedYear, Expr.ofLogical, Expr.subtrees, Expr.subtreesAll] at hg
  have hright : salesYears.Closed := by
    intro g hg
    simp [salesYears, sales, Expr.ofLogical, Expr.subtrees, Expr.subtreesAll] at hg
  have hcarries : salesYears.Carries S 1 2 :=
    .aggregate (.select (.get rfl rfl (List.mem_singleton.2 rfl))) (List.mem_singleton.2 rfl)
  have hdisjoint : ∀ x ∈ (wantedYear.meaning S).columns, x ∉ (salesYears.meaning S).columns := by
    intro x hx hx'
    obtain rfl := List.mem_singleton.1 hx
    exact absurd (List.mem_singleton.1 hx') (by decide)
  exact ⟨j, hrun, hscans, rfl, Rule.joinToHashJoin_prunes S rfl hrun (List.mem_singleton.2 rfl) hscans
    (by decide) hleft hright hcarries hdisjoint outermost⟩

/-- `NOT IN` lists the scan as well. Without the sale of no year, which rejects every left row, the left row is
kept. -/
theorem joinToHashJoin_misprunes_notIn :
    let S := salesIn [.null]
    ∃ j, (Rule.joinToHashJoin.transform salesContext
        (.ofLogical (.join .leftAntiSemiNotIn isWanted) [wantedYear, sales])).run salesColumns =
        (.ok [.ofPhysical (.hashJoin j) [wantedYear, sales]], salesColumns) ∧
      (1, 1) ∈ j.partitionScans ∧
      (((wantedYear.meaning S).join .leftAntiSemiNotIn (fun b => isWanted.truth S.toFunctions b)
          (sales.meaning (S.prune 1 ((wantedYear.meaning S).selects 1 outermost)))).rows outermost).card = 1 ∧
      (((Expr.ofLogical (.join .leftAntiSemiNotIn isWanted) [wantedYear, sales]).meaning S).rows outermost).card = 0 :=
  ⟨⟨.leftAntiSemiNotIn, isWanted, [1], [2], [(1, 1)]⟩, rfl, List.mem_singleton.2 rfl, rfl, rfl⟩

end

end Cascade
