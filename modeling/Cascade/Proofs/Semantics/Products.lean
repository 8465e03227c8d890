import Cascade.Proofs.Semantics.Agreement
import Cascade.Proofs.Semantics.Conjunction

/-!
Filters and joins. An inner join is a filter above all pairs of rows; pairs are formed in any order and
grouping, and a filter that ignores the columns of one side can be applied to the other side first. Outer and
semi joins let a filter pass to the input whose rows they keep.
-/

namespace Cascade

/-- A test depends on the values of other columns only. -/
def Ignores (p : Binding → Bool) (hidden : ColumnSet) : Prop :=
  ∀ b b' : Binding, (∀ c, c ∉ hidden → b c = b' c) → p b = p b'

theorem Scalar.ignores_holds {F : Functions} {e : Scalar} {hidden : ColumnSet} (h : ∀ c ∈ e.columns, c ∉ hidden) :
    Ignores (fun b => e.holds F b) hidden :=
  fun _ _ hb => holds_congr fun c hc => hb c (h c hc)

namespace Binding

variable {b : Binding} {l r : Row} {left right : ColumnSet}

/-- A merged row hides from a binding what its left part hides, apart from the columns only the right one has. -/
theorem with_merge_left (hl : l.Over left) (hr : r.Over right) {c : ColumnId} (hc : c ∉ right \ left) :
    b.with (l.merge r) c = b.with l c := by
  unfold Binding.with Row.merge
  by_cases hcl : c ∈ left
  · obtain ⟨v, hv⟩ := Option.isSome_iff_exists.1 ((hl c).2 hcl)
    rw [hv, Option.some_or]
  · rw [hr.eq_none fun hcr => hc (SortedSet.mem_diff.2 ⟨hcr, hcl⟩), Option.or_none]

theorem with_merge_right (hl : l.Over left) {c : ColumnId} (hc : c ∉ left) :
    b.with (l.merge r) c = b.with r c := by
  unfold Binding.with Row.merge
  rw [hl.eq_none hc, Option.none_or]

end Binding

theorem Row.merge_left {a : Row} {left : ColumnSet} (ha : a.Over left) {c : ColumnId} (hc : c ∈ left) (r : Row) :
    a.merge r c = a c := by
  obtain ⟨v, hv⟩ := Option.isSome_iff_exists.1 ((ha c).2 hc)
  rw [merge_of_some hv, hv]

theorem Row.merge_assoc (l m r : Row) : (l.merge m).merge r = l.merge (m.merge r) :=
  funext fun _ => Option.or_assoc ..

theorem Row.merge_comm {l r : Row} {left right : ColumnSet} (hl : l.Over left) (hr : r.Over right)
    (h : ∀ c ∈ left, c ∉ right) : l.merge r = r.merge l := by
  funext c
  unfold Row.merge
  by_cases hc : c ∈ left
  · rw [hr.eq_none (h c hc), Option.or_none, Option.none_or]
  · rw [hl.eq_none hc, Option.or_none, Option.none_or]

/-- What is bound to elements that a test accepts, if the results tell which these are. -/
theorem filter_bind_of_iff {α β : Type} {M : Multiset α} {f : α → Multiset β} {p : α → Prop} {q : β → Prop}
    [DecidablePred p] [DecidablePred q] (h : ∀ a ∈ M, ∀ b ∈ f a, (q b ↔ p a)) :
    (M.bind f).filter q = (M.filter p).bind f := by
  rw [Multiset.filter_bind, Multiset.bind_filter]
  refine Multiset.bind_congr fun a ha => ?_
  split
  · rename_i hp
    exact Multiset.filter_eq_self.2 fun b hb => (h a ha b hb).2 hp
  · rename_i hp
    exact Multiset.filter_eq_nil.2 fun b hb hq => hp ((h a ha b hb).1 hq)

theorem JoinType.mem_contribution {type : JoinType} {on : Row → Truth} {pad l t : Row} {rs : Multiset Row}
    (h : t ∈ type.contribution on pad l rs) : t = l ∨ (∃ r ∈ rs, t = l.merge r) ∨ t = l.merge pad := by
  have hmatched : t ∈ matched on l rs → ∃ r ∈ rs, t = l.merge r := fun ht => by
    obtain ⟨r, hr, rfl⟩ := Multiset.mem_map.1 (Multiset.mem_of_mem_filter ht)
    exact ⟨r, hr, rfl⟩
  cases type <;> simp only [contribution] at h
  case inner | rightOuter => exact .inr (.inl (hmatched h))
  all_goals split at h
  all_goals first
    | exact .inr (.inl (hmatched h))
    | exact absurd h (Multiset.notMem_zero t)
    | exact .inl (Multiset.mem_singleton.1 h)
    | exact .inr (.inr (Multiset.mem_singleton.1 h))

/-- What a left row contributes to a join has its values. -/
theorem JoinType.eq_of_mem_contribution {type : JoinType} {on : Row → Truth} {pad l t : Row} {rs : Multiset Row}
    (h : t ∈ type.contribution on pad l rs) {left : ColumnSet} (hl : l.Over left) {c : ColumnId} (hc : c ∈ left) :
    t c = l c := by
  rcases mem_contribution h with rfl | ⟨r, -, rfl⟩ | rfl
  · rfl
  · exact Row.merge_left hl hc r
  · exact Row.merge_left hl hc pad

namespace Relation

theorem ext_rows : ∀ {R R' : Relation}, R.columns = R'.columns → (∀ s, R.rows s = R'.rows s) → R = R'
  | ⟨_, _, _⟩, ⟨_, _, _⟩, hc, hr => by
    obtain rfl := hc
    obtain rfl := funext hr
    rfl

variable {L R T : Relation} {p q : Binding → Bool}

/-- All pairs of rows. -/
def times (L R : Relation) : Relation := L.join .inner (fun _ => some true) R

theorem rows_times (L R : Relation) (s : Scope) :
    (L.times R).rows s = (L.rows s).bind (fun l => (R.rows s).map l.merge) := by
  change (L.rows s).bind _ + 0 = _
  rw [add_zero]
  refine Multiset.bind_congr fun l _ => ?_
  exact Multiset.filter_eq_self.2 fun _ _ => rfl

theorem filter_filter (R : Relation) (p q : Binding → Bool) :
    (R.filter p).filter q = R.filter (fun b => p b && q b) := by
  refine ext_rows rfl fun s => ?_
  change ((R.rows s).filter _).filter _ = (R.rows s).filter _
  rw [Multiset.filter_filter]
  exact Multiset.filter_congr fun r _ => by rw [Bool.and_eq_true, and_comm]

theorem filter_congr {p q : Binding → Bool} (h : ∀ b, p b = q b) : R.filter p = R.filter q :=
  congrArg _ (funext h)

theorem filter_true (R : Relation) : R.filter (fun _ => true) = R :=
  ext_rows rfl fun _ => Multiset.filter_eq_self.2 fun _ _ => rfl

theorem join_inner (on : Binding → Truth) (L R : Relation) :
    L.join .inner on R = (L.times R).filter (fun b => on b = some true) := by
  refine ext_rows rfl fun s => ?_
  change (L.rows s).bind _ + 0 = ((L.times R).rows s).filter _
  rw [add_zero, rows_times, Multiset.filter_bind]
  refine Multiset.bind_congr fun l _ => Multiset.filter_congr fun r _ => ?_
  exact decide_eq_true_iff.symm

theorem times_assoc (L R T : Relation) : (L.times R).times T = L.times (R.times T) := by
  refine ext_rows ?_ fun s => ?_
  · refine SortedSet.ext_mem fun c => ?_
    change c ∈ (L.columns ∪ R.columns) ∪ T.columns ↔ c ∈ L.columns ∪ (R.columns ∪ T.columns)
    simp only [SortedSet.mem_union, or_assoc]
  · simp only [rows_times, Multiset.bind_assoc, Multiset.bind_map, Multiset.map_bind, Multiset.map_map,
      Function.comp_def, Row.merge_assoc]

theorem times_comm (h : ∀ c ∈ L.columns, c ∉ R.columns) : L.times R = R.times L := by
  refine ext_rows ?_ fun s => ?_
  · refine SortedSet.ext_mem fun c => ?_
    change c ∈ L.columns ∪ R.columns ↔ c ∈ R.columns ∪ L.columns
    simp only [SortedSet.mem_union, or_comm]
  · rw [rows_times, rows_times, Multiset.bind_map_comm]
    refine Multiset.bind_congr fun r hr => Multiset.map_congr rfl fun l hl => ?_
    exact Row.merge_comm (L.rows_over s l hl) (R.rows_over s r hr) h

theorem times_unit (R : Relation) : R.times unit = R := by
  refine ext_rows ?_ fun s => ?_
  · refine SortedSet.ext_mem fun c => ?_
    change c ∈ R.columns ∪ ∅ ↔ c ∈ R.columns
    exact SortedSet.mem_union.trans (or_iff_left List.not_mem_nil)
  · rw [rows_times]
    change (R.rows s).bind (fun l => Multiset.map l.merge {fun _ => none}) = R.rows s
    simp only [Multiset.map_singleton, Multiset.bind_singleton]
    exact (Multiset.map_congr rfl fun l _ => funext fun c => Option.or_none).trans (Multiset.map_id _)

/-- A filter that ignores what only the right side has is one of the left side. -/
theorem filter_times (hp : Ignores p (R.columns \ L.columns)) : (L.filter p).times R = (L.times R).filter p := by
  refine ext_rows rfl fun s => ?_
  rw [rows_times]
  change ((L.rows s).filter _).bind _ = ((L.times R).rows s).filter _
  rw [rows_times]
  refine (filter_bind_of_iff fun l hl t ht => ?_).symm
  obtain ⟨r, hr, rfl⟩ := Multiset.mem_map.1 ht
  rw [hp _ _ fun c hc => Binding.with_merge_left (L.rows_over s l hl) (R.rows_over s r hr) hc]

/-- A filter that ignores the left side is one of the right side. -/
theorem times_filter (hp : Ignores p L.columns) : L.times (R.filter p) = (L.times R).filter p := by
  refine ext_rows rfl fun s => ?_
  change (L.times (R.filter p)).rows s = ((L.times R).rows s).filter _
  rw [rows_times, rows_times, Multiset.filter_bind]
  refine Multiset.bind_congr fun l hl => ?_
  rw [Multiset.filter_map]
  refine congrArg _ (Multiset.filter_congr fun r _ => ?_)
  change _ ↔ p (s.binding.with (l.merge r)) = true
  rw [hp _ _ fun c hc => Binding.with_merge_right (L.rows_over s l hl) hc]

/-- A filter passes a join on the left, unless the join keeps rows of the right side. -/
theorem filter_join_left {type : JoinType} (htype : type ≠ .rightOuter) (on : Binding → Truth)
    (hp : Ignores p (R.columns \ L.columns)) : (L.filter p).join type on R = (L.join type on R).filter p := by
  refine ext_rows rfl fun s => ?_
  simp only [join, filter, if_neg htype, add_zero]
  refine (filter_bind_of_iff fun l hl t ht => ?_).symm
  have hmerge : ∀ r, r.Over R.columns → p (s.binding.with (l.merge r)) = p (s.binding.with l) := fun r hr =>
    hp _ _ fun c hc => Binding.with_merge_left (L.rows_over s l hl) hr hc
  rcases JoinType.mem_contribution ht with rfl | ⟨r, hr, rfl⟩ | rfl
  · rfl
  · rw [hmerge r (R.rows_over s r hr)]
  · rw [hmerge _ (Row.over_nulls _)]

/-- A filter passes a join that keeps rows of the right side on the right. -/
theorem filter_join_right (on : Binding → Truth) (hp : Ignores p L.columns) :
    L.join .rightOuter on (R.filter p) = (L.join .rightOuter on R).filter p := by
  have hright : ∀ {s : Scope} {l r : Row}, l.Over L.columns →
      p (s.binding.with (l.merge r)) = p (s.binding.with r) := fun hl =>
    hp _ _ fun c hc => Binding.with_merge_right hl hc
  refine ext_rows rfl fun s => ?_
  simp only [join, filter, if_pos, Multiset.filter_add, Multiset.filter_bind]
  congr 1
  · refine Multiset.bind_congr fun l hl => ?_
    simp only [JoinType.contribution, JoinType.matched, Multiset.filter_map, Multiset.filter_filter]
    refine congrArg _ (Multiset.filter_congr fun r _ => ?_)
    simp only [Function.comp_apply, hright (L.rows_over s l hl), and_comm]
  · simp only [JoinType.unmatched, Multiset.filter_map, Multiset.filter_filter]
    refine congrArg _ (Multiset.filter_congr fun r _ => ?_)
    simp only [Function.comp_apply, hright (Row.over_nulls _), and_comm]

/-- The matches of all rows are the pairs that satisfy the condition. -/
theorem bind_matched (L R : Relation) (on : Row → Truth) (s : Scope) :
    (L.rows s).bind (fun l => JoinType.matched on l (R.rows s)) =
      ((L.times R).rows s).filter (fun r => on r = some true) := by
  rw [rows_times, Multiset.filter_bind]
  rfl

/-- A left outer join is the matches and the left rows without a match. -/
theorem rows_leftOuter (on : Binding → Truth) (L R : Relation) (s : Scope) :
    (L.join .leftOuter on R).rows s =
      ((L.times R).rows s).filter (fun r => on (s.binding.with r) = some true) +
        ((L.rows s).filter (fun l => (JoinType.matched (fun r => on (s.binding.with r)) l (R.rows s)).card = 0)).map
          (fun l => l.merge (.nulls R.columns)) := by
  have hpadded : ∀ l ∈ L.rows s,
      JoinType.leftOuter.contribution (fun r => on (s.binding.with r)) (.nulls R.columns) l (R.rows s) =
        JoinType.matched (fun r => on (s.binding.with r)) l (R.rows s) +
          if (JoinType.matched (fun r => on (s.binding.with r)) l (R.rows s)).card = 0
            then {l.merge (.nulls R.columns)} else 0 := by
    intro l _
    simp only [JoinType.contribution]
    split
    · rename_i hcard
      rw [Multiset.card_eq_zero.1 hcard, zero_add]
    · rw [add_zero]
  simp only [join, reduceCtorEq, if_false, add_zero]
  rw [Multiset.bind_congr hpadded, Multiset.bind_add, bind_matched, ← Multiset.bind_filter, Multiset.bind_singleton]

/-- A join that keeps the rows of the left side is one the other way round. -/
theorem leftOuter_eq_rightOuter (on : Binding → Truth) (h : ∀ c ∈ L.columns, c ∉ R.columns) :
    L.join .leftOuter on R = R.join .rightOuter on L := by
  have hcolumns : (L.times R).columns = (R.times L).columns := by rw [times_comm h]
  refine ext_rows hcolumns fun s => ?_
  rw [rows_leftOuter, times_comm h, ← bind_matched]
  simp only [join, if_pos, JoinType.unmatched]
  refine congrArg₂ _ rfl ?_
  have hmerge : ∀ l ∈ L.rows s, ∀ r, r.Over R.columns → l.merge r = r.merge l := fun l hl r hr =>
    Row.merge_comm (L.rows_over s l hl) hr h
  have hcard : ∀ l ∈ L.rows s, (JoinType.matched (fun r => on (s.binding.with r)) l (R.rows s)).card =
      ((R.rows s).filter (fun r => on (s.binding.with (r.merge l)) = some true)).card := by
    intro l hl
    rw [JoinType.matched, Multiset.filter_map, Multiset.card_map]
    refine congrArg _ (Multiset.filter_congr fun r hr => ?_)
    rw [Function.comp_apply, hmerge l hl r (R.rows_over s r hr)]
  rw [Multiset.filter_congr fun l hl => by rw [hcard l hl]]
  exact Multiset.map_congr rfl fun l hl => hmerge l (Multiset.mem_of_mem_filter hl) _ (Row.over_nulls _)

end Relation
end Cascade
