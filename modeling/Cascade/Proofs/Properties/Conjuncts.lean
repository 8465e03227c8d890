import Mathlib.Data.List.Basic
import Cascade.Proofs.Semantics.Scalar

/-!
Conjuncts carry the columns of a predicate, and those it keeps from being `NULL`. A conjunction has the conjuncts
of its parts.
-/

namespace Cascade.Scalar

theorem eq_literal_of_isTrue {e : Scalar} (h : e.isTrue = Bool.true) : e = .true := by
  unfold isTrue at h
  split at h
  · rw [h, true]
  · cases h

theorem conjuncts_of_mem {e x : Scalar} (hx : x ∈ e.conjuncts) : x.conjuncts = [x] := by
  fun_induction conjuncts e with
  | case1 lhs rhs ihl ihr => exact (List.mem_append.1 hx).elim ihl ihr
  | case2 e _ _ => cases hx
  | case3 e hand htrue =>
    rw [List.mem_singleton.1 hx]
    unfold conjuncts
    split
    · exact absurd rfl (hand _ _)
    · rw [if_neg htrue]

theorem conjuncts_foldl_and (es : List Scalar) (e : Scalar) :
    (es.foldl and e).conjuncts = e.conjuncts ++ es.flatMap conjuncts := by
  induction es generalizing e with
  | nil => exact (List.append_nil _).symm
  | cons a es ih =>
    rw [List.foldl_cons, ih, List.flatMap_cons, ← List.append_assoc]
    rfl

theorem flatMap_conjuncts_filter (es : List Scalar) :
    (es.filter (fun e => !e.isTrue)).flatMap conjuncts = es.flatMap conjuncts := by
  induction es with
  | nil => rfl
  | cons e es ih =>
    rw [List.filter_cons, List.flatMap_cons]
    split
    · rw [List.flatMap_cons, ih]
    · rename_i h
      obtain rfl := eq_literal_of_isTrue (e := e) (by simpa using h)
      exact ih

/-- A conjunction has the conjuncts of what it joins. -/
theorem conjuncts_conjunction (es : List Scalar) : (conjunction es).conjuncts = es.flatMap conjuncts := by
  rw [← flatMap_conjuncts_filter]
  unfold conjunction
  split
  · rename_i h
    rw [h]
    rfl
  · rename_i e rest h
    rw [h, conjuncts_foldl_and, List.flatMap_cons]

theorem conjuncts_conjunction_of_forall {es : List Scalar} (h : ∀ e ∈ es, e.conjuncts = [e]) :
    (conjunction es).conjuncts = es := by
  rw [conjuncts_conjunction, List.flatMap_congr h, List.flatMap_singleton']

theorem mem_columns {e : Scalar} {c : ColumnId} : c ∈ e.columns ↔ ∃ x ∈ e.conjuncts, c ∈ x.columns := by
  fun_induction conjuncts e with
  | case1 lhs rhs ihl ihr =>
    rw [columns, SortedSet.mem_union, ihl, ihr]
    simp only [List.mem_append, or_and_right, exists_or]
  | case2 e _ htrue =>
    rw [eq_literal_of_isTrue htrue]
    simp [columns, Scalar.true, SortedSet.mem_def, EmptyCollection.emptyCollection, SortedSet.empty]
  | case3 e _ _ => simp

theorem mem_nullRejectingColumns {e : Scalar} {c : ColumnId} :
    c ∈ e.nullRejectingColumns ↔ ∃ x ∈ e.conjuncts, c ∈ x.nullRejectingColumns := by
  fun_induction conjuncts e with
  | case1 lhs rhs ihl ihr =>
    rw [nullRejectingColumns, SortedSet.mem_union, ihl, ihr]
    simp only [List.mem_append, or_and_right, exists_or]
  | case2 e _ htrue =>
    rw [eq_literal_of_isTrue htrue]
    simp [nullRejectingColumns, Scalar.true, SortedSet.mem_def, EmptyCollection.emptyCollection, SortedSet.empty]
  | case3 e _ _ => simp

theorem mem_normalConjuncts {e x : Scalar} : x ∈ e.normalConjuncts ↔ ∃ y ∈ e.conjuncts, x = y.normalize := by
  refine SortedSet.mem_ofList.trans (List.mem_map.trans (exists_congr fun y => and_congr_right fun _ => eq_comm))

theorem mem_columns_conjunction {es : List Scalar} {c : ColumnId} :
    c ∈ (conjunction es).columns ↔ ∃ e ∈ es, c ∈ e.columns := by
  rw [mem_columns, conjuncts_conjunction]
  constructor
  · rintro ⟨x, hx, hc⟩
    obtain ⟨e, he, hx⟩ := List.mem_flatMap.1 hx
    exact ⟨e, he, mem_columns.2 ⟨x, hx, hc⟩⟩
  · rintro ⟨e, he, hc⟩
    obtain ⟨x, hx, hc⟩ := mem_columns.1 hc
    exact ⟨x, List.mem_flatMap.2 ⟨e, he, hx⟩, hc⟩

theorem mem_argColumns {l : List Scalar} {c : ColumnId} : c ∈ argColumns l ↔ ∃ e ∈ l, c ∈ e.columns := by
  induction l with
  | nil => simp [argColumns, SortedSet.not_mem_empty]
  | cons e l ih => rw [argColumns, SortedSet.mem_union, ih, List.exists_mem_cons_iff]

theorem strictColumns_subset : ∀ {e : Scalar} {c : ColumnId}, c ∈ e.strictColumns → c ∈ e.columns
  | .column _, _, h => h
  | .cast arg _, _, h => strictColumns_subset (e := arg) h

/-- A predicate rejects `NULL` only in columns it mentions. -/
theorem nullRejectingColumns_subset {e : Scalar} {c : ColumnId} (h : c ∈ e.nullRejectingColumns) : c ∈ e.columns := by
  fun_induction nullRejectingColumns e with
  | case1 lhs rhs ihl ihr => exact SortedSet.mem_union.2 ((SortedSet.mem_union.1 h).imp ihl ihr)
  | case2 lhs rhs ihl ihr => exact SortedSet.mem_union.2 (.inl (ihl (SortedSet.mem_inter.1 h).1))
  | case3 lhs op rhs _ _ =>
    exact SortedSet.mem_union.2 ((SortedSet.mem_union.1 h).imp strictColumns_subset strictColumns_subset)
  | case4 arg => exact strictColumns_subset (e := arg) h
  | case5 e => exact absurd h List.not_mem_nil

mutual

/-- A normal form mentions the same columns. -/
theorem mem_columns_normalize {c : ColumnId} : ∀ {e : Scalar}, c ∈ e.normalize.columns ↔ c ∈ e.columns
  | .column _ | .literal _ => Iff.rfl
  | .not arg => mem_columns_normalize (e := arg)
  | .isNull arg => mem_columns_normalize (e := arg)
  | .cast arg _ => mem_columns_normalize (e := arg)
  | .call _ args => mem_argColumns_normalize (l := args)
  | .binary lhs op rhs => by
    have hl := mem_columns_normalize (c := c) (e := lhs)
    have hr := mem_columns_normalize (c := c) (e := rhs)
    have horder : ∀ op, c ∈ (orderOperands lhs.normalize op rhs.normalize).columns ↔
        c ∈ (Scalar.binary lhs op rhs).columns := by
      intro op
      unfold orderOperands
      split
      · rw [columns, columns, SortedSet.mem_union, SortedSet.mem_union, hl, hr, or_comm]
      · rw [columns, columns, SortedSet.mem_union, SortedSet.mem_union, hl, hr]
    cases op with
    | and =>
      rw [normalize, mem_columns_conjunction, columns, SortedSet.mem_union, ← hl, ← hr, mem_columns (e := lhs.normalize),
        mem_columns (e := rhs.normalize)]
      simp only [← SortedSet.mem_def, SortedSet.mem_ofList, List.mem_append, or_and_right, exists_or]
    | _ => exact horder _

theorem mem_argColumns_normalize {c : ColumnId} :
    ∀ {l : List Scalar}, c ∈ argColumns (normalizeArgs l) ↔ c ∈ argColumns l
  | [] => Iff.rfl
  | e :: es => by
    rw [normalizeArgs, argColumns, argColumns, SortedSet.mem_union, SortedSet.mem_union,
      mem_columns_normalize (e := e), mem_argColumns_normalize (l := es)]

end

end Cascade.Scalar
