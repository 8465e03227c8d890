import Mathlib.Algebra.BigOperators.Group.Multiset.Basic
import Mathlib.Data.Multiset.Fold
import Cascade.Proofs.Semantics.Query

/-!
The aggregate functions of SQL over the rows of a group. What they answer for a bag follows from what they answer
for its parts: counts are added up, sums as well, and the first of the first values is the first of all. There has
to be a part, since adding up no counts gives `NULL` and not zero.
-/

namespace Cascade

open Std

namespace Value

/-- The number an integer value stands for. -/
def integer? : Value → Option Int
  | int32 n => some n.toInt
  | int64 n => some n.toInt
  | _ => none

/-- The one of two values that comes first in an order; `NULL` only if there is no other. -/
def first (cmp : Value → Value → Ordering) (a b : Value) : Value :=
  if a.isNull then b else if b.isNull then a else if (cmp a b).isLE then a else b

theorem isNull_iff (a : Value) : a.isNull = true ↔ a = null := by cases a <;> simp [isNull]

section

variable (cmp : Value → Value → Ordering)

@[simp] theorem first_null (a : Value) : first cmp a null = a := by cases a <;> rfl

@[simp] theorem null_first (a : Value) : first cmp null a = a := rfl

theorem first_of_ne {a b : Value} (ha : a ≠ null) (hb : b ≠ null) :
    first cmp a b = if (cmp a b).isLE then a else b := by
  unfold first
  rw [if_neg fun h => ha ((isNull_iff a).1 h), if_neg fun h => hb ((isNull_iff b).1 h)]

theorem first_ne {a b : Value} (ha : a ≠ null) (hb : b ≠ null) : first cmp a b ≠ null := by
  rw [first_of_ne cmp ha hb]
  split
  · exact ha
  · exact hb

variable [TransCmp cmp]

theorem first_comm [LawfulEqCmp cmp] (a b : Value) : first cmp a b = first cmp b a := by
  by_cases ha : a = null
  · rw [ha, null_first, first_null]
  by_cases hb : b = null
  · rw [hb, null_first, first_null]
  have hswap : cmp b a = (cmp a b).swap := OrientedCmp.eq_swap
  rw [first_of_ne cmp ha hb, first_of_ne cmp hb ha, hswap]
  cases h : cmp a b with
  | eq => exact LawfulEqCmp.eq_of_compare h
  | lt | gt => rfl

theorem first_assoc (a b c : Value) : first cmp (first cmp a b) c = first cmp a (first cmp b c) := by
  by_cases ha : a = null
  · rw [ha, null_first, null_first]
  by_cases hb : b = null
  · rw [hb, null_first, first_null]
  by_cases hc : c = null
  · rw [hc, first_null, first_null]
  rw [first_of_ne cmp (first_ne cmp ha hb) hc, first_of_ne cmp ha (first_ne cmp hb hc), first_of_ne cmp ha hb,
    first_of_ne cmp hb hc]
  by_cases hab : (cmp a b).isLE <;> by_cases hbc : (cmp b c).isLE
  · have hac := TransCmp.isLE_trans hab hbc
    rw [if_pos hab, if_pos hbc, if_pos hab, if_pos hac]
  · rw [if_pos hab, if_neg hbc]
  · rw [if_neg hab, if_pos hbc, if_neg hab]
  · have hswap : cmp b a = (cmp a b).swap := OrientedCmp.eq_swap
    have hba : (cmp b a).isLE := by
      rw [hswap]
      cases h : cmp a b <;> simp_all
    have hac : ¬ (cmp a c).isLE := fun h => hbc (TransCmp.isLE_trans hba h)
    rw [if_neg hab, if_neg hbc, if_neg hac]

instance [LawfulEqCmp cmp] : Commutative (first cmp) := ⟨first_comm cmp⟩

instance : Associative (first cmp) := ⟨first_assoc cmp⟩

end

/-- The number of rows without a `NULL` argument: of all rows, if there are no arguments. -/
def countOf (rows : Multiset (List Value)) : Value :=
  .int64 (.ofInt (rows.filter (fun args => ∀ v ∈ args, v ≠ .null)).card)

/-- The integers among the arguments. -/
def summands (rows : Multiset (List Value)) : Multiset Int :=
  rows.filterMap (fun args => args.head?.bind integer?)

/-- The sum of the integers among the arguments; `NULL` if there are none. -/
def sumOf (rows : Multiset (List Value)) : Value :=
  if (summands rows).card = 0 then .null else .int64 (.ofInt (summands rows).sum)

/-- The argument that comes first in an order; `NULL` if there is none. -/
def firstOf (cmp : Value → Value → Ordering) [TransCmp cmp] [LawfulEqCmp cmp] (rows : Multiset (List Value)) : Value :=
  (rows.map (fun args => args.head?.getD .null)).fold (first cmp) .null

/-- A sum is exact as long as it is an integer of 64 bits. -/
theorem integer?_sumOf {rows : Multiset (List Value)} (h : summands rows ≠ 0)
    (hlow : -2 ^ 63 ≤ (summands rows).sum) (hhigh : (summands rows).sum < 2 ^ 63) :
    (sumOf rows).integer? = some (summands rows).sum := by
  unfold sumOf
  rw [if_neg (Multiset.card_eq_zero.not.2 h), integer?, Int64.toInt_ofInt_of_le hlow hhigh]

variable {rows rows' : Multiset (List Value)}

theorem summands_cons (v : Value) (rows : Multiset (List Value)) :
    summands ([v] ::ₘ rows) = v.integer?.elim 0 (fun n => {n}) + summands rows := by
  unfold summands
  rw [Multiset.filterMap_cons]
  change (v.integer?.map _).getD 0 + _ = _
  cases v.integer? <;> rfl

theorem sumOf_congr (hnone : (summands rows).card = 0 ↔ (summands rows').card = 0)
    (hsum : Int64.ofInt (summands rows).sum = Int64.ofInt (summands rows').sum) : sumOf rows = sumOf rows' := by
  unfold sumOf
  rw [hsum]
  exact if_congr hnone rfl rfl

/-- A sum stands for what it is the sum of, also where there is nothing to sum. -/
theorem sumOf_cons_sumOf (rows rows' : Multiset (List Value)) :
    sumOf ([sumOf rows] ::ₘ rows') = sumOf (rows + rows') := by
  have hadd : summands (rows + rows') = summands rows + summands rows' := Multiset.filterMap_add ..
  by_cases h : (summands rows).card = 0
  · have hnull : sumOf rows = .null := if_pos h
    have hsame : summands ([sumOf rows] ::ₘ rows') = summands (rows + rows') := by
      rw [summands_cons, hadd, hnull, Multiset.card_eq_zero.1 h]
      rfl
    exact sumOf_congr (by rw [hsame]) (by rw [hsame])
  · have hone : summands ([sumOf rows] ::ₘ rows') =
        {(Int64.ofInt (summands rows).sum).toInt} + summands rows' := by
      rw [summands_cons, sumOf, if_neg h]
      rfl
    refine sumOf_congr ?_ ?_
    · rw [hone, hadd, Multiset.card_add, Multiset.card_add, Multiset.card_singleton]
      omega
    · rw [hone, hadd, Multiset.sum_add, Multiset.sum_add, Multiset.sum_singleton, Int64.ofInt_add, Int64.ofInt_add,
        Int64.ofInt_toInt]

theorem firstOf_cons_firstOf (cmp : Value → Value → Ordering) [TransCmp cmp] [LawfulEqCmp cmp]
    (rows rows' : Multiset (List Value)) : firstOf cmp ([firstOf cmp rows] ::ₘ rows') = firstOf cmp (rows + rows') := by
  unfold firstOf
  rw [Multiset.map_cons, Multiset.fold_cons_left, Multiset.map_add]
  exact (Multiset.fold_add (first cmp) .null .null _ _).symm

theorem sumOf_one (n : Int64) : sumOf {[.int64 n]} = .int64 n := by
  change Value.int64 (.ofInt (Multiset.sum {n.toInt})) = .int64 n
  rw [Multiset.sum_singleton, Int64.ofInt_toInt]

theorem sumOf_two (m n : Int64) : sumOf {[.int64 m], [.int64 n]} = .int64 (m + n) := by
  change Value.int64 (.ofInt (Multiset.sum {m.toInt, n.toInt})) = _
  rw [Multiset.sum_pair, Int64.ofInt_add, Int64.ofInt_toInt, Int64.ofInt_toInt]

theorem sumOf_countOf (rows rows' : Multiset (List Value)) :
    sumOf {[countOf rows], [countOf rows']} = countOf (rows + rows') := by
  unfold countOf
  rw [sumOf_two, Multiset.filter_add, Multiset.card_add, Int.natCast_add, Int64.ofInt_add]

/-- Results for the parts of a bag give the result for the bag, if each can be taken for what it comes from. -/
theorem map_parts_of_cons {g : Multiset (List Value) → Value}
    (hg : ∀ rows rows', g ([g rows] ::ₘ rows') = g (rows + rows')) (parts : Multiset (Multiset (List Value)))
    (rows : Multiset (List Value)) : g (parts.map (fun part => [g part]) + rows) = g (parts.join + rows) := by
  induction parts using Multiset.induction_on generalizing rows with
  | empty => rfl
  | cons part parts ih =>
    rw [Multiset.map_cons, Multiset.cons_add, hg, add_left_comm, ih, Multiset.join_cons, add_left_comm, add_assoc]

/-- Counts add up to the count of all, if there is any. -/
theorem sumOf_map_countOf {parts : Multiset (Multiset (List Value))} (h : parts ≠ 0) :
    sumOf (parts.map (fun part => [countOf part])) = countOf parts.join := by
  induction parts using Multiset.induction_on with
  | empty => exact absurd rfl h
  | cons part parts ih =>
    rw [Multiset.map_cons, Multiset.join_cons]
    by_cases hrest : parts = 0
    · rw [hrest]
      exact (sumOf_one _).trans (congrArg countOf (add_zero part).symm)
    · calc sumOf ([countOf part] ::ₘ parts.map (fun part => [countOf part]))
          = sumOf ([sumOf (parts.map (fun part => [countOf part]))] ::ₘ {[countOf part]}) := by
            rw [sumOf_cons_sumOf, add_comm, Multiset.singleton_add]
        _ = sumOf {[countOf parts.join], [countOf part]} := by
            rw [ih hrest]
            rfl
        _ = countOf (part + parts.join) := by
            rw [sumOf_countOf, add_comm]

end Value

/-- The aggregate functions an interpretation gives are those of SQL. -/
structure Interpretation.StandardAggregates (S : Interpretation) : Prop where
  count : ∀ rows, S.aggregate .count false rows = Value.countOf rows
  sum : ∀ rows, S.aggregate .sum false rows = Value.sumOf rows
  min : ∀ rows, S.aggregate .min false rows = Value.firstOf compare rows
  max : ∀ rows, S.aggregate .max false rows = Value.firstOf (fun a b => compare b a) rows

/-- What a function answers for some rows is what its combiner makes of the answers for their parts. -/
theorem Interpretation.StandardAggregates.combine {S : Interpretation} (h : S.StandardAggregates)
    {f g : AggregateFunction} (hg : f.combiner? = some g) {parts : Multiset (Multiset (List Value))}
    (hparts : parts ≠ 0) :
    S.aggregate g false (parts.map (fun part => [S.aggregate f false part])) = S.aggregate f false parts.join := by
  have hself : ∀ {g : Multiset (List Value) → Value}, (∀ rows rows', g ([g rows] ::ₘ rows') = g (rows + rows')) →
      g (parts.map (fun part => [g part])) = g parts.join := fun hg => by
    have hparts := Value.map_parts_of_cons hg parts 0
    rwa [add_zero, add_zero] at hparts
  cases f with
  | avg => cases hg
  | count =>
    cases hg
    simp only [h.count, h.sum]
    exact Value.sumOf_map_countOf hparts
  | sum =>
    cases hg
    simp only [h.sum]
    exact hself Value.sumOf_cons_sumOf
  | min =>
    cases hg
    simp only [h.min]
    exact hself (Value.firstOf_cons_firstOf _)
  | max =>
    cases hg
    simp only [h.max]
    exact hself (Value.firstOf_cons_firstOf _)

end Cascade
