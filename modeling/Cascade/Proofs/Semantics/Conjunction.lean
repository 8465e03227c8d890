import Mathlib.Data.List.Basic
import Cascade.Proofs.Semantics.Relation

/-!
What a predicate says is what its conjuncts say together, and depends on the columns it mentions only.
-/

namespace Cascade

namespace Truth

@[simp] theorem true_and (t : Truth) : and (some true) t = t := by rcases t with _ | (_ | _) <;> rfl

@[simp] theorem and_true (t : Truth) : and t (some true) = t := by rcases t with _ | (_ | _) <;> rfl

theorem and_assoc (s t u : Truth) : and (and s t) u = and s (and t u) := by
  rcases s with _ | (_ | _) <;> rcases t with _ | (_ | _) <;> rcases u with _ | (_ | _) <;> rfl

/-- The conjunction of truth values. -/
def all : List Truth → Truth
  | [] => some true
  | t :: ts => and t (all ts)

theorem all_append (s t : List Truth) : all (s ++ t) = and (all s) (all t) := by
  induction s with
  | nil => exact (true_and _).symm
  | cons a s ih =>
    change and a (all (s ++ t)) = and (and a (all s)) (all t)
    rw [ih, and_assoc]

theorem foldl_and (ts : List Truth) (t : Truth) : ts.foldl and t = and t (all ts) := by
  induction ts generalizing t with
  | nil => exact (and_true t).symm
  | cons a ts ih =>
    rw [List.foldl_cons, ih, and_assoc]
    rfl

end Truth

namespace Scalar

variable {F : Functions} {b b' : Binding}

theorem truth_of_isTrue {e : Scalar} (h : e.isTrue = Bool.true) : e.truth F b = some Bool.true :=
  holds_iff.1 (holds_of_isTrue h)

theorem truth_eq_all (e : Scalar) : e.truth F b = .all (e.conjuncts.map (truth F b)) := by
  fun_induction conjuncts e with
  | case1 lhs rhs ihl ihr => rw [truth_and, ihl, ihr, List.map_append, Truth.all_append]
  | case2 e _ htrue => exact truth_of_isTrue htrue
  | case3 e _ _ => exact (Truth.and_true _).symm

theorem all_filter_isTrue (es : List Scalar) :
    Truth.all ((es.filter (fun e => !e.isTrue)).map (truth F b)) = .all (es.map (truth F b)) := by
  induction es with
  | nil => rfl
  | cons e es ih =>
    rw [List.filter_cons, List.map_cons]
    change _ = (e.truth F b).and (.all (es.map (truth F b)))
    split
    · rw [List.map_cons]
      exact congrArg _ ih
    · rename_i h
      rw [truth_of_isTrue (by simpa using h), Truth.true_and, ih]

theorem truth_foldl_and (es : List Scalar) (e : Scalar) :
    (es.foldl and e).truth F b = (es.map (truth F b)).foldl Truth.and (e.truth F b) := by
  induction es generalizing e with
  | nil => rfl
  | cons a es ih => rw [List.foldl_cons, ih, List.map_cons, List.foldl_cons, and, truth_and]

theorem truth_conjunction (es : List Scalar) : (conjunction es).truth F b = .all (es.map (truth F b)) := by
  rw [← all_filter_isTrue]
  unfold conjunction
  split
  · rename_i h
    rw [h]
    rfl
  · rename_i e rest h
    rw [h, truth_foldl_and, Truth.foldl_and]
    rfl

/-- Taking a predicate apart and putting it together again keeps its truth value. -/
theorem truth_conjunction_conjuncts (e : Scalar) : (conjunction e.conjuncts).truth F b = e.truth F b := by
  rw [truth_conjunction, ← truth_eq_all]

theorem holds_conjunction (es : List Scalar) :
    (conjunction es).holds F b = Bool.true ↔ ∀ e ∈ es, e.holds F b = Bool.true := by
  rw [holds_iff, truth_conjunction]
  induction es with
  | nil => simp [Truth.all]
  | cons e es ih =>
    change (e.truth F b).and (.all (es.map (truth F b))) = _ ↔ _
    rw [Truth.and_eq_true, ih, List.forall_mem_cons, holds_iff]

mutual

theorem eval_congr : ∀ {e : Scalar}, (∀ c ∈ e.columns, b c = b' c) → e.eval F b = e.eval F b'
  | .column id, h => h id (List.mem_singleton.2 rfl)
  | .literal _, _ => rfl
  | .binary lhs op rhs, h => by
    have hl := eval_congr (e := lhs) fun c hc => h c (SortedSet.mem_union.2 (.inl hc))
    have hr := eval_congr (e := rhs) fun c hc => h c (SortedSet.mem_union.2 (.inr hc))
    cases op <;> simp only [eval, hl, hr]
  | .not arg, h => by simp only [eval, eval_congr (e := arg) h]
  | .isNull arg, h => by simp only [eval, eval_congr (e := arg) h]
  | .cast arg type, h => by simp only [eval, eval_congr (e := arg) h]
  | .call name args, h => by simp only [eval, evalArgs_congr (l := args) h]

theorem evalArgs_congr : ∀ {l : List Scalar}, (∀ c ∈ argColumns l, b c = b' c) → evalArgs F b l = evalArgs F b' l
  | [], _ => rfl
  | e :: es, h => by
    rw [evalArgs, evalArgs, eval_congr (e := e) fun c hc => h c (SortedSet.mem_union.2 (.inl hc)),
      evalArgs_congr (l := es) fun c hc => h c (SortedSet.mem_union.2 (.inr hc))]

end

theorem holds_congr {e : Scalar} (h : ∀ c ∈ e.columns, b c = b' c) : e.holds F b = e.holds F b' := by
  unfold holds truth
  rw [eval_congr h]

theorem columns_subset_of_mem_conjuncts {e x : Scalar} (hx : x ∈ e.conjuncts) : ∀ c ∈ x.columns, c ∈ e.columns := by
  fun_induction conjuncts e with
  | case1 lhs rhs ihl ihr =>
    intro c hc
    rcases List.mem_append.1 hx with hx | hx
    · exact SortedSet.mem_union.2 (.inl (ihl hx c hc))
    · exact SortedSet.mem_union.2 (.inr (ihr hx c hc))
  | case2 e _ _ => cases hx
  | case3 e _ _ =>
    rw [List.mem_singleton.1 hx]
    exact fun c hc => hc

end Scalar
end Cascade
