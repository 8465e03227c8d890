import Cascade.Proofs.Properties.Conjuncts
import Cascade.Proofs.Semantics.Conjunction
import Cascade.Proofs.Semantics.Strictness

/-!
What predicates that were true tell of columns. A normal form need not be true of all values its predicate is true of:
it drops the literal `true` from a conjunction, which turns what is no truth value into `NULL`. An equality with
such an operand is kept all the same, since a value that the conjunction turns into `NULL` is equal to nothing.
-/

namespace Cascade

namespace Value

/-- A value taken as a condition is itself or `NULL`. -/
theorem equals_of_truth {a b : Value} (h : (ofTruth a.truth).equals b = true) : a.equals b = true := by
  cases a with
  | bool x => exact h
  | _ =>
    rw [equals_comm] at h
    exact absurd ((equals_null b).symm.trans h) Bool.false_ne_true

end Value

theorem Truth.all_eq {t : Truth} {ts : List Truth} (hne : ts ≠ []) (h : ∀ u ∈ ts, u = t) : all ts = t := by
  induction ts with
  | nil => exact absurd rfl hne
  | cons u ts ih =>
    obtain rfl := h u (List.mem_cons_self ..)
    change and u (all ts) = u
    by_cases hts : ts = []
    · rw [hts]
      exact and_true u
    · rw [ih hts fun w hw => h w (List.mem_cons_of_mem _ hw)]
      rcases u with _ | (_ | _) <;> rfl

namespace Scalar

variable {F : Functions} {b b' : Binding}

theorem not_and_of_mem_conjuncts {e x : Scalar} (hx : x ∈ e.conjuncts) (l r : Scalar) : x ≠ .binary l .and r := by
  fun_induction conjuncts e with
  | case1 lhs rhs ihl ihr => exact (List.mem_append.1 hx).elim ihl ihr
  | case2 e _ _ => cases hx
  | case3 e hand _ =>
    rw [List.mem_singleton.1 hx]
    exact hand l r

theorem conjuncts_orderOperands (lhs rhs : Scalar) {op : BinaryOp} (hop : op ≠ .and) :
    (orderOperands lhs op rhs).conjuncts = [orderOperands lhs op rhs] := by
  unfold orderOperands
  split <;> cases op <;> first | exact absurd rfl hop | rfl

/-- The conjuncts of a normal form are the normal forms of the conjuncts. -/
theorem mem_conjuncts_normalize {e x : Scalar} : x ∈ e.normalize.conjuncts ↔ ∃ y ∈ e.conjuncts, x = y.normalize := by
  fun_induction conjuncts e with
  | case1 lhs rhs ihl ihr =>
    have hparts : ∀ y ∈ (SortedSet.ofList (lhs.normalize.conjuncts ++ rhs.normalize.conjuncts)).toList,
        y.conjuncts = [y] := fun y hy =>
      (List.mem_append.1 (SortedSet.mem_ofList.1 hy)).elim conjuncts_of_mem conjuncts_of_mem
    rw [normalize, conjuncts_conjunction_of_forall hparts, ← SortedSet.mem_def, SortedSet.mem_ofList, List.mem_append,
      ihl, ihr]
    simp only [List.mem_append, or_and_right, exists_or]
  | case2 e _ htrue =>
    rw [eq_literal_of_isTrue htrue]
    constructor
    · intro h
      cases h
    · rintro ⟨_, h, _⟩
      cases h
  | case3 e hand htrue =>
    suffices hone : e.normalize.conjuncts = [e.normalize] by simp [hone]
    cases e with
    | binary lhs op rhs =>
      cases op with
      | and => exact absurd rfl (hand lhs rhs)
      | _ => exact conjuncts_orderOperands _ _ (by decide)
    | literal v => exact if_neg htrue
    | _ => rfl

theorem conjuncts_mapColumns (f : ColumnId → ColumnId) (e : Scalar) :
    (e.mapColumns f).conjuncts = e.conjuncts.map (mapColumns f) := by
  fun_induction conjuncts e with
  | case1 lhs rhs ihl ihr => rw [mapColumns, conjuncts, ihl, ihr, List.map_append]
  | case2 e _ htrue =>
    rw [eq_literal_of_isTrue htrue]
    rfl
  | case3 e hand htrue =>
    cases e with
    | binary lhs op rhs =>
      cases op with
      | and => exact absurd rfl (hand lhs rhs)
      | _ => rfl
    | literal v => exact if_neg htrue
    | _ => rfl

theorem eq_column_of_normalize {e : Scalar} {c : ColumnId} (hand : ∀ l r, e ≠ .binary l .and r)
    (h : e.normalize = .column c) : e = .column c := by
  cases e with
  | column d => exact h
  | binary lhs op rhs =>
    cases op with
    | and => exact absurd rfl (hand lhs rhs)
    | _ =>
      simp only [normalize, orderOperands] at h
      split at h <;> cases h
  | _ => cases h

/-- Nothing but columns of one value, and conjunctions of these. -/
def Mirrors (b : Binding) (v : Value) (e : Scalar) : Prop :=
  e.conjuncts ≠ [] ∧ ∀ x ∈ e.conjuncts, ∃ c, x = .column c ∧ b c = v

namespace Mirrors

variable {v : Value} {e : Scalar}

theorem column (b : Binding) (c : ColumnId) : (Scalar.column c).Mirrors b (b c) :=
  ⟨List.cons_ne_nil _ _, List.forall_mem_singleton.2 ⟨c, rfl, rfl⟩⟩

/-- A conjunction of columns has their value if this is a truth value. -/
theorem eval (h : e.Mirrors b v) (F : Functions) : e.eval F b = v ∨ e.eval F b = .ofTruth v.truth := by
  obtain ⟨hne, hcolumns⟩ := h
  have htruth : e.truth F b = v.truth := by
    rw [truth_eq_all]
    refine Truth.all_eq (fun h => hne (List.map_eq_nil_iff.1 h)) (List.forall_mem_map.2 fun x hx => ?_)
    obtain ⟨c, rfl, hc⟩ := hcolumns x hx
    exact congrArg Value.truth hc
  fun_induction conjuncts e with
  | case1 lhs rhs _ _ =>
    right
    rw [← htruth, truth, Scalar.eval, Value.truth_ofTruth]
  | case2 e _ _ => exact absurd rfl hne
  | case3 e _ _ =>
    obtain ⟨c, rfl, hc⟩ := hcolumns e (List.mem_singleton.2 rfl)
    exact .inl hc

theorem of_normalize (h : e.normalize.Mirrors b v) : e.Mirrors b v := by
  obtain ⟨hne, hcolumns⟩ := h
  refine ⟨fun hnil => ?_, fun x hx => ?_⟩
  · obtain ⟨x, hx⟩ := List.exists_mem_of_ne_nil _ hne
    obtain ⟨y, hy, -⟩ := mem_conjuncts_normalize.1 hx
    exact absurd (hnil ▸ hy) List.not_mem_nil
  · obtain ⟨c, hc, hv⟩ := hcolumns _ (mem_conjuncts_normalize.2 ⟨x, hx, rfl⟩)
    exact ⟨c, eq_column_of_normalize (not_and_of_mem_conjuncts hx) hc, hv⟩

theorem of_mapColumns {f : ColumnId → ColumnId} (h : (e.mapColumns f).Mirrors b v) :
    e.Mirrors (fun c => b (f c)) v := by
  obtain ⟨hne, hcolumns⟩ := h
  rw [conjuncts_mapColumns] at hne hcolumns
  refine ⟨fun hnil => hne (by rw [hnil, List.map_nil]), fun x hx => ?_⟩
  obtain ⟨c, hc, hv⟩ := hcolumns _ (List.mem_map_of_mem hx)
  cases x with
  | column d =>
    cases hc
    exact ⟨d, rfl, hv⟩
  | _ => cases hc

theorem congr (h : e.Mirrors b v) (hb : ∀ c ∈ e.columns, b c = b' c) : e.Mirrors b' v := by
  refine ⟨h.1, fun x hx => ?_⟩
  obtain ⟨c, rfl, hv⟩ := h.2 x hx
  exact ⟨c, rfl, (hb c (mem_columns.2 ⟨_, hx, List.mem_singleton.2 rfl⟩)).symm.trans hv⟩

theorem exists_mem_columns (h : e.Mirrors b v) : ∃ c, c ∈ e.columns := by
  obtain ⟨x, hx⟩ := List.exists_mem_of_ne_nil _ h.1
  obtain ⟨c, rfl, -⟩ := h.2 x hx
  exact ⟨c, mem_columns.2 ⟨_, hx, List.mem_singleton.2 rfl⟩⟩

end Mirrors

/-- The equalities among the conjuncts that only involve columns are true of their values. -/
def Equalizes (b : Binding) (e : Scalar) : Prop :=
  ∀ x y, .binary x .eq y ∈ e.conjuncts → ∀ v w, x.Mirrors b v → y.Mirrors b w → v.equals w = Bool.true

theorem equalizes_of_holds {e : Scalar} (h : e.holds F b = Bool.true) : e.Equalizes b := by
  intro x y hxy v w hx hy
  have heval : (x.eval F b).equals (y.eval F b) = Bool.true := by
    have hconjunct := (holds_iff_conjuncts e).1 h _ hxy
    simpa [holds, truth, eval, Value.equals] using hconjunct
  have hleft : v.equals (y.eval F b) = Bool.true := by
    rcases hx.eval F with h | h
    · rwa [h] at heval
    · rw [h] at heval
      exact Value.equals_of_truth heval
  rw [Value.equals_comm] at hleft ⊢
  rcases hy.eval F with h | h
  · rwa [h] at hleft
  · rw [h] at hleft
    exact Value.equals_of_truth hleft

namespace Equalizes

variable {e : Scalar}

theorem normalize (h : e.Equalizes b) : e.normalize.Equalizes b := by
  intro x y hxy v w hx hy
  obtain ⟨z, hz, heq⟩ := mem_conjuncts_normalize.1 hxy
  cases z with
  | binary lhs op rhs =>
    have horder : Scalar.binary x .eq y = orderOperands lhs.normalize op rhs.normalize := by
      cases op with
      | and => exact absurd rfl (not_and_of_mem_conjuncts hz lhs rhs)
      | _ => exact heq
    unfold orderOperands at horder
    split at horder
    · obtain ⟨rfl, hop, rfl⟩ := Scalar.binary.inj horder
      obtain rfl : op = .eq := by cases op <;> first | rfl | cases hop
      rw [Value.equals_comm]
      exact h lhs rhs hz w v hy.of_normalize hx.of_normalize
    · obtain ⟨rfl, rfl, rfl⟩ := Scalar.binary.inj horder
      exact h lhs rhs hz v w hx.of_normalize hy.of_normalize
  | _ => cases heq

theorem mapColumns {f : ColumnId → ColumnId} (h : e.Equalizes (fun c => b (f c))) : (e.mapColumns f).Equalizes b := by
  intro x y hxy v w hx hy
  rw [conjuncts_mapColumns] at hxy
  obtain ⟨z, hz, heq⟩ := List.mem_map.1 hxy
  cases z with
  | binary lhs op rhs =>
    obtain ⟨rfl, rfl, rfl⟩ := Scalar.binary.inj heq
    exact h lhs rhs hz v w hx.of_mapColumns hy.of_mapColumns
  | _ => cases heq

theorem congr (h : e.Equalizes b) (hb : ∀ c ∈ e.columns, b c = b' c) : e.Equalizes b' := by
  intro x y hxy v w hx hy
  have hcolumns : ∀ c, c ∈ x.columns ∨ c ∈ y.columns → b' c = b c := fun c hc =>
    (hb c (mem_columns.2 ⟨_, hxy, SortedSet.mem_union.2 hc⟩)).symm
  exact h x y hxy v w (hx.congr fun c hc => hcolumns c (.inl hc)) (hy.congr fun c hc => hcolumns c (.inr hc))

theorem of_columns_eq_empty (h : ∀ c, c ∉ e.columns) (b : Binding) : e.Equalizes b := by
  intro x y hxy v w hx _
  obtain ⟨c, hc⟩ := hx.exists_mem_columns
  exact absurd (mem_columns.2 ⟨_, hxy, SortedSet.mem_union.2 (.inl hc)⟩) (h c)

theorem equals {l r : ColumnId} (h : e.Equalizes b) (heq : e.columnEquality? = some (l, r)) :
    (b l).equals (b r) = Bool.true := by
  unfold columnEquality? at heq
  split at heq
  · cases heq
    exact h _ _ (List.mem_singleton.2 rfl) _ _ (.column b l) (.column b r)
  · cases heq

end Equalizes

/-- A predicate is not true where a column it rejects `NULL` in is `NULL`. -/
theorem ne_null_of_holds (hcast : ∀ type, F.cast type .null = .null) {e : Scalar} {c : ColumnId}
    (hc : c ∈ e.nullRejectingColumns) (h : e.holds F b = Bool.true) : b c ≠ .null :=
  ne_null_of_truthIn (.ordered hcast) hc ((truthIn_ordered e).trans (holds_iff.1 h))

end Scalar

end Cascade
