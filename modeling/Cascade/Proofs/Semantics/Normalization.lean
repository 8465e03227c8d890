import Cascade.Proofs.Properties.Conjuncts
import Cascade.Proofs.Semantics.Conjunction

/-!
What a normal form says. Where the operands of `AND`, `OR` and `NOT` are truth values, a predicate and its normal form
have the same value (`Scalar.eval_normalize`); so a condition that is true is true conjunct by conjunct and in normal form,
and wherever its columns have the same values (`Scalar.Certain`).
-/

namespace Cascade

namespace Truth

theorem or_comm (s t : Truth) : or s t = or t s := by
  rcases s with _ | (_ | _) <;> rcases t with _ | (_ | _) <;> rfl

theorem and_eq_false (s t : Truth) : and s t = some false ↔ s = some false ∨ t = some false := by
  rcases s with _ | (_ | _) <;> rcases t with _ | (_ | _) <;> simp [and]

theorem all_eq_true {ts : List Truth} : all ts = some true ↔ ∀ t ∈ ts, t = some true := by
  induction ts with
  | nil => simp [all]
  | cons t ts ih => rw [all, and_eq_true, ih, List.forall_mem_cons]

theorem all_eq_false {ts : List Truth} : all ts = some false ↔ some false ∈ ts := by
  induction ts with
  | nil => simp [all]
  | cons t ts ih => rw [all, and_eq_false, ih, List.mem_cons, eq_comm]

theorem ext {s t : Truth} (htrue : s = some true ↔ t = some true) (hfalse : s = some false ↔ t = some false) :
    s = t := by
  rcases s with _ | (_ | _) <;> rcases t with _ | (_ | _) <;> simp_all

/-- Order and repetition of what is joined do not matter. -/
theorem all_congr {ts us : List Truth} (h : ∀ t, t ∈ ts ↔ t ∈ us) : all ts = all us :=
  ext (by simp only [all_eq_true, h]) (by simp only [all_eq_false, h])

end Truth

namespace Value

/-- A value that a condition can have. -/
def IsTruth (v : Value) : Prop := v = .ofTruth v.truth

theorem isTruth_ofTruth (t : Truth) : (ofTruth t).IsTruth := by
  unfold IsTruth
  rw [truth_ofTruth]

theorem IsTruth.eq {v w : Value} (hv : v.IsTruth) (hw : w.IsTruth) (h : v.truth = w.truth) : v = w := by
  rw [hv, hw, h]

end Value

namespace BinaryOp

theorem accepts_commute {op : BinaryOp} (hop : op.isComparison = true) (o : Ordering) :
    op.commute.accepts o.swap = op.accepts o := by
  cases op <;> cases hop <;> cases o <;> rfl

theorem compare_commute {op : BinaryOp} (hop : op.isComparison = true) (a b : Value) :
    op.commute.compare b a = op.compare a b := by
  unfold compare
  have hswap : Ord.compare b.widen a.widen = (Ord.compare a.widen b.widen).swap := Std.OrientedCmp.eq_swap
  rw [Bool.or_comm, hswap, accepts_commute hop]

end BinaryOp

namespace Scalar

variable {F : Functions} {b b' : Binding}

mutual

/-- The operands of `AND`, `OR` and `NOT` are true, false or unknown. -/
def Logical (F : Functions) (b : Binding) : Scalar → Prop
  | .column _ | .literal _ => True
  | .binary lhs op rhs => lhs.Logical F b ∧ rhs.Logical F b ∧
      (op.isComparison = false → (lhs.eval F b).IsTruth ∧ (rhs.eval F b).IsTruth)
  | .not arg => arg.Logical F b ∧ (arg.eval F b).IsTruth
  | .isNull arg => arg.Logical F b
  | .cast arg _ => arg.Logical F b
  | .call _ args => ArgsLogical F b args

def ArgsLogical (F : Functions) (b : Binding) : List Scalar → Prop
  | [] => True
  | arg :: args => arg.Logical F b ∧ ArgsLogical F b args

end

theorem eval_binary_of_isComparison {op : BinaryOp} (hop : op.isComparison = Bool.true) (lhs rhs : Scalar) :
    (binary lhs op rhs).eval F b = .ofTruth (op.compare (lhs.eval F b) (rhs.eval F b)) := by
  cases op <;> cases hop <;> simp only [eval]

theorem isTruth_eval_binary (lhs : Scalar) (op : BinaryOp) (rhs : Scalar) : ((binary lhs op rhs).eval F b).IsTruth := by
  cases op <;> simp only [eval] <;> exact Value.isTruth_ofTruth _

/-- Operands in order have the same value. -/
theorem eval_orderOperands {op : BinaryOp} (hop : op ≠ .and) (lhs rhs : Scalar) :
    (orderOperands lhs op rhs).eval F b = (binary lhs op rhs).eval F b := by
  unfold orderOperands
  split
  · by_cases hcompare : op.isComparison = Bool.true
    · have hcommute : op.commute.isComparison = Bool.true := by cases op <;> first | rfl | cases hcompare
      rw [eval_binary_of_isComparison hcommute, eval_binary_of_isComparison hcompare, BinaryOp.compare_commute hcompare]
    · obtain rfl : op = .or := by cases op <;> first | rfl | exact absurd rfl hop | exact absurd rfl hcompare
      simp only [BinaryOp.commute, eval, Truth.or_comm]
  · rfl

namespace Logical

variable {e lhs rhs : Scalar} {es : List Scalar}

theorem orderOperands {op : BinaryOp} (h : (binary lhs op rhs).Logical F b) :
    (orderOperands lhs op rhs).Logical F b := by
  unfold Scalar.orderOperands
  split
  · obtain ⟨hl, hr, htruth⟩ := h
    refine ⟨hr, hl, fun hop => (htruth ?_).symm⟩
    cases op <;> first | rfl | cases hop
  · exact h

theorem and (hl : lhs.Logical F b ∧ (lhs.eval F b).IsTruth) (hr : rhs.Logical F b ∧ (rhs.eval F b).IsTruth) :
    (and lhs rhs).Logical F b ∧ ((and lhs rhs).eval F b).IsTruth :=
  ⟨⟨hl.1, hr.1, fun _ => ⟨hl.2, hr.2⟩⟩, isTruth_eval_binary lhs .and rhs⟩

theorem conjuncts (h : e.Logical F b) (htruth : (e.eval F b).IsTruth) :
    ∀ x ∈ e.conjuncts, x.Logical F b ∧ (x.eval F b).IsTruth := by
  fun_induction Scalar.conjuncts e with
  | case1 lhs rhs ihl ihr =>
    obtain ⟨hl, hr, hand⟩ := h
    obtain ⟨htl, htr⟩ := hand rfl
    exact List.forall_mem_append.2 ⟨ihl hl htl, ihr hr htr⟩
  | case2 e _ _ => exact fun x hx => absurd hx List.not_mem_nil
  | case3 e _ _ => exact List.forall_mem_singleton.2 ⟨h, htruth⟩

theorem conjunction (h : ∀ x ∈ es, x.Logical F b ∧ (x.eval F b).IsTruth) :
    (conjunction es).Logical F b ∧ ((conjunction es).eval F b).IsTruth := by
  have hfold : ∀ (rest : List Scalar) (e : Scalar), e.Logical F b ∧ (e.eval F b).IsTruth →
      (∀ x ∈ rest, x.Logical F b ∧ (x.eval F b).IsTruth) →
      (rest.foldl Scalar.and e).Logical F b ∧ ((rest.foldl Scalar.and e).eval F b).IsTruth := by
    intro rest
    induction rest with
    | nil => exact fun e he _ => he
    | cons x rest ih =>
      intro e he hrest
      obtain ⟨hx, hrest⟩ := List.forall_mem_cons.1 hrest
      exact ih _ (Logical.and he hx) hrest
  unfold Scalar.conjunction
  split
  · exact ⟨trivial, rfl⟩
  · rename_i e rest heq
    have hkept : ∀ x ∈ e :: rest, x.Logical F b ∧ (x.eval F b).IsTruth := fun x hx =>
      h x (List.mem_filter.1 (heq ▸ hx)).1
    obtain ⟨he, hrest⟩ := List.forall_mem_cons.1 hkept
    exact hfold rest e he hrest

/-- Conjuncts in order and without repetition say what the conjunction says. -/
theorem joined (hl : lhs.Logical F b) (hr : rhs.Logical F b) (htl : (lhs.eval F b).IsTruth)
    (htr : (rhs.eval F b).IsTruth) :
    let joined := Scalar.conjunction (SortedSet.ofList (lhs.conjuncts ++ rhs.conjuncts)).toList
    joined.Logical F b ∧ joined.eval F b = (binary lhs .and rhs).eval F b := by
  intro joined
  have hmem : ∀ x, x ∈ (SortedSet.ofList (lhs.conjuncts ++ rhs.conjuncts)).toList ↔ x ∈ lhs.conjuncts ++ rhs.conjuncts :=
    fun x => SortedSet.mem_ofList
  obtain ⟨hlogical, htruth⟩ := Logical.conjunction (F := F) (b := b) fun x hx =>
    (List.mem_append.1 ((hmem x).1 hx)).elim (hl.conjuncts htl x) (hr.conjuncts htr x)
  refine ⟨hlogical, htruth.eq (isTruth_eval_binary lhs .and rhs) ?_⟩
  calc
    joined.truth F b = .all ((SortedSet.ofList (lhs.conjuncts ++ rhs.conjuncts)).toList.map (truth F b)) :=
      truth_conjunction _
    _ = .all ((lhs.conjuncts ++ rhs.conjuncts).map (truth F b)) :=
      Truth.all_congr fun t => by simp only [List.mem_map, hmem]
    _ = (lhs.truth F b).and (rhs.truth F b) := by rw [List.map_append, Truth.all_append, ← truth_eq_all, ← truth_eq_all]
    _ = (binary lhs .and rhs).truth F b := (truth_and lhs rhs).symm

end Logical

mutual

/-- A predicate whose connectives join truth values has the value of its normal form, and so do the parts of this. -/
theorem normalize_spec : ∀ {e : Scalar}, e.Logical F b →
    e.normalize.Logical F b ∧ e.normalize.eval F b = e.eval F b
  | .column _, h | .literal _, h => ⟨h, rfl⟩
  | .not arg, h => by
    obtain ⟨hlogical, heval⟩ := normalize_spec (e := arg) h.1
    exact ⟨⟨hlogical, heval.symm ▸ h.2⟩, by simp only [normalize, eval, heval]⟩
  | .isNull arg, h => by
    obtain ⟨hlogical, heval⟩ := normalize_spec (e := arg) h
    exact ⟨hlogical, by simp only [normalize, eval, heval]⟩
  | .cast arg type, h => by
    obtain ⟨hlogical, heval⟩ := normalize_spec (e := arg) h
    exact ⟨hlogical, by simp only [normalize, eval, heval]⟩
  | .call name args, h => by
    obtain ⟨hlogical, heval⟩ := normalizeArgs_spec (l := args) h
    exact ⟨hlogical, by simp only [normalize, eval, heval]⟩
  | .binary lhs op rhs, h => by
    obtain ⟨hl, hr, htruth⟩ := h
    obtain ⟨hl, hlhs⟩ := normalize_spec (e := lhs) hl
    obtain ⟨hr, hrhs⟩ := normalize_spec (e := rhs) hr
    rw [← hlhs, ← hrhs] at htruth
    have hparts : (binary lhs.normalize op rhs.normalize).Logical F b := ⟨hl, hr, htruth⟩
    have hsame : (binary lhs.normalize op rhs.normalize).eval F b = (binary lhs op rhs).eval F b := by
      cases op <;> simp only [eval, hlhs, hrhs]
    rw [← hsame]
    cases op with
    | and => exact hl.joined hr (htruth rfl).1 (htruth rfl).2
    | _ => exact ⟨hparts.orderOperands, eval_orderOperands (by decide) _ _⟩

theorem normalizeArgs_spec : ∀ {l : List Scalar}, ArgsLogical F b l →
    ArgsLogical F b (normalizeArgs l) ∧ evalArgs F b (normalizeArgs l) = evalArgs F b l
  | [], h => ⟨h, rfl⟩
  | e :: es, h => by
    obtain ⟨he, hes⟩ := h
    obtain ⟨hlogical, heval⟩ := normalize_spec (e := e) he
    obtain ⟨hrest, hevalArgs⟩ := normalizeArgs_spec (l := es) hes
    exact ⟨⟨hlogical, hrest⟩, by rw [normalizeArgs, evalArgs, evalArgs, heval, hevalArgs]⟩

end

theorem eval_normalize {e : Scalar} (h : e.Logical F b) : e.normalize.eval F b = e.eval F b := (normalize_spec h).2

/-- Wherever the connectives join truth values, a normal form has the value of the expression, and it mentions the same
columns. -/
theorem normalize_keeps_meaning (e : Scalar) :
    (∀ (F : Functions) (b : Binding), e.Logical F b → e.normalize.eval F b = e.eval F b) ∧
      e.normalize.columns = e.columns :=
  ⟨fun _ _ h => eval_normalize h, SortedSet.ext_mem fun _ => mem_columns_normalize⟩

/-- Conjuncts out of order, one twice and one that says nothing, below a negation; a flag is the answer of a function. -/
def tangled : Scalar :=
  .not (and (.binary (.literal (.int64 5)) .lt (.column 0))
    (and (and .true (.call "flag" [.column 1])) (.binary (.column 0) .gt (.literal (.int64 5)))))

/-- A flag is what its column holds. -/
def flagsOfColumns : Functions where
  call _ args := args.headD .null
  cast _ v := v

/-- The number is unknown, the flag is not. -/
def unknownNumber : Binding := fun c => if c = 1 then .bool Bool.true else .null

theorem normalize_keeps_meaning_tangled :
    tangled.Logical flagsOfColumns unknownNumber ∧ tangled.normalize ≠ tangled ∧
      tangled.normalize.eval flagsOfColumns unknownNumber = tangled.eval flagsOfColumns unknownNumber ∧
        tangled.normalize.columns = tangled.columns := by
  have hbelow : (binary (.literal (.int64 5)) .lt (.column 0)).Logical flagsOfColumns unknownNumber :=
    ⟨trivial, trivial, nofun⟩
  have habove : (binary (.column 0) .gt (.literal (.int64 5))).Logical flagsOfColumns unknownNumber :=
    ⟨trivial, trivial, nofun⟩
  have hflag : (call "flag" [.column 1]).Logical flagsOfColumns unknownNumber := ⟨trivial, trivial⟩
  have hlogical : tangled.Logical flagsOfColumns unknownNumber :=
    Logical.and ⟨hbelow, isTruth_eval_binary ..⟩
      (Logical.and (Logical.and ⟨trivial, rfl⟩ ⟨hflag, rfl⟩) ⟨habove, isTruth_eval_binary ..⟩)
  obtain ⟨heval, hcolumns⟩ := normalize_keeps_meaning tangled
  exact ⟨hlogical, by decide +kernel, heval flagsOfColumns unknownNumber hlogical, hcolumns⟩

mutual

theorem Logical.congr : ∀ {e : Scalar}, (∀ c ∈ e.columns, b c = b' c) → e.Logical F b → e.Logical F b'
  | .column _, _, h | .literal _, _, h => h
  | .binary lhs op rhs, hb, h => by
    have hbl : ∀ c ∈ lhs.columns, b c = b' c := fun c hc => hb c (SortedSet.mem_union.2 (.inl hc))
    have hbr : ∀ c ∈ rhs.columns, b c = b' c := fun c hc => hb c (SortedSet.mem_union.2 (.inr hc))
    obtain ⟨hl, hr, htruth⟩ := h
    rw [eval_congr hbl, eval_congr hbr] at htruth
    exact ⟨Logical.congr hbl hl, Logical.congr hbr hr, htruth⟩
  | .not arg, hb, h => by
    obtain ⟨harg, htruth⟩ := h
    rw [eval_congr (e := arg) hb] at htruth
    exact ⟨Logical.congr (e := arg) hb harg, htruth⟩
  | .isNull arg, hb, h => Logical.congr (e := arg) hb h
  | .cast arg _, hb, h => Logical.congr (e := arg) hb h
  | .call _ args, hb, h => ArgsLogical.congr (l := args) hb h

theorem ArgsLogical.congr : ∀ {l : List Scalar}, (∀ c ∈ argColumns l, b c = b' c) → ArgsLogical F b l → ArgsLogical F b' l
  | [], _, h => h
  | e :: es, hb, h =>
    ⟨Logical.congr (e := e) (fun c hc => hb c (SortedSet.mem_union.2 (.inl hc))) h.1,
      ArgsLogical.congr (l := es) (fun c hc => hb c (SortedSet.mem_union.2 (.inr hc))) h.2⟩

end

section

variable {f : ColumnId → ColumnId}

mutual

/-- Renaming the columns is evaluating with the values of the new ones. -/
theorem eval_mapColumns : ∀ {e : Scalar}, (e.mapColumns f).eval F b = e.eval F (fun c => b (f c))
  | .column _ | .literal _ => rfl
  | .binary lhs op rhs => by
    have hl := eval_mapColumns (e := lhs)
    have hr := eval_mapColumns (e := rhs)
    cases op <;> simp only [mapColumns, eval, hl, hr]
  | .not arg => by simp only [mapColumns, eval, eval_mapColumns (e := arg)]
  | .isNull arg => by simp only [mapColumns, eval, eval_mapColumns (e := arg)]
  | .cast arg type => by simp only [mapColumns, eval, eval_mapColumns (e := arg)]
  | .call name args => by simp only [mapColumns, eval, evalArgs_mapColumns (l := args)]

theorem evalArgs_mapColumns : ∀ {l : List Scalar}, evalArgs F b (mapArgColumns f l) = evalArgs F (fun c => b (f c)) l
  | [] => rfl
  | e :: es => by
    rw [mapArgColumns, evalArgs, evalArgs, eval_mapColumns (e := e), evalArgs_mapColumns (l := es)]

end

mutual

theorem Logical.mapColumns : ∀ {e : Scalar}, e.Logical F (fun c => b (f c)) → (e.mapColumns f).Logical F b
  | .column _, h | .literal _, h => h
  | .binary lhs op rhs, h => by
    obtain ⟨hl, hr, htruth⟩ := h
    rw [← eval_mapColumns (e := lhs), ← eval_mapColumns (e := rhs)] at htruth
    exact ⟨Logical.mapColumns hl, Logical.mapColumns hr, htruth⟩
  | .not arg, h => by
    obtain ⟨harg, htruth⟩ := h
    rw [← eval_mapColumns (e := arg)] at htruth
    exact ⟨Logical.mapColumns harg, htruth⟩
  | .isNull arg, h => Logical.mapColumns (e := arg) h
  | .cast arg _, h => Logical.mapColumns (e := arg) h
  | .call _ args, h => ArgsLogical.mapColumns (l := args) h

theorem ArgsLogical.mapColumns : ∀ {l : List Scalar}, ArgsLogical F (fun c => b (f c)) l →
    ArgsLogical F b (mapArgColumns f l)
  | [], h => h
  | _ :: _, h => ⟨Logical.mapColumns h.1, ArgsLogical.mapColumns h.2⟩

end

mutual

theorem mem_columns_mapColumns {c : ColumnId} : ∀ {e : Scalar}, c ∈ (e.mapColumns f).columns ↔ ∃ d ∈ e.columns, f d = c
  | .column d => by
    constructor
    · exact fun h => ⟨d, List.mem_singleton.2 rfl, (List.mem_singleton.1 h).symm⟩
    · rintro ⟨_, hd, rfl⟩
      exact List.mem_singleton.2 (congrArg f (List.mem_singleton.1 hd))
  | .literal _ => ⟨fun h => (nomatch h), fun ⟨_, h, _⟩ => (nomatch h)⟩
  | .binary lhs op rhs => by
    simp only [mapColumns, columns, SortedSet.mem_union, mem_columns_mapColumns (e := lhs),
      mem_columns_mapColumns (e := rhs), or_and_right, exists_or]
  | .not arg => mem_columns_mapColumns (e := arg)
  | .isNull arg => mem_columns_mapColumns (e := arg)
  | .cast arg _ => mem_columns_mapColumns (e := arg)
  | .call _ args => mem_argColumns_mapArgColumns (l := args)

theorem mem_argColumns_mapArgColumns {c : ColumnId} :
    ∀ {l : List Scalar}, c ∈ argColumns (mapArgColumns f l) ↔ ∃ d ∈ argColumns l, f d = c
  | [] => ⟨fun h => (nomatch h), fun ⟨_, h, _⟩ => (nomatch h)⟩
  | e :: es => by
    simp only [mapArgColumns, argColumns, SortedSet.mem_union, mem_columns_mapColumns (e := e),
      mem_argColumns_mapArgColumns (l := es), or_and_right, exists_or]

end

end

/-- A condition that is true, of truth values. -/
structure Certain (F : Functions) (b : Binding) (e : Scalar) : Prop where
  logical : e.Logical F b
  holds : e.holds F b = Bool.true

namespace Certain

variable {e : Scalar}

theorem congr (h : e.Certain F b) (hb : ∀ c ∈ e.columns, b c = b' c) : e.Certain F b' :=
  ⟨h.logical.congr hb, (holds_congr hb).symm.trans h.holds⟩

theorem normalize (h : e.Certain F b) : e.normalize.Certain F b where
  logical := (normalize_spec h.logical).1
  holds := by
    have hholds := h.holds
    unfold Scalar.holds truth at hholds ⊢
    rwa [eval_normalize h.logical]

theorem mapColumns {f : ColumnId → ColumnId} (h : e.Certain F (fun c => b (f c))) : (e.mapColumns f).Certain F b where
  logical := h.logical.mapColumns
  holds := by
    have hholds := h.holds
    unfold Scalar.holds truth at hholds ⊢
    rwa [eval_mapColumns]

theorem mem_conjuncts (h : e.Certain F b) : ∀ x ∈ e.conjuncts, x.Certain F b := by
  have hlogical : ∀ {e : Scalar}, e.Logical F b → ∀ x ∈ e.conjuncts, x.Logical F b := by
    intro e h
    fun_induction conjuncts e with
    | case1 lhs rhs ihl ihr => exact List.forall_mem_append.2 ⟨ihl h.1, ihr h.2.1⟩
    | case2 e _ _ => exact fun x hx => absurd hx List.not_mem_nil
    | case3 e _ _ => exact List.forall_mem_singleton.2 h
  exact fun x hx => ⟨hlogical h.logical x hx, (holds_iff_conjuncts e).1 h.holds x hx⟩

/-- The conjuncts of a condition are true in normal form as well. -/
theorem mem_normalConjuncts (h : e.Certain F b) : ∀ x ∈ e.normalConjuncts, x.Certain F b := by
  intro x hx
  obtain ⟨y, hy, rfl⟩ := Scalar.mem_normalConjuncts.1 hx
  exact (h.mem_conjuncts y hy).normalize

end Certain

end Scalar
end Cascade
