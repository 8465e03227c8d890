import Cascade.Proofs.Properties.Conjuncts

/-!
Predicates that reject `NULL`. Comparisons and casts may be any functions that answer `NULL` for `NULL`: a column that a
predicate rejects `NULL` in has a value wherever the predicate is true. Where a predicate only compares what its operands
read, it may be true with any other column `NULL`.
-/

namespace Cascade

/-- What scalar expressions leave open if comparisons are left open as well. -/
structure Primitives extends Functions where
  compare : BinaryOp → Value → Value → Truth

namespace Primitives

/-- Comparisons and casts answer `NULL` for `NULL`. -/
structure Strict (P : Primitives) : Prop where
  cast : ∀ type, P.cast type .null = .null
  compare_left : ∀ op b, op.isComparison = true → P.compare op .null b = none
  compare_right : ∀ op a, op.isComparison = true → P.compare op a .null = none

/-- Comparisons by the order of values. -/
def ordered (F : Functions) : Primitives := { F with compare := BinaryOp.compare }

theorem Strict.ordered {F : Functions} (hcast : ∀ type, F.cast type .null = .null) : (ordered F).Strict where
  cast := hcast
  compare_left _ _ _ := rfl
  compare_right _ a _ := if_pos (Bool.or_true a.isNull)

/-- All comparisons are true unless an operand is `NULL`, and casts keep the value. -/
def permissive : Primitives where
  call _ _ := .bool true
  cast _ v := v
  compare _ a b := if a.isNull || b.isNull then none else some true

theorem Strict.permissive : permissive.Strict where
  cast _ := rfl
  compare_left _ _ _ := rfl
  compare_right _ a _ := if_pos (Bool.or_true a.isNull)

end Primitives

/-- Values for all columns but one. -/
def Binding.allBut (c : ColumnId) : Binding := fun d => if d = c then .null else .bool true

namespace Scalar

section

variable (P : Primitives) (b : Binding)

mutual

/-- The value of an expression, with comparisons, casts and functions as they are given. -/
def evalIn : Scalar → Value
  | .column id => b id
  | .literal value => value
  | .binary lhs .and rhs => .ofTruth (lhs.evalIn.truth.and rhs.evalIn.truth)
  | .binary lhs .or rhs => .ofTruth (lhs.evalIn.truth.or rhs.evalIn.truth)
  | .binary lhs op rhs => .ofTruth (P.compare op lhs.evalIn rhs.evalIn)
  | .not arg => .ofTruth arg.evalIn.truth.not
  | .isNull arg => .bool arg.evalIn.isNull
  | .cast arg type => P.cast type arg.evalIn
  | .call name args => P.call name (evalArgsIn args)

def evalArgsIn : List Scalar → List Value
  | [] => []
  | arg :: args => arg.evalIn :: evalArgsIn args

end

def truthIn (e : Scalar) : Truth := (e.evalIn P b).truth

end

variable {P : Primitives} {F : Functions} {b : Binding} {c : ColumnId}

mutual

theorem evalIn_ordered : ∀ e : Scalar, e.evalIn (.ordered F) b = e.eval F b
  | .column _ | .literal _ => rfl
  | .binary lhs op rhs => by
    have hl := evalIn_ordered lhs
    have hr := evalIn_ordered rhs
    cases op <;> simp only [evalIn, eval, hl, hr] <;> rfl
  | .not arg | .isNull arg => by simp only [evalIn, eval, evalIn_ordered arg]
  | .cast arg type => by rw [evalIn, eval, evalIn_ordered arg]; rfl
  | .call name args => by rw [evalIn, eval, evalArgsIn_ordered args]; rfl

theorem evalArgsIn_ordered : ∀ args : List Scalar, evalArgsIn (.ordered F) b args = evalArgs F b args
  | [] => rfl
  | arg :: args => by rw [evalArgsIn, evalArgs, evalIn_ordered arg, evalArgsIn_ordered args]

end

theorem truthIn_ordered (e : Scalar) : e.truthIn (.ordered F) b = e.truth F b := by
  rw [truthIn, evalIn_ordered, truth]

theorem truthIn_and (lhs rhs : Scalar) : (binary lhs .and rhs).truthIn P b = (lhs.truthIn P b).and (rhs.truthIn P b) := by
  simp only [truthIn, evalIn, Value.truth_ofTruth]

theorem truthIn_or (lhs rhs : Scalar) : (binary lhs .or rhs).truthIn P b = (lhs.truthIn P b).or (rhs.truthIn P b) := by
  simp only [truthIn, evalIn, Value.truth_ofTruth]

theorem truthIn_comparison {op : BinaryOp} (hop : op.isComparison = Bool.true) (lhs rhs : Scalar) :
    (binary lhs op rhs).truthIn P b = P.compare op (lhs.evalIn P b) (rhs.evalIn P b) := by
  cases op with
  | and | or => cases hop
  | _ => simp only [truthIn, evalIn, Value.truth_ofTruth]

theorem truthIn_notNull (arg : Scalar) : (not (isNull arg)).truthIn P b = some !(arg.evalIn P b).isNull := by
  rw [truthIn, evalIn, evalIn, Value.truth_ofTruth]
  rfl

theorem evalIn_of_mem_strictColumns (hP : P.Strict) (hnull : b c = .null) :
    ∀ {e : Scalar}, c ∈ e.strictColumns → e.evalIn P b = .null
  | .column d, h => by
    obtain rfl := List.mem_singleton.1 h
    exact hnull
  | .cast arg type, h => by rw [evalIn, evalIn_of_mem_strictColumns hP hnull (e := arg) h, hP.cast]

/-- A predicate is not true where a column it rejects `NULL` in is `NULL`. -/
theorem ne_null_of_truthIn (hP : P.Strict) {e : Scalar} (hc : c ∈ e.nullRejectingColumns)
    (h : e.truthIn P b = some Bool.true) : b c ≠ .null := by
  intro hnull
  fun_induction nullRejectingColumns e with
  | case1 lhs rhs ihl ihr =>
    rw [truthIn_and, Truth.and_eq_true] at h
    exact (SortedSet.mem_union.1 hc).elim (ihl · h.1) (ihr · h.2)
  | case2 lhs rhs ihl ihr =>
    -- either side may be the true one, but the column is rejected by both
    obtain ⟨hcl, hcr⟩ := SortedSet.mem_inter.1 hc
    rw [truthIn_or, Truth.or_eq_true] at h
    exact h.elim (ihl hcl) (ihr hcr)
  | case3 lhs op rhs hand hor =>
    have hop : op.isComparison = Bool.true := by
      cases op with
      | and => exact absurd rfl hand
      | or => exact absurd rfl hor
      | _ => rfl
    rw [truthIn_comparison hop] at h
    rcases SortedSet.mem_union.1 hc with hc | hc
    · rw [evalIn_of_mem_strictColumns hP hnull hc, hP.compare_left op _ hop] at h
      cases h
    · rw [evalIn_of_mem_strictColumns hP hnull hc, hP.compare_right op _ hop] at h
      cases h
  | case4 arg =>
    rw [truthIn_notNull, evalIn_of_mem_strictColumns hP hnull hc] at h
    cases h
  | case5 e => exact absurd hc List.not_mem_nil

/-- Operands that read at most one column, or leave all to a function. -/
inductive Operand : Scalar → Prop
  | column (id : ColumnId) : Operand (.column id)
  | literal {v : Value} (h : v ≠ .null) : Operand (.literal v)
  | cast {arg : Scalar} (type : DataType) (h : Operand arg) : Operand (.cast arg type)
  | call (name : String) (args : List Scalar) : Operand (.call name args)

/-- Comparisons of operands, tests that an operand is not `NULL`, and these with `AND` and `OR`. -/
inductive Compares : Scalar → Prop
  | comparison {lhs rhs : Scalar} {op : BinaryOp} (hop : op.isComparison = Bool.true) (hl : Operand lhs)
    (hr : Operand rhs) : Compares (.binary lhs op rhs)
  | notNull {arg : Scalar} (h : Operand arg) : Compares (.not (.isNull arg))
  | and {lhs rhs : Scalar} (hl : Compares lhs) (hr : Compares rhs) : Compares (.binary lhs .and rhs)
  | or {lhs rhs : Scalar} (hl : Compares lhs) (hr : Compares rhs) : Compares (.binary lhs .or rhs)

theorem Operand.isNull_evalIn {e : Scalar} (h : Operand e) (hc : c ∉ e.strictColumns) :
    (e.evalIn .permissive (.allBut c)).isNull = Bool.false := by
  induction h with
  | column d =>
    have hd : d ≠ c := fun hd => hc (List.mem_singleton.2 hd.symm)
    rw [evalIn, Binding.allBut, if_neg hd]
    rfl
  | @literal v hv =>
    cases v with
    | null => exact absurd rfl hv
    | _ => rfl
  | cast type _ ih => exact ih hc
  | call name args => rfl

theorem Compares.truthIn {e : Scalar} (h : Compares e) (hc : c ∉ e.nullRejectingColumns) :
    e.truthIn .permissive (.allBut c) = some Bool.true := by
  induction h with
  | @comparison lhs rhs op hop hl hr =>
    have hsides : c ∉ lhs.strictColumns ∪ rhs.strictColumns := by
      cases op with
      | and | or => cases hop
      | _ => exact hc
    rw [SortedSet.mem_union, not_or] at hsides
    rw [truthIn_comparison hop]
    refine if_neg ?_
    rw [hl.isNull_evalIn hsides.1, hr.isNull_evalIn hsides.2]
    exact Bool.false_ne_true
  | notNull harg => rw [truthIn_notNull, harg.isNull_evalIn hc]; rfl
  | and _ _ ihl ihr =>
    rw [nullRejectingColumns, SortedSet.mem_union, not_or] at hc
    rw [truthIn_and, ihl hc.1, ihr hc.2]
    rfl
  | or _ _ ihl ihr =>
    rw [nullRejectingColumns, SortedSet.mem_inter, not_and_or] at hc
    rw [truthIn_or, Truth.or_eq_true]
    exact hc.imp ihl ihr

/-- Where a predicate is true, the columns it rejects `NULL` in have a value. If it only compares operands, it may be true
with any other column `NULL`. -/
theorem nullRejectingColumns_sound (e : Scalar) :
    (∀ (P : Primitives) (b : Binding), P.Strict → e.truthIn P b = some Bool.true →
      ∀ c ∈ e.nullRejectingColumns, b c ≠ .null) ∧
    (Compares e → ∀ c ∉ e.nullRejectingColumns, ∃ (P : Primitives) (b : Binding), P.Strict ∧
      e.truthIn P b = some Bool.true ∧ b c = .null) := by
  refine ⟨fun P b hP h c hc => ne_null_of_truthIn hP hc h, fun hcompares c hc => ?_⟩
  exact ⟨.permissive, .allBut c, .permissive, hcompares.truthIn hc, if_pos rfl⟩

/-- `c1 = c2 AND (c3 > 1 OR c4 > 1) AND NOT c5 IS NULL`. -/
def comparedColumns : Scalar :=
  conjunction [.binary (.column 1) .eq (.column 2),
    .binary (.binary (.column 3) .gt (.literal (.int32 1))) .or (.binary (.column 4) .gt (.literal (.int32 1))),
    .not (.isNull (.column 5))]

theorem compares_comparedColumns : Compares comparedColumns := by
  have hone : Operand (.literal (.int32 1)) := .literal (by decide)
  exact .and (.and (.comparison rfl (.column 1) (.column 2))
    (.or (.comparison rfl (.column 3) hone) (.comparison rfl (.column 4) hone))) (.notNull (.column 5))

/-- The predicate may be true with the third column `NULL`, but only with values for the first, the second and the fifth. -/
theorem nullRejectingColumns_sound_comparedColumns :
    comparedColumns.nullRejectingColumns.toList = [1, 2, 5] ∧
    (∃ (P : Primitives) (b : Binding), P.Strict ∧ comparedColumns.truthIn P b = some Bool.true ∧ b 3 = .null ∧
      ∀ c ∈ comparedColumns.nullRejectingColumns, b c ≠ .null) ∧
    Compares comparedColumns ∧ 4 ∉ comparedColumns.nullRejectingColumns ∧
    ∃ (P : Primitives) (b : Binding), P.Strict ∧ comparedColumns.truthIn P b = some Bool.true ∧ b 4 = .null := by
  have hcolumns : comparedColumns.nullRejectingColumns.toList = [1, 2, 5] := by decide +kernel
  have hrejected : 4 ∉ comparedColumns.nullRejectingColumns := by
    rw [SortedSet.mem_def, hcolumns]
    decide
  obtain ⟨hsound, hexact⟩ := nullRejectingColumns_sound comparedColumns
  refine ⟨hcolumns, ?_, compares_comparedColumns, hrejected, hexact compares_comparedColumns 4 hrejected⟩
  have hstrict : (Primitives.ordered ⟨fun _ _ => .null, fun _ _ => .null⟩).Strict := .ordered fun _ => rfl
  have htrue : comparedColumns.truthIn (.ordered ⟨fun _ _ => .null, fun _ _ => .null⟩)
      (fun c => if c = 3 then .null else .int32 2) = some Bool.true := by decide +kernel
  exact ⟨_, _, hstrict, htrue, rfl, hsound _ _ hstrict htrue⟩

end Scalar
end Cascade
