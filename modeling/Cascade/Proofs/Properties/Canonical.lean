import Mathlib.Logic.Relation
import Cascade.Proofs.Properties.Normal

/-!
Normal forms are canonical. Two expressions have one normal form exactly if one is rewritten into the other by swapping
the operands of comparisons and disjunctions and by joining the conjuncts of conjunctions in another way: such a step
keeps the normal form, and by such steps every expression is brought into it.
-/

namespace Cascade.Scalar

variable {a b lhs rhs : Scalar} {op : BinaryOp}

theorem normalizeArgs_eq_map (args : List Scalar) : normalizeArgs args = args.map normalize := by
  induction args with
  | nil => rfl
  | cons arg args ih => rw [normalizeArgs, ih, List.map_cons]

/-- The normal form of an expression with two operands only depends on the normal forms of these. -/
theorem normalize_binary_congr {lhs' rhs' : Scalar} (hl : lhs.normalize = lhs'.normalize)
    (hr : rhs.normalize = rhs'.normalize) (op : BinaryOp) :
    (binary lhs op rhs).normalize = (binary lhs' op rhs').normalize := by
  by_cases hop : op = .and
  · subst hop
    rw [normalize, normalize, hl, hr]
  · rw [normalize_binary hop, normalize_binary hop, hl, hr]

theorem normalize_eq_of_conjuncts (h : ∀ x, x ∈ a.conjuncts ↔ x ∈ b.conjuncts) : a.normalize = b.normalize := by
  have hsame : a.normalConjuncts = b.normalConjuncts := SortedSet.ext_mem fun x => by
    simp only [mem_normalConjuncts, h]
  rw [normalize_eq_conjunction a, normalize_eq_conjunction b, hsame]

/-- Swapped operands are put into one order if they differ or the operator does not tell them apart. -/
theorem orderOperands_swap_iff :
    orderOperands rhs op.commute lhs = orderOperands lhs op rhs ↔ lhs ≠ rhs ∨ op.commute = op := by
  have hne : rhs.compare lhs ≠ .eq → lhs ≠ rhs := fun h heq => h ((compare_eq_iff rhs lhs).2 heq.symm)
  unfold orderOperands
  rw [compare_swap lhs rhs]
  cases hcmp : rhs.compare lhs with
  | lt => exact iff_of_true rfl (.inl (hne (by simp [hcmp])))
  | gt => exact iff_of_true (by simp) (.inl (hne (by simp [hcmp])))
  | eq =>
    obtain rfl := (compare_eq_iff rhs lhs).1 hcmp
    simp

/-- Operands may be swapped, the operator with them, unless their normal forms are one and the operator tells them
apart: `c < c` and `c > c` are in normal form both. -/
theorem normalize_swap_iff :
    (binary rhs op.commute lhs).normalize = (binary lhs op rhs).normalize ↔
      lhs.normalize ≠ rhs.normalize ∨ op.commute = op := by
  by_cases hop : op = .and
  · subst hop
    exact iff_of_true (normalize_eq_of_conjuncts fun x => by simp [BinaryOp.commute, conjuncts, or_comm]) (.inr rfl)
  · rw [normalize_binary (mt (BinaryOp.commute_eq_and op).1 hop), normalize_binary hop, orderOperands_swap_iff]

/-- One step of writing an expression differently, at any depth: the operands of a comparison or disjunction are
swapped, or conjuncts are reordered, regrouped, repeated or joined with the literal `true`, so that a predicate has the
conjuncts it had. -/
inductive Rearranges : Scalar → Scalar → Prop
  | swap {lhs rhs : Scalar} {op : BinaryOp} (h : lhs.normalize ≠ rhs.normalize ∨ op.commute = op) :
    Rearranges (.binary lhs op rhs) (.binary rhs op.commute lhs)
  | rejoin {a b : Scalar} (h : ∀ x, x ∈ a.conjuncts ↔ x ∈ b.conjuncts) : Rearranges a b
  | left {a b : Scalar} (op : BinaryOp) (rhs : Scalar) (h : Rearranges a b) :
    Rearranges (.binary a op rhs) (.binary b op rhs)
  | right {a b : Scalar} (lhs : Scalar) (op : BinaryOp) (h : Rearranges a b) :
    Rearranges (.binary lhs op a) (.binary lhs op b)
  | not {a b : Scalar} (h : Rearranges a b) : Rearranges (.not a) (.not b)
  | isNull {a b : Scalar} (h : Rearranges a b) : Rearranges (.isNull a) (.isNull b)
  | cast {a b : Scalar} (type : DataType) (h : Rearranges a b) : Rearranges (.cast a type) (.cast b type)
  | argument {a b : Scalar} (name : String) (before after : List Scalar) (h : Rearranges a b) :
    Rearranges (.call name (before ++ a :: after)) (.call name (before ++ b :: after))

namespace Rearranges

/-- A step keeps the normal form. -/
theorem normalize_eq (h : Rearranges a b) : a.normalize = b.normalize := by
  induction h with
  | swap h => exact (normalize_swap_iff.2 h).symm
  | rejoin h => exact normalize_eq_of_conjuncts h
  | left op rhs _ ih => exact normalize_binary_congr ih rfl op
  | right lhs op _ ih => exact normalize_binary_congr rfl ih op
  | not _ ih | isNull _ ih | cast _ _ ih => rw [normalize, normalize, ih]
  | argument name before after _ ih =>
    simp only [normalize, normalizeArgs_eq_map, List.map_append, List.map_cons, ih]

/-- A step can be taken back. -/
theorem symm (h : Rearranges a b) : Rearranges b a := by
  induction h with
  | @swap lhs rhs op h =>
    have hback : rhs.normalize ≠ lhs.normalize ∨ op.commute.commute = op.commute :=
      h.imp Ne.symm fun heq => by rw [heq, heq]
    simpa using swap hback
  | rejoin h => exact rejoin fun x => (h x).symm
  | left op rhs _ ih => exact ih.left op rhs
  | right lhs op _ ih => exact ih.right lhs op
  | not _ ih => exact ih.not
  | isNull _ ih => exact ih.isNull
  | cast type _ ih => exact ih.cast type
  | argument name before after _ ih => exact ih.argument name before after

theorem reflTransGen_binary {lhs' rhs' : Scalar} (hl : Relation.ReflTransGen Rearranges lhs lhs')
    (hr : Relation.ReflTransGen Rearranges rhs rhs') (op : BinaryOp) :
    Relation.ReflTransGen Rearranges (.binary lhs op rhs) (.binary lhs' op rhs') :=
  (hl.lift (binary · op rhs) fun _ _ => left op rhs).trans (hr.lift (binary lhs' op ·) fun _ _ => right lhs' op)

/-- One step at most puts operands in normal form in order. -/
theorem reflTransGen_orderOperands (hl : lhs.normalize = lhs) (hr : rhs.normalize = rhs) (op : BinaryOp) :
    Relation.ReflTransGen Rearranges (.binary lhs op rhs) (orderOperands lhs op rhs) := by
  unfold orderOperands
  split
  · rename_i hlt
    have hne : lhs ≠ rhs := by
      rintro rfl
      rw [(compare_eq_iff lhs lhs).2 rfl] at hlt
      cases hlt
    exact .single (swap (.inl (by rwa [hl, hr])))
  · exact .refl

mutual

/-- Every expression is brought into normal form by steps, its operands first. -/
theorem reflTransGen_normalize : ∀ e : Scalar, Relation.ReflTransGen Rearranges e e.normalize
  | .column _ | .literal _ => .refl
  | .not arg => (reflTransGen_normalize arg).lift Scalar.not fun _ _ => not
  | .isNull arg => (reflTransGen_normalize arg).lift Scalar.isNull fun _ _ => isNull
  | .cast arg type => (reflTransGen_normalize arg).lift (Scalar.cast · type) fun _ _ => cast type
  | .call name args => reflTransGen_normalizeArgs name [] args
  | .binary lhs op rhs => by
    have hoperands := reflTransGen_binary (reflTransGen_normalize lhs) (reflTransGen_normalize rhs) op
    refine hoperands.trans ?_
    by_cases hop : op = .and
    · subst hop
      -- both have the conjuncts of the operands, and only the normal form has them in order
      refine .single (rejoin fun x => ?_)
      rw [mem_conjuncts_normalize, conjuncts, conjuncts, List.mem_append, mem_conjuncts_normalize,
        mem_conjuncts_normalize]
      simp only [List.mem_append, or_and_right, exists_or]
    · rw [normalize_binary hop]
      exact reflTransGen_orderOperands (normalize_normalize lhs) (normalize_normalize rhs) op

theorem reflTransGen_normalizeArgs (name : String) : ∀ before args : List Scalar,
    Relation.ReflTransGen Rearranges (.call name (before ++ args)) (.call name (before ++ normalizeArgs args))
  | _, [] => .refl
  | before, arg :: args => by
    have hfirst := (reflTransGen_normalize arg).lift (fun e => call name (before ++ e :: args))
      fun _ _ => argument name before args
    have hrest := reflTransGen_normalizeArgs name (before ++ [arg.normalize]) args
    rw [List.append_assoc, List.append_assoc] at hrest
    exact hfirst.trans hrest

end

end Rearranges

/-- A normal form is its own, and expressions have one normal form exactly if any number of steps leads from one to
the other. -/
theorem normalize_canonical :
    (∀ e : Scalar, e.normalize.normalize = e.normalize) ∧
      ∀ a b : Scalar, a.normalize = b.normalize ↔ Relation.ReflTransGen Rearranges a b := by
  refine ⟨normalize_normalize, fun a b => ⟨fun h => ?_, fun h => ?_⟩⟩
  · have hback : Relation.ReflTransGen Rearranges b.normalize b :=
      Relation.ReflTransGen.mono (fun _ _ => Rearranges.symm) _ _ (Rearranges.reflTransGen_normalize b).swap
    exact (h ▸ Rearranges.reflTransGen_normalize a).trans hback
  · induction h with
    | refl => rfl
    | tail _ hstep ih => exact ih.trans hstep.normalize_eq

example : (binary (.literal (.bool Bool.true)) .and (binary (.column 2) .gt (.column 1))).normalize =
    (binary (.column 1) .lt (.column 2)).normalize := by decide

end Cascade.Scalar
