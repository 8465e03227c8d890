import Mathlib.Algebra.BigOperators.Group.List.Basic
import Mathlib.Algebra.GroupWithZero.Nat
import Mathlib.Data.List.Perm.Basic
import Cascade.Derivation.Logical
import Cascade.Proofs.Properties.Bounds

/-!
Bounds that overflow. Counting rows up to a limit and not at all beyond it (`MaxCardinality.ofCount`) agrees with products
and sums of natural numbers, so bounds are multiplied and added as numbers are: a result is the exact one where it fits and
no bound otherwise, and neither the order nor the bracketing of the operands shows in it
(`MaxCardinality.exact_or_unbounded`).
-/

namespace Cascade

/-- A way to combine operands in pairs: their order and where the brackets are. -/
inductive Bracketing (α : Type)
  | single (a : α)
  | pair (l r : Bracketing α)
  deriving DecidableEq, Repr

namespace Bracketing

variable {α β : Type}

/-- The operands from left to right. -/
def operands : Bracketing α → List α
  | single a => [a]
  | pair l r => l.operands ++ r.operands

/-- The value of the expression that is bracketed in this way. -/
def combine (op : α → α → α) : Bracketing α → α
  | single a => a
  | pair l r => op (l.combine op) (r.combine op)

def map (f : α → β) : Bracketing α → Bracketing β
  | single a => single (f a)
  | pair l r => pair (l.map f) (r.map f)

theorem map_congr {f g : α → β} {t : Bracketing α} (h : ∀ a ∈ t.operands, f a = g a) : t.map f = t.map g := by
  induction t with
  | single a => exact congrArg _ (h a (List.mem_singleton.2 rfl))
  | pair l r ihl ihr =>
    obtain ⟨hl, hr⟩ := List.forall_mem_append.1 h
    exact congrArg₂ pair (ihl hl) (ihr hr)

theorem combine_map {f : α → β} {op : α → α → α} {op' : β → β → β} (h : ∀ a b, op' (f a) (f b) = f (op a b))
    (t : Bracketing α) : (t.map f).combine op' = f (t.combine op) := by
  induction t with
  | single a => rfl
  | pair l r ihl ihr => rw [map, combine, ihl, ihr, h, combine]

theorem combine_mul (t : Bracketing Nat) : t.combine (· * ·) = t.operands.prod := by
  induction t with
  | single n => exact List.prod_singleton.symm
  | pair l r ihl ihr => rw [combine, operands, List.prod_append, ihl, ihr]

theorem combine_add (t : Bracketing Nat) : t.combine (· + ·) = t.operands.sum := by
  induction t with
  | single n => exact List.sum_singleton.symm
  | pair l r ihl ihr => rw [combine, operands, List.sum_append, ihl, ihr]

section

variable {op : α → α → α}

theorem some_foldl (a : α) (l : List α) : (l.map some).foldl (Option.merge op) (some a) = some (l.foldl op a) := by
  induction l generalizing a with
  | nil => rfl
  | cons b l ih => exact ih (op a b)

variable [Std.Associative op]

/-- Without a neutral element `none` stands before the first operand. -/
theorem some_combine (t : Bracketing α) : some (t.combine op) = (t.operands.map some).foldl (Option.merge op) none := by
  have hassoc : Std.Associative (Option.merge op) := inferInstance
  have hmerge : ∀ a, Option.merge op a (some (t.combine op)) = (t.operands.map some).foldl (Option.merge op) a := by
    induction t with
    | single b => exact fun a => rfl
    | pair l r ihl ihr =>
      intro a
      rw [operands, List.map_append, List.foldl_append, ← ihl, ← ihr]
      exact (hassoc.assoc a (some (l.combine op)) (some (r.combine op))).symm
  exact hmerge none

/-- However operands are ordered and bracketed, they give what they give from left to right. -/
theorem combine_eq_foldl [Std.Commutative op] {t : Bracketing α} {first : α} {others : List α}
    (h : t.operands.Perm (first :: others)) : t.combine op = others.foldl op first := by
  refine Option.some.inj ?_
  calc some (t.combine op) = (t.operands.map some).foldl (Option.merge op) none := some_combine t
    _ = ((first :: others).map some).foldl (Option.merge op) none := (h.map some).foldl_op_eq
    _ = some (others.foldl op first) := some_foldl first others

end

end Bracketing

namespace MaxCardinality

theorem ofCount_eq_bounded {n : Nat} (h : n < countLimit) : ofCount n = bounded n := if_pos h

theorem ofCount_eq_unbounded {n : Nat} (h : ¬ n < countLimit) : ofCount n = unbounded := if_neg h

theorem bounded_multiply_bounded (m n : Nat) : (bounded m).multiply (bounded n) = ofCount (m * n) := by
  by_cases hm : m = 0
  · rw [hm, Nat.zero_mul]
    rfl
  by_cases hn : n = 0
  · rw [hn, multiply_zero]
    rfl
  exact multiply_bounded m n hm hn

theorem ofCount_multiply_bounded (m n : Nat) : (ofCount m).multiply (bounded n) = ofCount (m * n) := by
  by_cases hn : n = 0
  · rw [hn, multiply_zero]
    rfl
  by_cases hm : m = 0
  · rw [hm, Nat.zero_mul]
    rfl
  exact ofCount_multiply hm hn

theorem ofCount_mul (m n : Nat) : (ofCount m).multiply (ofCount n) = ofCount (m * n) := by
  by_cases h : n < countLimit
  · rw [ofCount_eq_bounded h, ofCount_multiply_bounded]
  by_cases hm : m = 0
  · rw [hm, Nat.zero_mul]
    rfl
  have hle : n ≤ m * n := Nat.le_mul_of_pos_left n (Nat.pos_of_ne_zero hm)
  rw [ofCount_eq_unbounded h, multiply_unbounded (ofCount_ne_zero hm),
    ofCount_eq_unbounded fun hlt => h (Nat.lt_of_le_of_lt hle hlt)]

theorem add_unbounded (l : MaxCardinality) : l.add unbounded = unbounded := by
  cases l <;> rfl

theorem add_comm (l r : MaxCardinality) : l.add r = r.add l := by
  cases l <;> cases r <;> simp only [add, Nat.add_comm]

/-- A sum that is too large stays so. -/
theorem ofCount_add_bounded (m n : Nat) : (ofCount m).add (bounded n) = ofCount (m + n) := by
  by_cases h : m < countLimit
  · rw [ofCount_eq_bounded h, add]
  · rw [ofCount_eq_unbounded h, add_comm, add_unbounded,
      ofCount_eq_unbounded fun hlt => h (Nat.lt_of_le_of_lt (Nat.le_add_right m n) hlt)]

theorem ofCount_add (m n : Nat) : (ofCount m).add (ofCount n) = ofCount (m + n) := by
  by_cases h : n < countLimit
  · rw [ofCount_eq_bounded h, ofCount_add_bounded]
  · rw [ofCount_eq_unbounded h, add_unbounded,
      ofCount_eq_unbounded fun hlt => h (Nat.lt_of_le_of_lt (Nat.le_add_left n m) hlt)]

theorem add_assoc (l r s : MaxCardinality) : (l.add r).add s = l.add (r.add s) := by
  rcases s with s | _
  · rcases r with r | _
    · rcases l with l | _
      · change (ofCount (l + r)).add (bounded s) = (bounded l).add (ofCount (r + s))
        rw [ofCount_add_bounded, add_comm (bounded l), ofCount_add_bounded, Nat.add_comm (r + s), Nat.add_assoc]
      · rw [add_comm unbounded, add_unbounded, add_comm unbounded, add_unbounded, add_comm, add_unbounded]
    · rw [add_unbounded, add_comm unbounded, add_unbounded, add_unbounded]
  · rw [add_unbounded, add_unbounded, add_unbounded]

instance : Std.Associative multiply := ⟨multiply_assoc⟩

instance : Std.Commutative multiply := ⟨multiply_comm⟩

instance : Std.Associative add := ⟨add_assoc⟩

instance : Std.Commutative add := ⟨add_comm⟩

/-- Counts that fit are multiplied and added without a bound on the way: only the result has to fit. -/
theorem combine_bounded {t : Bracketing Nat} (h : ∀ n ∈ t.operands, n < countLimit) :
    (t.map bounded).combine multiply = ofCount t.operands.prod ∧
      (t.map bounded).combine add = ofCount t.operands.sum := by
  have hcount : t.map bounded = t.map ofCount := Bracketing.map_congr fun n hn => (ofCount_eq_bounded (h n hn)).symm
  rw [hcount, Bracketing.combine_map ofCount_mul, Bracketing.combine_map ofCount_add, Bracketing.combine_mul,
    Bracketing.combine_add]
  exact ⟨rfl, rfl⟩

end MaxCardinality

namespace LogicalProperties

theorem maxCardinality_foldl_ofJoin (first : LogicalProperties) (others : List LogicalProperties) :
    (others.foldl (ofJoin .inner .true) first).maxCardinality =
      (others.map (·.maxCardinality)).foldl MaxCardinality.multiply first.maxCardinality := by
  induction others generalizing first with
  | nil => rfl
  | cons next others ih => exact ih (ofJoin .inner .true first next)

end LogicalProperties

namespace MaxCardinality

/-- Bounds are exact or there is none. Products and sums are associative and commutative, a factor without rows leaves
none even beside an unbounded one, counts give the exact product and sum if these fit into 64 bits and are unbounded
otherwise, and all orders and bracketings of some factors have one product, which is the bound that is derived for a join of
inputs with these bounds. -/
theorem exact_or_unbounded :
    (∀ l r s : MaxCardinality,
      (l.multiply r).multiply s = l.multiply (r.multiply s) ∧ l.multiply r = r.multiply l ∧
        (l.add r).add s = l.add (r.add s) ∧ l.add r = r.add l) ∧
    (∀ c : MaxCardinality, (bounded 0).multiply c = bounded 0 ∧ c.multiply (bounded 0) = bounded 0) ∧
    (∀ m n : Nat,
      (bounded m).multiply (bounded n) = (if m * n < 2 ^ 64 then bounded (m * n) else unbounded) ∧
        (bounded m).add (bounded n) = if m + n < 2 ^ 64 then bounded (m + n) else unbounded) ∧
    (∀ t : Bracketing Nat, (∀ n ∈ t.operands, n < 2 ^ 64) →
      (t.map bounded).combine multiply =
          (if t.operands.prod < 2 ^ 64 then bounded t.operands.prod else unbounded) ∧
        (t.map bounded).combine add = if t.operands.sum < 2 ^ 64 then bounded t.operands.sum else unbounded) ∧
    (∀ (first : MaxCardinality) (others : List MaxCardinality) (t : Bracketing MaxCardinality),
      t.operands.Perm (first :: others) → t.combine multiply = others.foldl multiply first) ∧
    ∀ (c : Catalog) (cs : Columns) (producer : Option LogicalProperties) (on : Scalar) (first : LogicalProperties)
      (others : List LogicalProperties) (t : Bracketing MaxCardinality),
      t.operands.Perm ((first :: others).map (·.maxCardinality)) →
        ∃ p, (LogicalOp.naryJoin on).properties c cs (first :: others) producer = .ok p ∧
          p.maxCardinality = t.combine multiply := by
  refine ⟨fun l r s => ⟨multiply_assoc l r s, multiply_comm l r, add_assoc l r s, add_comm l r⟩,
    fun c => ⟨zero_multiply c, multiply_zero c⟩, fun m n => ⟨bounded_multiply_bounded m n, rfl⟩,
    fun t ht => combine_bounded ht, fun first others t ht => Bracketing.combine_eq_foldl ht,
    fun c cs producer on first others t ht => ⟨_, rfl, ?_⟩⟩
  rw [Bracketing.combine_eq_foldl ht]
  exact LogicalProperties.maxCardinality_foldl_ofJoin first others

/-- Two factors with a product that does not fit, and then one without rows. -/
def emptiedProduct : Bracketing Nat := .pair (.pair (.single (2 ^ 40)) (.single (2 ^ 40))) (.single 0)

theorem exact_or_unbounded_emptiedProduct :
    ((∀ n ∈ emptiedProduct.operands, n < 2 ^ 64) ∧
      (emptiedProduct.map bounded).combine multiply = bounded 0 ∧
      (emptiedProduct.map bounded).combine add = bounded (2 ^ 41)) ∧
    ((emptiedProduct.map bounded).operands.Perm [bounded (2 ^ 40), bounded 0, bounded (2 ^ 40)] ∧
      (emptiedProduct.map bounded).combine multiply =
        [bounded 0, bounded (2 ^ 40)].foldl multiply (bounded (2 ^ 40))) ∧
    ((Bracketing.pair (.single (bounded 0)) (.single unbounded)).operands.Perm [unbounded, bounded 0] ∧
      ∃ p, (LogicalOp.naryJoin .true).properties .empty .empty
          [{ LogicalProperties.empty with maxCardinality := unbounded }, .empty] none = .ok p ∧
        p.maxCardinality = bounded 0) := by
  have hfit : ∀ n ∈ emptiedProduct.operands, n < 2 ^ 64 := by decide
  have hperm : (emptiedProduct.map bounded).operands.Perm [bounded (2 ^ 40), bounded 0, bounded (2 ^ 40)] := by decide
  have hjoined : (Bracketing.pair (.single (bounded 0)) (.single unbounded)).operands.Perm [unbounded, bounded 0] := by
    decide
  obtain ⟨-, -, -, hcounts, hfold, hjoin⟩ := exact_or_unbounded
  exact ⟨⟨hfit, hcounts _ hfit⟩, ⟨hperm, hfold _ _ _ hperm⟩, hjoined,
    hjoin .empty .empty none .true { LogicalProperties.empty with maxCardinality := unbounded } [.empty] _ hjoined⟩

end MaxCardinality
end Cascade
