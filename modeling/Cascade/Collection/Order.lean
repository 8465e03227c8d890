/-!
Small facts about comparison functions, used to give the domain types lawful orders.
`Std.TransOrd` and `Std.LawfulEqOrd` of a type are obtained either from an injective key or
from the three laws a strict comparison is usually checked by.
-/

namespace Cascade

open Std

/-- A comparison is transitive as soon as it is oriented, equality is identity and `lt` chains. -/
theorem transCmp_of_lt_trans {α : Type} {cmp : α → α → Ordering}
    (swap : ∀ a b, cmp a b = (cmp b a).swap)
    (eq_iff : ∀ a b, cmp a b = .eq ↔ a = b)
    (lt_trans : ∀ a b c, cmp a b = .lt → cmp b c = .lt → cmp a c = .lt) : TransCmp cmp where
  eq_swap := swap _ _
  isLE_trans := by
    intro a b c hab hbc
    match h₁ : cmp a b, h₂ : cmp b c with
    | .eq, _ => rw [(eq_iff a b).1 h₁]; exact hbc
    | .lt, .eq => rw [← (eq_iff b c).1 h₂]; exact hab
    | .lt, .lt => rw [lt_trans a b c h₁ h₂]; rfl
    | .gt, _ => rw [h₁] at hab; cases hab
    | .lt, .gt => rw [h₂] at hbc; cases hbc

/-- A comparison decides equality when `eq` means identity. -/
theorem lawfulEqCmp_of_eq_iff {α : Type} {cmp : α → α → Ordering}
    (eq_iff : ∀ a b, cmp a b = .eq ↔ a = b) : LawfulEqCmp cmp where
  compare_self := (eq_iff _ _).2 rfl
  eq_of_compare h := (eq_iff _ _).1 h

/-- Comparing by a key inherits transitivity. -/
theorem transCmp_of_key {α β : Type} [Ord β] [TransOrd β] (key : α → β) :
    TransCmp (fun a b : α => compare (key a) (key b)) where
  eq_swap := OrientedCmp.eq_swap
  isLE_trans := TransCmp.isLE_trans

/-- Comparing by an injective key decides equality. -/
theorem lawfulEqCmp_of_key {α β : Type} [Ord β] [LawfulEqOrd β] (key : α → β)
    (inj : ∀ a b, key a = key b → a = b) : LawfulEqCmp (fun a b : α => compare (key a) (key b)) where
  compare_self := ReflCmp.compare_self
  eq_of_compare h := inj _ _ (LawfulEqCmp.eq_of_compare h)

end Cascade
