import Cascade.Scalar.Expr

/-!
The total order of scalar expressions: by kind of expression first, then by the parts from left to
right. Main statements: the order is lawful (`Std.TransOrd`, `Std.LawfulEqOrd`), so sets of
predicates have one representation and equality of expressions is decided by comparing them.
-/

namespace Cascade

open Std

namespace Scalar

mutual

/-- Compares two expressions. -/
protected def compare : Scalar → Scalar → Ordering
  | .column a, .column b => compare a b
  | .literal a, .literal b => Value.compare a b
  | .binary a o b, .binary a' o' b' => (a.compare a').then ((compare o o').then (b.compare b'))
  | .not a, .not b => a.compare b
  | .isNull a, .isNull b => a.compare b
  | .cast a t, .cast b u => (a.compare b).then (compare t u)
  | .call f as, .call g bs => (compare f g).then (compareArgs as bs)
  | a, b => compare a.ctorIdx b.ctorIdx

/-- Compares argument lists; a proper beginning comes first. -/
def compareArgs : List Scalar → List Scalar → Ordering
  | [], [] => .eq
  | [], _ :: _ => .lt
  | _ :: _, [] => .gt
  | a :: as, b :: bs => (a.compare b).then (compareArgs as bs)

end

instance : Ord Scalar := ⟨Scalar.compare⟩

theorem compare_of_ctorIdx_ne {a b : Scalar} (h : a.ctorIdx ≠ b.ctorIdx) :
    a.compare b = compare a.ctorIdx b.ctorIdx := by
  cases a <;> cases b <;> first
    | exact absurd rfl h
    | (unfold Scalar.compare; rfl)

theorem eq_iff_of_ctorIdx_ne {a b : Scalar} (h : a.ctorIdx ≠ b.ctorIdx) :
    a.compare b = .eq ↔ a = b := by
  rw [compare_of_ctorIdx_ne h]
  exact ⟨fun e => absurd (Nat.compare_eq_eq.1 e) h, fun e => absurd (congrArg Scalar.ctorIdx e) h⟩

mutual

theorem compare_eq_iff : ∀ a b : Scalar, a.compare b = .eq ↔ a = b
  | .column a, b => by
    cases b with
    | column b =>
      simp only [Scalar.compare, column.injEq]
      exact Nat.compare_eq_eq
    | _ => exact eq_iff_of_ctorIdx_ne (fun h => by cases h)
  | .literal a, b => by
    cases b with
    | literal b => simp [Scalar.compare, Value.compare_eq_iff]
    | _ => exact eq_iff_of_ctorIdx_ne (fun h => by cases h)
  | .binary a o b, c => by
    cases c with
    | binary a' o' b' =>
      simp [Scalar.compare, compare_eq_iff a a', compare_eq_iff b b']
    | _ => exact eq_iff_of_ctorIdx_ne (fun h => by cases h)
  | .not a, b => by
    cases b with
    | not b => simp [Scalar.compare, compare_eq_iff a b]
    | _ => exact eq_iff_of_ctorIdx_ne (fun h => by cases h)
  | .isNull a, b => by
    cases b with
    | isNull b => simp [Scalar.compare, compare_eq_iff a b]
    | _ => exact eq_iff_of_ctorIdx_ne (fun h => by cases h)
  | .cast a t, b => by
    cases b with
    | cast b u => simp [Scalar.compare, compare_eq_iff a b]
    | _ => exact eq_iff_of_ctorIdx_ne (fun h => by cases h)
  | .call f as, b => by
    cases b with
    | call g bs => simp [Scalar.compare, compareArgs_eq_iff as bs]
    | _ => exact eq_iff_of_ctorIdx_ne (fun h => by cases h)

theorem compareArgs_eq_iff : ∀ as bs : List Scalar, compareArgs as bs = .eq ↔ as = bs
  | [], [] => by simp [compareArgs]
  | [], _ :: _ => by simp [compareArgs]
  | _ :: _, [] => by simp [compareArgs]
  | a :: as, b :: bs => by
    simp [compareArgs, compare_eq_iff a b, compareArgs_eq_iff as bs]

end

theorem swap_of_ctorIdx_ne {a b : Scalar} (h : a.ctorIdx ≠ b.ctorIdx) :
    a.compare b = (b.compare a).swap := by
  rw [compare_of_ctorIdx_ne h, compare_of_ctorIdx_ne (Ne.symm h)]
  exact OrientedCmp.eq_swap

mutual

theorem compare_swap : ∀ a b : Scalar, a.compare b = (b.compare a).swap
  | .column a, b => by
    cases b with
    | column b =>
      simp only [Scalar.compare]
      exact (OrientedCmp.eq_swap : compare a b = (compare b a).swap)
    | _ => exact swap_of_ctorIdx_ne (fun h => by cases h)
  | .literal a, b => by
    cases b with
    | literal b =>
      simp only [Scalar.compare]
      exact Value.compare_swap a b
    | _ => exact swap_of_ctorIdx_ne (fun h => by cases h)
  | .binary a o b, c => by
    cases c with
    | binary a' o' b' =>
      simp only [Scalar.compare, Ordering.swap_then]
      rw [compare_swap a a', compare_swap b b', (OrientedCmp.eq_swap : compare o o' = _)]
    | _ => exact swap_of_ctorIdx_ne (fun h => by cases h)
  | .not a, b => by
    cases b with
    | not b =>
      simp only [Scalar.compare]
      exact compare_swap a b
    | _ => exact swap_of_ctorIdx_ne (fun h => by cases h)
  | .isNull a, b => by
    cases b with
    | isNull b =>
      simp only [Scalar.compare]
      exact compare_swap a b
    | _ => exact swap_of_ctorIdx_ne (fun h => by cases h)
  | .cast a t, b => by
    cases b with
    | cast b u =>
      simp only [Scalar.compare, Ordering.swap_then]
      rw [compare_swap a b, (OrientedCmp.eq_swap : compare t u = _)]
    | _ => exact swap_of_ctorIdx_ne (fun h => by cases h)
  | .call f as, b => by
    cases b with
    | call g bs =>
      simp only [Scalar.compare, Ordering.swap_then]
      rw [compareArgs_swap as bs, (OrientedCmp.eq_swap : compare f g = _)]
    | _ => exact swap_of_ctorIdx_ne (fun h => by cases h)

theorem compareArgs_swap : ∀ as bs : List Scalar, compareArgs as bs = (compareArgs bs as).swap
  | [], [] => by simp [compareArgs]
  | [], _ :: _ => by simp [compareArgs]
  | _ :: _, [] => by simp [compareArgs]
  | a :: as, b :: bs => by
    simp only [compareArgs, Ordering.swap_then]
    rw [compare_swap a b, compareArgs_swap as bs]

end

/-- A smaller expression has a smaller kind or the same one. -/
theorem ctorIdx_le_of_lt {a b : Scalar} (h : a.compare b = .lt) : a.ctorIdx ≤ b.ctorIdx := by
  by_cases e : a.ctorIdx = b.ctorIdx
  · exact Nat.le_of_eq e
  · rw [compare_of_ctorIdx_ne e] at h
    exact Nat.le_of_lt (Nat.compare_eq_lt.1 h)

theorem lt_of_ctorIdx_lt {a b : Scalar} (h : a.ctorIdx < b.ctorIdx) : a.compare b = .lt := by
  rw [compare_of_ctorIdx_ne (Nat.ne_of_lt h)]
  exact Nat.compare_eq_lt.2 h

/-- If `a < b < c` in kind, nothing else is compared. -/
theorem lt_of_ctorIdx_ne {a b c : Scalar} (hab : a.compare b = .lt) (hbc : b.compare c = .lt)
    (h : a.ctorIdx ≠ b.ctorIdx ∨ b.ctorIdx ≠ c.ctorIdx) : a.compare c = .lt := by
  have := ctorIdx_le_of_lt hab
  have := ctorIdx_le_of_lt hbc
  exact lt_of_ctorIdx_lt (by omega)

/-- The lexicographic step: if both parts chain, so does their combination. -/
theorem then_lt_trans {α : Type} {cmp : α → α → Ordering} {x y z : α} {p q r : Ordering}
    (eq_iff : ∀ u v, cmp u v = .eq ↔ u = v)
    (head : cmp x y = .lt → cmp y z = .lt → cmp x z = .lt)
    (tail : p = .lt → q = .lt → r = .lt)
    (hxy : (cmp x y).then p = .lt) (hyz : (cmp y z).then q = .lt) : (cmp x z).then r = .lt := by
  rw [Ordering.then_eq_lt] at *
  rcases hxy with hxy | ⟨hxy, hp⟩
  · rcases hyz with hyz | ⟨hyz, _⟩
    · exact .inl (head hxy hyz)
    · rw [(eq_iff y z).1 hyz] at hxy
      exact .inl hxy
  · rw [(eq_iff x y).1 hxy]
    rcases hyz with hyz | ⟨hyz, hq⟩
    · exact .inl hyz
    · exact .inr ⟨hyz, tail hp hq⟩

mutual

theorem compare_lt_trans : ∀ a b c : Scalar,
    a.compare b = .lt → b.compare c = .lt → a.compare c = .lt
  | .column a, b, c, hab, hbc => by
    cases b with
    | column b =>
      cases c with
      | column c =>
        simp only [Scalar.compare] at *
        exact Nat.compare_eq_lt.2 (Nat.lt_trans (Nat.compare_eq_lt.1 hab) (Nat.compare_eq_lt.1 hbc))
      | _ => exact lt_of_ctorIdx_ne hab hbc (.inr fun h => by cases h)
    | _ => exact lt_of_ctorIdx_ne hab hbc (.inl fun h => by cases h)
  | .literal a, b, c, hab, hbc => by
    cases b with
    | literal b =>
      cases c with
      | literal c =>
        simp only [Scalar.compare] at *
        exact Value.compare_lt_trans a b c hab hbc
      | _ => exact lt_of_ctorIdx_ne hab hbc (.inr fun h => by cases h)
    | _ => exact lt_of_ctorIdx_ne hab hbc (.inl fun h => by cases h)
  | .binary a₁ o₁ b₁, b, c, hab, hbc => by
    cases b with
    | binary a₂ o₂ b₂ =>
      cases c with
      | binary a₃ o₃ b₃ =>
        simp only [Scalar.compare] at *
        exact then_lt_trans compare_eq_iff (compare_lt_trans a₁ a₂ a₃)
          (then_lt_trans (fun _ _ => LawfulEqCmp.compare_eq_iff_eq) TransCmp.lt_trans
            (compare_lt_trans b₁ b₂ b₃)) hab hbc
      | _ => exact lt_of_ctorIdx_ne hab hbc (.inr fun h => by cases h)
    | _ => exact lt_of_ctorIdx_ne hab hbc (.inl fun h => by cases h)
  | .not a, b, c, hab, hbc => by
    cases b with
    | not b =>
      cases c with
      | not c =>
        simp only [Scalar.compare] at *
        exact compare_lt_trans a b c hab hbc
      | _ => exact lt_of_ctorIdx_ne hab hbc (.inr fun h => by cases h)
    | _ => exact lt_of_ctorIdx_ne hab hbc (.inl fun h => by cases h)
  | .isNull a, b, c, hab, hbc => by
    cases b with
    | isNull b =>
      cases c with
      | isNull c =>
        simp only [Scalar.compare] at *
        exact compare_lt_trans a b c hab hbc
      | _ => exact lt_of_ctorIdx_ne hab hbc (.inr fun h => by cases h)
    | _ => exact lt_of_ctorIdx_ne hab hbc (.inl fun h => by cases h)
  | .cast a t, b, c, hab, hbc => by
    cases b with
    | cast b u =>
      cases c with
      | cast c v =>
        simp only [Scalar.compare] at *
        exact then_lt_trans compare_eq_iff (compare_lt_trans a b c) TransCmp.lt_trans hab hbc
      | _ => exact lt_of_ctorIdx_ne hab hbc (.inr fun h => by cases h)
    | _ => exact lt_of_ctorIdx_ne hab hbc (.inl fun h => by cases h)
  | .call f as, b, c, hab, hbc => by
    cases b with
    | call g bs =>
      cases c with
      | call h cs =>
        simp only [Scalar.compare] at *
        exact then_lt_trans (fun _ _ => LawfulEqCmp.compare_eq_iff_eq) TransCmp.lt_trans
          (compareArgs_lt_trans as bs cs) hab hbc
      | _ => exact lt_of_ctorIdx_ne hab hbc (.inr fun h => by cases h)
    | _ => exact lt_of_ctorIdx_ne hab hbc (.inl fun h => by cases h)

theorem compareArgs_lt_trans : ∀ as bs cs : List Scalar,
    compareArgs as bs = .lt → compareArgs bs cs = .lt → compareArgs as cs = .lt
  | [], bs, [], _, h => by cases bs <;> simp [compareArgs] at h
  | [], _, _ :: _, _, _ => by simp [compareArgs]
  | _ :: _, [], _, h, _ => by simp [compareArgs] at h
  | _ :: _, _ :: _, [], _, h => by simp [compareArgs] at h
  | a :: as, b :: bs, c :: cs, hab, hbc => by
    simp only [compareArgs] at *
    exact then_lt_trans compare_eq_iff (compare_lt_trans a b c) (compareArgs_lt_trans as bs cs) hab hbc

end

instance : TransOrd Scalar := transCmp_of_lt_trans compare_swap compare_eq_iff compare_lt_trans

instance : LawfulEqOrd Scalar := lawfulEqCmp_of_eq_iff compare_eq_iff

instance : DecidableEq Scalar := fun a b =>
  match h : a.compare b with
  | .eq => .isTrue ((compare_eq_iff a b).1 h)
  | .lt => .isFalse (fun e => by rw [(compare_eq_iff a b).2 e] at h; cases h)
  | .gt => .isFalse (fun e => by rw [(compare_eq_iff a b).2 e] at h; cases h)

end Scalar
end Cascade
