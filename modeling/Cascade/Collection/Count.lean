/-!
Counting the members of a list that satisfy a test, for measures that a step makes smaller, and the
total of a list of counts.
-/

namespace Cascade

/-- The total of a list of counts. -/
def total : List Nat → Nat
  | [] => 0
  | n :: l => n + total l

@[simp] theorem total_nil : total [] = 0 := rfl

@[simp] theorem total_cons (n : Nat) (l : List Nat) : total (n :: l) = n + total l := rfl

theorem total_append (l r : List Nat) : total (l ++ r) = total l + total r := by
  induction l with
  | nil => simp
  | cons n l ih => simp [ih, Nat.add_assoc]

theorem le_total {n : Nat} {l : List Nat} (h : n ∈ l) : n ≤ total l := by
  induction l with
  | nil => cases h
  | cons k l ih =>
    rcases List.mem_cons.1 h with rfl | h
    · exact Nat.le_add_right _ _
    · exact Nat.le_trans (ih h) (Nat.le_add_left _ _)

theorem total_eq_zero {l : List Nat} (h : ∀ n ∈ l, n = 0) : total l = 0 := by
  induction l with
  | nil => rfl
  | cons k l ih =>
    rw [total_cons, h k (List.mem_cons_self ..), ih fun n hn => h n (List.mem_cons_of_mem _ hn)]

/-- A change in one place changes a total by what changes there. -/
theorem total_map_modify {α : Type} (f : α → Nat) (g : α → α) {l : List α} {i : Nat} {old : α}
    (h : l[i]? = some old) : total ((l.modify i g).map f) + f old = total (l.map f) + f (g old) := by
  induction l generalizing i with
  | nil => cases h
  | cons x rest ih =>
    cases i with
    | zero =>
      cases h
      simp only [List.modify_zero_cons, List.map_cons, total_cons]
      omega
    | succ i =>
      have := ih h
      simp only [List.modify_succ_cons, List.map_cons, total_cons]
      omega

theorem total_map_set {α : Type} (f : α → Nat) {l : List α} {i : Nat} {old : α} (new : α) (h : l[i]? = some old) :
    total ((l.set i new).map f) + f old = total (l.map f) + f new := by
  induction l generalizing i with
  | nil => cases h
  | cons x rest ih =>
    cases i with
    | zero =>
      cases h
      simp only [List.set_cons_zero, List.map_cons, total_cons]
      omega
    | succ i =>
      have := ih h
      simp only [List.set_cons_succ, List.map_cons, total_cons]
      omega

/-- A stronger test that refuses a member of the list leaves fewer members. -/
theorem length_filter_lt {α : Type} {p q : α → Bool} {l : List α} (sub : ∀ x, q x = true → p x = true)
    {a : α} (ha : a ∈ l) (hp : p a = true) (hq : q a = false) :
    (l.filter q).length < (l.filter p).length := by
  have le : ∀ l : List α, (l.filter q).length ≤ (l.filter p).length := by
    intro l
    induction l with
    | nil => exact Nat.le_refl _
    | cons x l ih =>
      by_cases hx : q x = true
      · simpa [List.filter_cons, hx, sub x hx] using ih
      · rw [List.filter_cons_of_neg hx]
        refine Nat.le_trans ih ?_
        exact List.Sublist.length_le (List.Sublist.filter p (List.sublist_cons_self x l))
  induction l with
  | nil => cases ha
  | cons x l ih =>
    rcases List.mem_cons.1 ha with rfl | ha
    · simp only [List.filter_cons, hp, hq, if_true, List.length_cons]
      exact Nat.lt_succ_of_le (le l)
    · by_cases hx : q x = true
      · simpa [List.filter_cons, hx, sub x hx] using ih ha
      · rw [List.filter_cons_of_neg hx]
        exact Nat.lt_of_lt_of_le (ih ha)
          (List.Sublist.length_le (List.Sublist.filter p (List.sublist_cons_self x l)))

end Cascade
