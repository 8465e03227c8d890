import Cascade.Memo.Merge

/-!
Classes of linked numbers. Two numbers are in one class if their chains have the same end, and that
end is the least number of the class. A new number is a class of its own (`find_add`), and a link
between two ends joins their classes and no others (`find_link`).
-/

namespace Cascade.Links

theorem find_of_parent_eq (l : Links) {i : Nat} (h : l.parent i = i) : l.find i = i := by
  rw [find, if_neg (by omega)]

theorem isRoot_iff (l : Links) (i : Nat) : l.isRoot i = true ↔ l.find i = i := by
  constructor
  · intro h
    exact l.find_of_parent_eq (of_decide_eq_true h)
  · intro h
    have := l.isRoot_find i
    rwa [h] at this

theorem find_find (l : Links) (i : Nat) : l.find (l.find i) = l.find i :=
  (l.isRoot_iff _).1 (l.isRoot_find i)

theorem find_le_of_same (l : Links) {i j : Nat} (h : l.find i = l.find j) : l.find i ≤ j := by
  rw [h]
  exact l.find_le j

theorem parent_eq_getD (l : Links) (i : Nat) : l.parent i = l.parents[i]?.getD i := by
  unfold parent
  split
  · rename_i h
    rw [Array.getElem?_eq_getElem h, Option.getD_some]
  · rename_i h
    rw [Array.getElem?_eq_none (Nat.le_of_not_lt h), Option.getD_none]

theorem parent_of_size_le (l : Links) {i : Nat} (h : l.size ≤ i) : l.parent i = i := by
  rw [parent_eq_getD, Array.getElem?_eq_none h, Option.getD_none]

theorem find_of_size_le (l : Links) {i : Nat} (h : l.size ≤ i) : l.find i = i :=
  l.find_of_parent_eq (l.parent_of_size_le h)

/-- A number that was never added cannot be reached from one that was. -/
theorem lt_size_of_find_lt (l : Links) {i : Nat} (h : l.find i < l.size) : i < l.size := by
  by_cases hi : i < l.size
  · exact hi
  · rw [l.find_of_size_le (Nat.le_of_not_lt hi)] at h
    exact h

theorem find_congr {l k : Links} (h : ∀ i, l.parent i = k.parent i) (i : Nat) : l.find i = k.find i := by
  induction i using Nat.strongRecOn with
  | ind i ih =>
    rw [find, find.eq_def k, h i]
    split
    · rename_i hlt
      exact ih _ hlt
    · rfl

@[simp] theorem size_add (l : Links) : l.add.size = l.size + 1 := by
  simp [add, size]

theorem parent_add (l : Links) (i : Nat) : l.add.parent i = l.parent i := by
  have hp : l.add.parents = l.parents.push l.parents.size := rfl
  rw [parent_eq_getD, parent_eq_getD, hp, Array.getElem?_push]
  split
  · rename_i he
    rw [he, Array.getElem?_eq_none (Nat.le_refl _)]
    rfl
  · rfl

@[simp] theorem find_add (l : Links) (i : Nat) : l.add.find i = l.find i :=
  find_congr l.parent_add i

theorem find_link (l : Links) {child root : Nat} (hlt : root < child) (hc : child < l.size)
    (hchild : l.find child = child) (hroot : l.find root = root) (i : Nat) :
    (l.link child root (Nat.le_of_lt hlt)).find i = if l.find i = child then root else l.find i := by
  induction i using Nat.strongRecOn with
  | ind i ih =>
    have hp := l.parent_link (Nat.le_of_lt hlt) hc i
    by_cases he : i = child
    · subst he
      rw [if_pos rfl] at hp
      rw [find, hp, if_pos hlt, ih root hlt, hroot, if_neg (by omega), hchild, if_pos rfl]
    · rw [if_neg he] at hp
      rw [find, hp]
      by_cases hs : l.parent i < i
      · have hf : l.find i = l.find (l.parent i) := by rw [find, if_pos hs]
        rw [if_pos hs, ih _ hs, hf]
      · have hf : l.find i = i := by rw [find, if_neg hs]
        rw [if_neg hs, hf, if_neg he]

theorem ext_parents {l k : Links} (h : l.parents = k.parents) : l = k := by
  cases l
  cases k
  cases h
  rfl

theorem truncate_size (l : Links) : l.truncate l.size = l :=
  ext_parents (by simp [truncate, size])

theorem truncate_add (l : Links) {n : Nat} (h : n ≤ l.size) : l.add.truncate n = l.truncate n := by
  apply ext_parents
  have hn : n ≤ l.parents.size := h
  simp only [truncate, add, Array.push_eq_append, Array.extract_append]
  rw [Nat.sub_eq_zero_of_le hn]
  simp

end Cascade.Links
