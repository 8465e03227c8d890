import Cascade.Collection.Count

/-!
Merged numbers: every number is linked to itself or to a smaller one, and the end of its chain stands
for it. Links go downwards, so the end of a chain is reached by recursion on the number.
-/

namespace Cascade

/-- Links from numbers to numbers that are no larger. -/
structure Links where
  parents : Array Nat
  le : ∀ i (h : i < parents.size), parents[i] ≤ i

namespace Links

def empty : Links := ⟨#[], fun i h => absurd h (Nat.not_lt_zero i)⟩

instance : Inhabited Links := ⟨empty⟩

def size (l : Links) : Nat := l.parents.size

/-- The number another one is linked to; numbers that were not added are linked to themselves. -/
def parent (l : Links) (i : Nat) : Nat := if h : i < l.parents.size then l.parents[i] else i

theorem parent_le (l : Links) (i : Nat) : l.parent i ≤ i := by
  unfold parent
  split
  · exact l.le i _
  · exact Nat.le_refl i

/-- The end of the chain that starts at a number. -/
def find (l : Links) (i : Nat) : Nat := if l.parent i < i then l.find (l.parent i) else i
termination_by i

/-- Adds the next number, linked to itself. -/
def add (l : Links) : Links where
  parents := l.parents.push l.size
  le i h := by
    rw [Array.getElem_push]
    split
    · exact l.le i _
    · have : i = l.parents.size := by simp at h; omega
      exact Nat.le_of_eq this.symm

/-- Links a number to one that is no larger. -/
def link (l : Links) (child root : Nat) (h : root ≤ child) : Links where
  parents := l.parents.setIfInBounds child root
  le i hi := by
    have hi : i < l.parents.size := by simpa using hi
    rw [Array.getElem_setIfInBounds hi]
    split
    · rename_i e; exact e ▸ h
    · exact l.le i _

/-- Forgets all numbers but the first ones. -/
def truncate (l : Links) (n : Nat) : Links where
  parents := l.parents.extract 0 n
  le i h := by
    simp only [Array.getElem_extract, Nat.zero_add]
    exact l.le i _

/-- Whether a number is linked to itself. -/
def isRoot (l : Links) (i : Nat) : Bool := decide (l.parent i = i)

/-- The added numbers that are linked to themselves, in order. -/
def roots (l : Links) : List Nat := (List.range l.size).filter l.isRoot

theorem find_le (l : Links) (i : Nat) : l.find i ≤ i := by
  induction i using Nat.strongRecOn with
  | ind i ih =>
    unfold find
    split
    · rename_i h
      exact Nat.le_trans (ih _ h) (l.parent_le i)
    · exact Nat.le_refl i

/-- The end of a chain is linked to itself. -/
theorem isRoot_find (l : Links) (i : Nat) : l.isRoot (l.find i) = true := by
  induction i using Nat.strongRecOn with
  | ind i ih =>
    unfold find
    split
    · rename_i h
      exact ih _ h
    · rename_i h
      exact decide_eq_true (Nat.le_antisymm (l.parent_le i) (Nat.not_lt.1 h))

@[simp] theorem size_link (l : Links) (child root : Nat) (h : root ≤ child) :
    (l.link child root h).size = l.size := by simp [link, size]

theorem parent_link (l : Links) {child root : Nat} (h : root ≤ child) (hc : child < l.size) (i : Nat) :
    (l.link child root h).parent i = if i = child then root else l.parent i := by
  unfold parent link
  simp only [Array.size_setIfInBounds]
  split
  · rename_i hi
    rw [Array.getElem_setIfInBounds hi]
    split
    · rename_i e; simp [e]
    · rename_i e; simp [Ne.symm e]
  · rename_i hi
    have : i ≠ child := fun e => hi (e ▸ hc)
    simp [this]

/-- Linking a root to a smaller number leaves fewer roots. -/
theorem roots_link_lt (l : Links) {child root : Nat} (h : root < child) (hc : child < l.size)
    (hr : l.isRoot child = true) :
    (l.link child root (Nat.le_of_lt h)).roots.length < l.roots.length := by
  unfold roots
  rw [size_link]
  refine length_filter_lt (a := child) ?_ (List.mem_range.2 hc) hr ?_
  · intro x hx
    have hx := of_decide_eq_true hx
    rw [l.parent_link (Nat.le_of_lt h) hc] at hx
    split at hx
    · omega
    · exact decide_eq_true hx
  · refine decide_eq_false ?_
    rw [l.parent_link (Nat.le_of_lt h) hc, if_pos rfl]
    omega

end Links
end Cascade
