import Cascade.Collection.Order

/-!
Finite sets kept as strictly increasing lists. The order is part of the type, so two sets with the
same members are the same value (`ext_mem`), and every answer that lists a set lists it in order.
-/

namespace Cascade

open Std

/-- A finite set, listed in strictly increasing order. -/
structure SortedSet (α : Type) [Ord α] where
  toList : List α
  sorted : toList.Pairwise (fun a b => compare a b = .lt)

namespace SortedSet

variable {α : Type} [Ord α]

instance [DecidableEq α] : DecidableEq (SortedSet α) := fun s t =>
  if h : s.toList = t.toList then
    .isTrue (by cases s; cases t; cases h; rfl)
  else .isFalse (fun e => h (congrArg toList e))

instance : Membership α (SortedSet α) := ⟨fun s a => a ∈ s.toList⟩

theorem mem_def {a : α} {s : SortedSet α} : a ∈ s ↔ a ∈ s.toList := Iff.rfl

instance [DecidableEq α] (a : α) (s : SortedSet α) : Decidable (a ∈ s) :=
  inferInstanceAs (Decidable (a ∈ s.toList))

def empty : SortedSet α := ⟨[], .nil⟩

instance : EmptyCollection (SortedSet α) := ⟨empty⟩

theorem not_mem_empty (a : α) : a ∉ (∅ : SortedSet α) := List.not_mem_nil

instance : Inhabited (SortedSet α) := ⟨empty⟩

def singleton (a : α) : SortedSet α := ⟨[a], List.pairwise_singleton _ _⟩

def isEmpty (s : SortedSet α) : Bool := s.toList.isEmpty

def size (s : SortedSet α) : Nat := s.toList.length

/-- The members that satisfy a test. -/
def filter (p : α → Bool) (s : SortedSet α) : SortedSet α :=
  ⟨s.toList.filter p, s.sorted.filter p⟩

/-- Puts an element at its place in an increasing list. -/
def insertInto (a : α) : List α → List α
  | [] => [a]
  | b :: rest =>
    match compare a b with
    | .lt => a :: b :: rest
    | .eq => b :: rest
    | .gt => b :: insertInto a rest

theorem mem_insertInto_imp {a x : α} {l : List α} (h : x ∈ insertInto a l) : x = a ∨ x ∈ l := by
  induction l with
  | nil => simpa [insertInto] using h
  | cons b rest ih =>
    unfold insertInto at h
    split at h
    · simpa using h
    · exact .inr h
    · rcases List.mem_cons.1 h with rfl | h
      · exact .inr (by simp)
      · exact (ih h).imp_right (List.mem_cons_of_mem _)

theorem sorted_insertInto [TransOrd α] {a : α} {l : List α}
    (h : l.Pairwise (fun a b => compare a b = .lt)) :
    (insertInto a l).Pairwise (fun a b => compare a b = .lt) := by
  induction l with
  | nil => simp [insertInto]
  | cons b rest ih =>
    have ⟨hb, hrest⟩ := List.pairwise_cons.1 h
    unfold insertInto
    split
    · rename_i hab
      refine List.pairwise_cons.2 ⟨fun x hx => ?_, h⟩
      rcases List.mem_cons.1 hx with rfl | hx
      · exact hab
      · exact TransCmp.lt_trans hab (hb x hx)
    · exact h
    · rename_i hab
      refine List.pairwise_cons.2 ⟨fun x hx => ?_, ih hrest⟩
      rcases mem_insertInto_imp hx with rfl | hx
      · exact OrientedCmp.lt_of_gt hab
      · exact hb x hx

/-- Adds an element. -/
def insert [TransOrd α] (a : α) (s : SortedSet α) : SortedSet α :=
  ⟨insertInto a s.toList, sorted_insertInto s.sorted⟩

/-- Adds every element of a list. -/
def insertAll [TransOrd α] (s : SortedSet α) (l : List α) : SortedSet α :=
  l.foldl (fun acc a => acc.insert a) s

def ofList [TransOrd α] (l : List α) : SortedSet α := insertAll empty l

def union [TransOrd α] (s t : SortedSet α) : SortedSet α := s.insertAll t.toList

instance [TransOrd α] : Union (SortedSet α) := ⟨union⟩

def inter [DecidableEq α] (s t : SortedSet α) : SortedSet α := s.filter (fun a => decide (a ∈ t))

instance [DecidableEq α] : Inter (SortedSet α) := ⟨inter⟩

def diff [DecidableEq α] (s t : SortedSet α) : SortedSet α := s.filter (fun a => !decide (a ∈ t))

instance [DecidableEq α] : SDiff (SortedSet α) := ⟨diff⟩

def erase [DecidableEq α] (s : SortedSet α) (a : α) : SortedSet α := s.filter (fun b => !decide (b = a))

/-- Whether every member of the first set belongs to the second. -/
def subset [DecidableEq α] (s t : SortedSet α) : Bool := s.toList.all (fun a => decide (a ∈ t))

/-- Whether the two sets have no member in common. -/
def disjoint [DecidableEq α] (s t : SortedSet α) : Bool := s.toList.all (fun a => !decide (a ∈ t))

/-- The image of a set under a function that may give up on some member; then there is no image. -/
def mapM? {β : Type} [Ord β] [TransOrd β] (f : α → Option β) (s : SortedSet α) :
    Option (SortedSet β) :=
  (s.toList.mapM f).map ofList

theorem mem_filter {p : α → Bool} {s : SortedSet α} {a : α} : a ∈ s.filter p ↔ a ∈ s ∧ p a = true :=
  List.mem_filter

theorem mem_insert [TransOrd α] [LawfulEqOrd α] {a x : α} {s : SortedSet α} :
    x ∈ s.insert a ↔ x = a ∨ x ∈ s := by
  suffices h : ∀ l : List α, x ∈ insertInto a l ↔ x = a ∨ x ∈ l from h s.toList
  intro l
  induction l with
  | nil => simp [insertInto]
  | cons b rest ih =>
    unfold insertInto
    split
    · simp
    · rename_i hab
      have hab := LawfulEqCmp.eq_of_compare hab
      subst hab
      simp
    · simp only [List.mem_cons, ih]
      constructor
      · rintro (h | h | h) <;> simp [h]
      · rintro (h | h | h) <;> simp [h]

theorem size_insert [TransOrd α] [LawfulEqOrd α] {a : α} {s : SortedSet α} (h : a ∉ s) :
    (s.insert a).size = s.size + 1 := by
  suffices hl : ∀ l : List α, a ∉ l → (insertInto a l).length = l.length + 1 from hl s.toList h
  intro l hl
  induction l with
  | nil => rfl
  | cons b rest ih =>
    rw [List.mem_cons, not_or] at hl
    unfold insertInto
    split
    · rfl
    · rename_i hab
      exact absurd (LawfulEqCmp.eq_of_compare hab) hl.1
    · rw [List.length_cons, ih hl.2, List.length_cons]

theorem mem_insertAll [TransOrd α] [LawfulEqOrd α] {x : α} {l : List α} {s : SortedSet α} :
    x ∈ s.insertAll l ↔ x ∈ s ∨ x ∈ l := by
  induction l generalizing s with
  | nil => simp [insertAll]
  | cons a l ih =>
    have : s.insertAll (a :: l) = (s.insert a).insertAll l := rfl
    rw [this, ih, mem_insert]
    simp only [List.mem_cons]
    constructor
    · rintro ((h | h) | h) <;> simp [h]
    · rintro (h | h | h) <;> simp [h]

theorem mem_ofList [TransOrd α] [LawfulEqOrd α] {x : α} {l : List α} : x ∈ ofList l ↔ x ∈ l := by
  rw [ofList, mem_insertAll]
  simp [empty, mem_def]

theorem mem_union [TransOrd α] [LawfulEqOrd α] {x : α} {s t : SortedSet α} :
    x ∈ s ∪ t ↔ x ∈ s ∨ x ∈ t := mem_insertAll

theorem mem_foldl_union [TransOrd α] [LawfulEqOrd α] {x : α} {sets : List (SortedSet α)} {s : SortedSet α} :
    x ∈ sets.foldl (· ∪ ·) s ↔ x ∈ s ∨ ∃ t ∈ sets, x ∈ t := by
  induction sets generalizing s with
  | nil => simp
  | cons t sets ih => simp [ih, mem_union, or_assoc]

theorem mem_inter [DecidableEq α] {x : α} {s t : SortedSet α} : x ∈ s ∩ t ↔ x ∈ s ∧ x ∈ t :=
  mem_filter.trans (by simp)

theorem mem_diff [DecidableEq α] {x : α} {s t : SortedSet α} : x ∈ s \ t ↔ x ∈ s ∧ x ∉ t :=
  mem_filter.trans (by simp)

theorem subset_iff [DecidableEq α] {s t : SortedSet α} : s.subset t = true ↔ ∀ a ∈ s, a ∈ t := by
  simp [subset, mem_def]

theorem disjoint_iff [DecidableEq α] {s t : SortedSet α} :
    s.disjoint t = true ↔ ∀ a ∈ s, a ∉ t := by
  simp [disjoint, mem_def]

/-- Two sets with the same members are equal. -/
theorem ext_mem [TransOrd α] {s t : SortedSet α} (h : ∀ a, a ∈ s ↔ a ∈ t) : s = t := by
  have key : ∀ l m : List α, l.Pairwise (fun a b => compare a b = .lt) →
      m.Pairwise (fun a b => compare a b = .lt) → (∀ a, a ∈ l ↔ a ∈ m) → l = m := by
    intro l
    induction l with
    | nil =>
      intro m _ _ h
      cases m with
      | nil => rfl
      | cons b m => exact absurd ((h b).2 (by simp)) (by simp)
    | cons a l ih =>
      intro m hl hm h
      cases m with
      | nil => exact absurd ((h a).1 (by simp)) (by simp)
      | cons b m =>
        have hal := (List.pairwise_cons.1 hl).1
        have hbm := (List.pairwise_cons.1 hm).1
        have irrefl : ∀ x : α, compare x x ≠ .lt := fun x hx => by
          rw [compare_self] at hx; cases hx
        have hab : a = b := by
          rcases List.mem_cons.1 ((h a).1 (by simp)) with h₁ | h₁
          · exact h₁
          · rcases List.mem_cons.1 ((h b).2 (by simp)) with h₂ | h₂
            · exact h₂.symm
            · exact absurd (TransCmp.lt_trans (hal b h₂) (hbm a h₁)) (irrefl a)
        subst hab
        refine congrArg _ (ih m hl.of_cons hm.of_cons fun x => ⟨fun hx => ?_, fun hx => ?_⟩)
        · rcases List.mem_cons.1 ((h x).1 (List.mem_cons_of_mem _ hx)) with rfl | h₁
          · exact absurd (hal x hx) (irrefl x)
          · exact h₁
        · rcases List.mem_cons.1 ((h x).2 (List.mem_cons_of_mem _ hx)) with rfl | h₁
          · exact absurd (hbm x hx) (irrefl x)
          · exact h₁
  have := key s.toList t.toList s.sorted t.sorted h
  cases s
  cases t
  cases this
  rfl

/-- Sets are ordered by their members in order. -/
instance : Ord (SortedSet α) := ⟨fun s t => compare s.toList t.toList⟩

instance [TransOrd α] : TransOrd (SortedSet α) := transCmp_of_key toList

instance [LawfulEqOrd α] : LawfulEqOrd (SortedSet α) :=
  lawfulEqCmp_of_key toList (fun s t h => by cases s; cases t; cases h; rfl)

end SortedSet
end Cascade
