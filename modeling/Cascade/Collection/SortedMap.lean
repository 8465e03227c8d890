import Cascade.Collection.SortedSet

/-!
Finite maps kept as lists of entries with strictly increasing keys, so that a map has one
representation and every answer that lists a map lists it by key.
-/

namespace Cascade

open Std

/-- A finite map, listed by strictly increasing key. -/
structure SortedMap (α β : Type) [Ord α] where
  entries : List (α × β)
  sorted : entries.Pairwise (fun a b => compare a.1 b.1 = .lt)

namespace SortedMap

variable {α β : Type} [Ord α]

instance [DecidableEq α] [DecidableEq β] : DecidableEq (SortedMap α β) := fun s t =>
  if h : s.entries = t.entries then
    .isTrue (by cases s; cases t; cases h; rfl)
  else .isFalse (fun e => h (congrArg entries e))

def empty : SortedMap α β := ⟨[], .nil⟩

instance : EmptyCollection (SortedMap α β) := ⟨empty⟩

instance : Inhabited (SortedMap α β) := ⟨empty⟩

def isEmpty (m : SortedMap α β) : Bool := m.entries.isEmpty

def size (m : SortedMap α β) : Nat := m.entries.length

def keyList (m : SortedMap α β) : List α := m.entries.map Prod.fst

def keys (m : SortedMap α β) : SortedSet α :=
  ⟨m.keyList, by
    unfold keyList
    exact List.pairwise_map.2 m.sorted⟩

/-- The value stored under a key. -/
def get? [DecidableEq α] (m : SortedMap α β) (a : α) : Option β :=
  (m.entries.find? (fun e => decide (e.1 = a))).map Prod.snd

def contains [DecidableEq α] (m : SortedMap α β) (a : α) : Bool :=
  m.entries.any (fun e => decide (e.1 = a))

/-- The entries that satisfy a test. -/
def filter (p : α → β → Bool) (m : SortedMap α β) : SortedMap α β :=
  ⟨m.entries.filter (fun e => p e.1 e.2), m.sorted.filter _⟩

/-- Puts an entry at its place, replacing an entry with the same key. -/
def insertInto (a : α) (b : β) : List (α × β) → List (α × β)
  | [] => [(a, b)]
  | e :: rest =>
    match compare a e.1 with
    | .lt => (a, b) :: e :: rest
    | .eq => (e.1, b) :: rest
    | .gt => e :: insertInto a b rest

theorem mem_insertInto_imp {a : α} {b : β} {x : α × β} {l : List (α × β)}
    (h : x ∈ insertInto a b l) : x.1 = a ∨ ∃ y ∈ l, y.1 = x.1 := by
  induction l with
  | nil => exact .inl (by simp [insertInto] at h; exact h ▸ rfl)
  | cons e rest ih =>
    unfold insertInto at h
    split at h
    · rcases List.mem_cons.1 h with rfl | h
      · exact .inl rfl
      · exact .inr ⟨x, h, rfl⟩
    · rcases List.mem_cons.1 h with rfl | h
      · exact .inr ⟨e, by simp, rfl⟩
      · exact .inr ⟨x, List.mem_cons_of_mem _ h, rfl⟩
    · rcases List.mem_cons.1 h with rfl | h
      · exact .inr ⟨x, by simp, rfl⟩
      · rcases ih h with h | ⟨y, hy, e⟩
        · exact .inl h
        · exact .inr ⟨y, List.mem_cons_of_mem _ hy, e⟩

theorem sorted_insertInto [TransOrd α] {a : α} {b : β} {l : List (α × β)}
    (h : l.Pairwise (fun a b => compare a.1 b.1 = .lt)) :
    (insertInto a b l).Pairwise (fun a b => compare a.1 b.1 = .lt) := by
  induction l with
  | nil => simp [insertInto]
  | cons e rest ih =>
    have ⟨he, hrest⟩ := List.pairwise_cons.1 h
    unfold insertInto
    split
    · rename_i hab
      refine List.pairwise_cons.2 ⟨fun x hx => ?_, h⟩
      rcases List.mem_cons.1 hx with rfl | hx
      · exact hab
      · exact TransCmp.lt_trans hab (he x hx)
    · exact List.pairwise_cons.2 ⟨fun x hx => he x hx, hrest⟩
    · rename_i hab
      refine List.pairwise_cons.2 ⟨fun x hx => ?_, ih hrest⟩
      rcases mem_insertInto_imp hx with h | ⟨y, hy, h⟩
      · rw [h]; exact OrientedCmp.lt_of_gt hab
      · rw [← h]; exact he y hy

/-- Stores a value under a key, replacing what was there. -/
def insert [TransOrd α] (m : SortedMap α β) (a : α) (b : β) : SortedMap α β :=
  ⟨insertInto a b m.entries, sorted_insertInto m.sorted⟩

/-- Stores every entry of a list in turn; the last entry of a key wins. -/
def insertAll [TransOrd α] (m : SortedMap α β) (l : List (α × β)) : SortedMap α β :=
  l.foldl (fun acc e => acc.insert e.1 e.2) m

def ofList [TransOrd α] (l : List (α × β)) : SortedMap α β := insertAll empty l

/-- The union of two maps; the entries of the second win. -/
def union [TransOrd α] (m n : SortedMap α β) : SortedMap α β := m.insertAll n.entries

instance [TransOrd α] : Union (SortedMap α β) := ⟨union⟩

theorem get?_insert_self [TransOrd α] [LawfulEqOrd α] [DecidableEq α] (m : SortedMap α β) (a : α)
    (b : β) : (m.insert a b).get? a = some b := by
  suffices h : ∀ l : List (α × β),
      ((insertInto a b l).find? (fun e => decide (e.1 = a))).map Prod.snd = some b from h m.entries
  intro l
  induction l with
  | nil => simp [insertInto]
  | cons e rest ih =>
    unfold insertInto
    split
    · simp
    · rename_i hab
      simp [← LawfulEqCmp.eq_of_compare hab]
    · rename_i hab
      have hne : e.1 ≠ a := by
        intro h
        rw [← h, compare_self] at hab
        cases hab
      simpa [List.find?_cons, hne] using ih

theorem get?_insert_of_ne [TransOrd α] [LawfulEqOrd α] [DecidableEq α] (m : SortedMap α β) {a k : α}
    (b : β) (hk : k ≠ a) : (m.insert a b).get? k = m.get? k := by
  suffices h : ∀ l : List (α × β),
      ((insertInto a b l).find? (fun e => decide (e.1 = k))).map Prod.snd =
        (l.find? (fun e => decide (e.1 = k))).map Prod.snd from h m.entries
  intro l
  induction l with
  | nil => simp [insertInto, Ne.symm hk]
  | cons e rest ih =>
    unfold insertInto
    split
    · simp [List.find?_cons, Ne.symm hk]
    · rename_i hab
      have hab := LawfulEqCmp.eq_of_compare hab
      simp [← hab, Ne.symm hk]
    · by_cases he : e.1 = k
      · simp [he]
      · simpa [List.find?_cons, he] using ih

theorem mem_keys_insert [TransOrd α] [LawfulEqOrd α] {m : SortedMap α β} {a k : α} {b : β} :
    k ∈ (m.insert a b).keys ↔ k = a ∨ k ∈ m.keys := by
  suffices h : ∀ l : List (α × β), k ∈ (insertInto a b l).map Prod.fst ↔ k = a ∨ k ∈ l.map Prod.fst from
    h m.entries
  intro l
  induction l with
  | nil => simp [insertInto]
  | cons e rest ih =>
    unfold insertInto
    split
    · simp
    · rename_i hab
      simp [LawfulEqCmp.eq_of_compare hab]
    · rw [List.map_cons, List.mem_cons, ih, List.map_cons, List.mem_cons, or_left_comm]

theorem mem_keys_insertAll [TransOrd α] [LawfulEqOrd α] {l : List (α × β)} {m : SortedMap α β} {k : α} :
    k ∈ (m.insertAll l).keys ↔ k ∈ m.keys ∨ k ∈ l.map Prod.fst := by
  induction l generalizing m with
  | nil => simp [insertAll]
  | cons e l ih =>
    change k ∈ ((m.insert e.1 e.2).insertAll l).keys ↔ _
    rw [ih, mem_keys_insert, List.map_cons, List.mem_cons, or_comm (a := k = e.1), or_assoc]

/-- Entries come from one of the maps; where keys collide, an entry is lost. -/
theorem mem_entries_insertAll [TransOrd α] [LawfulEqOrd α] {l : List (α × β)} {m : SortedMap α β} {x : α × β}
    (h : x ∈ (m.insertAll l).entries) : x ∈ m.entries ∨ x ∈ l := by
  have hinsert : ∀ (a : α) (b : β) (l : List (α × β)), x ∈ insertInto a b l → x = (a, b) ∨ x ∈ l := by
    intro a b l hx
    induction l with
    | nil => exact .inl (List.mem_singleton.1 hx)
    | cons e rest ih =>
      unfold insertInto at hx
      split at hx
      · exact List.mem_cons.1 hx
      · rename_i hab
        rw [LawfulEqCmp.eq_of_compare hab]
        exact (List.mem_cons.1 hx).imp_right (List.mem_cons_of_mem _)
      · rcases List.mem_cons.1 hx with rfl | hx
        · exact .inr (List.mem_cons_self ..)
        · exact (ih hx).imp_right (List.mem_cons_of_mem _)
  induction l generalizing m with
  | nil => exact .inl h
  | cons e l ih =>
    rcases ih h with hx | hx
    · rcases hinsert _ _ _ hx with rfl | hx
      · exact .inr (List.mem_cons_self ..)
      · exact .inl hx
    · exact .inr (List.mem_cons_of_mem _ hx)

theorem mem_entries_union [TransOrd α] [LawfulEqOrd α] {m n : SortedMap α β} {x : α × β}
    (h : x ∈ (m ∪ n).entries) : x ∈ m.entries ∨ x ∈ n.entries := mem_entries_insertAll h

theorem contains_iff [DecidableEq α] {m : SortedMap α β} {a : α} :
    m.contains a = true ↔ ∃ b, m.get? a = some b := by
  unfold contains get?
  rw [List.any_eq_true]
  constructor
  · rintro ⟨e, he, ha⟩
    cases hfind : m.entries.find? (fun e => decide (e.1 = a)) with
    | none => exact absurd ha (List.find?_eq_none.1 hfind e he)
    | some x => exact ⟨x.2, rfl⟩
  · rintro ⟨b, hb⟩
    obtain ⟨e, he, -⟩ := Option.map_eq_some_iff.1 hb
    have ha := List.find?_some he
    exact ⟨e, List.mem_of_find?_eq_some he, ha⟩

end SortedMap
end Cascade
