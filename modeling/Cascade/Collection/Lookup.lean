/-!
Look-up tables: at most one row per key, in the order the keys were first written.
-/

namespace Cascade

/-- A look-up table from keys to values. -/
structure Lookup (α β : Type) where
  rows : List (α × β)

namespace Lookup

variable {α β : Type}

def empty : Lookup α β := ⟨[]⟩

instance : EmptyCollection (Lookup α β) := ⟨empty⟩

instance : Inhabited (Lookup α β) := ⟨empty⟩

instance [DecidableEq α] [DecidableEq β] : DecidableEq (Lookup α β) := fun s t =>
  if h : s.rows = t.rows then .isTrue (by cases s; cases t; cases h; rfl)
  else .isFalse (fun e => h (congrArg rows e))

variable [DecidableEq α]

/-- The value of a key. -/
def get? (t : Lookup α β) (a : α) : Option β :=
  (t.rows.find? (fun r => decide (r.1 = a))).map Prod.snd

def contains (t : Lookup α β) (a : α) : Bool := (t.get? a).isSome

/-- Writes the value of a key: in place if the key has a row, else in a new last row. -/
def setRow (a : α) (b : β) : List (α × β) → List (α × β)
  | [] => [(a, b)]
  | r :: rest => if r.1 = a then (a, b) :: rest else r :: setRow a b rest

def set (t : Lookup α β) (a : α) (b : β) : Lookup α β := ⟨setRow a b t.rows⟩

/-- Removes the row of a key. -/
def erase (t : Lookup α β) (a : α) : Lookup α β := ⟨t.rows.filter (fun r => !decide (r.1 = a))⟩

/-- Keeps the rows that satisfy a test. -/
def filter (p : α → β → Bool) (t : Lookup α β) : Lookup α β := ⟨t.rows.filter (fun r => p r.1 r.2)⟩

/-- Changes every value. -/
def mapValues {γ : Type} (f : β → γ) (t : Lookup α β) : Lookup α γ := ⟨t.rows.map (fun r => (r.1, f r.2))⟩

def keyList (t : Lookup α β) : List α := t.rows.map Prod.fst

def valueList (t : Lookup α β) : List β := t.rows.map Prod.snd

@[simp] theorem get?_empty (a : α) : (empty : Lookup α β).get? a = none := rfl

@[simp] theorem get?_set_self (t : Lookup α β) (a : α) (b : β) : (t.set a b).get? a = some b := by
  suffices h : ∀ l : List (α × β),
      ((setRow a b l).find? (fun r => decide (r.1 = a))).map Prod.snd = some b from h t.rows
  intro l
  induction l with
  | nil => simp [setRow]
  | cons r rest ih =>
    unfold setRow
    split
    · simp
    · rename_i h
      simpa [List.find?_cons, h] using ih

@[simp] theorem get?_set_of_ne (t : Lookup α β) {a k : α} (b : β) (hk : k ≠ a) :
    (t.set a b).get? k = t.get? k := by
  suffices h : ∀ l : List (α × β),
      ((setRow a b l).find? (fun r => decide (r.1 = k))).map Prod.snd =
        (l.find? (fun r => decide (r.1 = k))).map Prod.snd from h t.rows
  intro l
  induction l with
  | nil => simp [setRow, Ne.symm hk]
  | cons r rest ih =>
    unfold setRow
    split
    · rename_i h
      simp [h, Ne.symm hk]
    · by_cases hr : r.1 = k
      · simp [hr]
      · simpa [List.find?_cons, hr] using ih

theorem get?_set (t : Lookup α β) (a k : α) (b : β) :
    (t.set a b).get? k = if k = a then some b else t.get? k := by
  by_cases h : k = a
  · simp [h]
  · simp [h, t.get?_set_of_ne b h]

theorem contains_set_iff (t : Lookup α β) (a k : α) (b : β) :
    (t.set a b).contains k = true ↔ t.contains k = true ∨ a = k := by
  rw [contains, contains, get?_set]
  split
  · rename_i h
    exact iff_of_true rfl (.inr h.symm)
  · rename_i h
    exact ⟨.inl, fun hk => hk.resolve_right (fun he => h he.symm)⟩

@[simp] theorem get?_erase_self (t : Lookup α β) (a : α) : (t.erase a).get? a = none := by
  simp [get?, erase, List.find?_eq_none]

@[simp] theorem get?_erase_of_ne (t : Lookup α β) {a k : α} (hk : k ≠ a) :
    (t.erase a).get? k = t.get? k := by
  suffices h : ∀ l : List (α × β),
      ((l.filter (fun r => !decide (r.1 = a))).find? (fun r => decide (r.1 = k))).map Prod.snd =
        (l.find? (fun r => decide (r.1 = k))).map Prod.snd from h t.rows
  intro l
  induction l with
  | nil => rfl
  | cons r rest ih =>
    by_cases hr : r.1 = a
    · have : r.1 ≠ k := fun h => hk (h ▸ hr)
      simpa [List.filter_cons, List.find?_cons, hr, this, Ne.symm hk] using ih
    · by_cases hrk : r.1 = k
      · simp [hrk, hk]
      · simpa [List.filter_cons, List.find?_cons, hr, hrk] using ih

theorem get?_erase (t : Lookup α β) (a k : α) :
    (t.erase a).get? k = if k = a then none else t.get? k := by
  by_cases h : k = a
  · simp [h]
  · simp [h]

theorem get?_mapValues {γ : Type} (f : β → γ) (t : Lookup α β) (a : α) :
    (t.mapValues f).get? a = (t.get? a).map f := by
  simp only [get?, mapValues, List.find?_map, Option.map_map]
  rfl

theorem get?_eq_none_iff (t : Lookup α β) (a : α) : t.get? a = none ↔ ∀ r ∈ t.rows, r.1 ≠ a := by
  simp [get?]

theorem mem_rows_of_get? {t : Lookup α β} {a : α} {b : β} (h : t.get? a = some b) : (a, b) ∈ t.rows := by
  obtain ⟨r, hr, rfl⟩ := Option.map_eq_some_iff.1 h
  have ha : r.1 = a := by simpa using List.find?_some hr
  rw [← ha]
  exact List.mem_of_find?_eq_some hr

/-- A key without a row gets a new last row. -/
theorem rows_set_of_get?_none {t : Lookup α β} {a : α} (h : t.get? a = none) (b : β) :
    (t.set a b).rows = t.rows ++ [(a, b)] := by
  suffices H : ∀ l : List (α × β), (∀ r ∈ l, r.1 ≠ a) → setRow a b l = l ++ [(a, b)] from
    H t.rows ((t.get?_eq_none_iff a).1 h)
  intro l
  induction l with
  | nil => intro _; rfl
  | cons r rest ih =>
    intro hl
    rw [setRow, if_neg (hl r (List.mem_cons_self ..)), ih (fun x hx => hl x (List.mem_cons_of_mem _ hx))]
    rfl

theorem mem_rows_set {t : Lookup α β} {a : α} {b : β} {r : α × β} (h : r ∈ (t.set a b).rows) :
    r = (a, b) ∨ r ∈ t.rows := by
  suffices H : ∀ l : List (α × β), r ∈ setRow a b l → r = (a, b) ∨ r ∈ l from H t.rows h
  intro l
  induction l with
  | nil => intro hr; exact .inl (List.mem_singleton.1 hr)
  | cons x rest ih =>
    intro hr
    unfold setRow at hr
    split at hr
    · exact (List.mem_cons.1 hr).imp_right (List.mem_cons_of_mem _)
    · rcases List.mem_cons.1 hr with rfl | hr
      · exact .inr (List.mem_cons_self ..)
      · exact (ih hr).imp_right (List.mem_cons_of_mem _)

theorem mem_rows_erase {t : Lookup α β} {a : α} {r : α × β} (h : r ∈ (t.erase a).rows) : r ∈ t.rows :=
  (List.mem_filter.1 h).1

end Lookup
end Cascade
