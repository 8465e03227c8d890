/-!
JSON documents. A number keeps the text it was written with, so that no digit and no sign of a zero
is lost before its reader knows what kind of number it wants. A member of a document is smaller than
the document (`sizeOf_lt_of_mem_children`), which is what lets decoders recurse through it.
-/

namespace Cascade

/-- A JSON document. -/
inductive Json
  | null
  | bool (b : Bool)
  /-- a number, as it is written -/
  | num (text : String)
  | str (s : String)
  | arr (items : List Json)
  /-- the fields in the order in which they are written -/
  | obj (fields : List (String × Json))

namespace Json

instance : Inhabited Json := ⟨.null⟩

def isNull : Json → Bool
  | null => true
  | _ => false

/-- A field of an object; a missing one is null, and of two fields of one name the later counts. -/
def field (x : Json) (name : String) : Json :=
  match x with
  | obj fields => ((fields.reverse.find? (fun e => decide (e.1 = name))).map Prod.snd).getD null
  | _ => null

/-- The items of an array; null stands for the empty array. -/
def items? : Json → Option (List Json)
  | null => some []
  | arr items => some items
  | _ => none

theorem field_obj {fields : List (String × Json)} {name : String} :
    (obj fields).field name = null ∨ ∃ k, (k, (obj fields).field name) ∈ fields := by
  cases h : fields.reverse.find? (fun e => decide (e.1 = name)) with
  | none => exact .inl (by simp [field, h])
  | some e =>
    refine .inr ⟨e.1, ?_⟩
    have := List.mem_of_find?_eq_some h
    simpa [field, h] using this

theorem sizeOf_lt_of_mem_items? {x item : Json} {items : List Json} (h : x.items? = some items)
    (mem : item ∈ items) : sizeOf item < sizeOf x := by
  cases x with
  | null => simp_all [items?]
  | arr l =>
    obtain rfl : l = items := by simpa [items?] using h
    have := List.sizeOf_lt_of_mem mem
    simp
    omega
  | _ => simp [items?] at h

/-- What a field holds is smaller than the document. -/
theorem sizeOf_field_lt {x : Json} {name : String} (h : x.field name ≠ null) :
    sizeOf (x.field name) < sizeOf x := by
  cases x with
  | obj fields =>
    rcases @field_obj fields name with hnull | ⟨k, hk⟩
    · exact absurd hnull h
    · have := List.sizeOf_lt_of_mem hk
      simp at this ⊢
      omega
  | _ => simp [field] at h

/-- An item of an array that is a field of a document is smaller than the document. -/
theorem sizeOf_lt_of_mem_field {x item : Json} {name : String} {items : List Json}
    (h : (x.field name).items? = some items) (mem : item ∈ items) : sizeOf item < sizeOf x := by
  have item_lt := sizeOf_lt_of_mem_items? h mem
  by_cases hnull : x.field name = null
  · simp_all [items?]
  · exact Nat.lt_trans item_lt (sizeOf_field_lt hnull)

end Json

end Cascade
