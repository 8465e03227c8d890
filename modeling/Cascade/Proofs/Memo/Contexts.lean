import Cascade.Memo.Context

/-!
Cost contexts are written once. References come and go, and a context is pruned with the last of them,
but a place never holds another context than the first one (`ContextStore.PrunedTo`).
-/

namespace Cascade.ContextStore

variable {κ : Type}

/-- The second store is the first one after some contexts were pruned. -/
structure PrunedTo (s t : ContextStore κ) : Prop where
  length_eq : t.slots.length = s.slots.length
  get : ∀ {id c}, t.get id = .ok c → s.get id = .ok c

/-- The context at a place, if it is still there. -/
def context? (s : ContextStore κ) (id : ContextId) : Option (CostContext κ) :=
  (s.slots[id.index]?).bind ContextSlot.context

theorem get_ok_iff (s : ContextStore κ) (id : ContextId) (c : CostContext κ) :
    s.get id = .ok c ↔ s.context? id = some c := by
  unfold ContextStore.get context?
  split
  all_goals
    rename_i hs
    rw [hs]
    simp

theorem lt_of_get_ok {s : ContextStore κ} {id : ContextId} {c : CostContext κ} (h : s.get id = .ok c) :
    id.index < s.slots.length := by
  obtain ⟨slot, hs, -⟩ := Option.bind_eq_some_iff.1 ((s.get_ok_iff id c).1 h)
  exact (List.getElem?_eq_some_iff.1 hs).1

theorem PrunedTo.refl (s : ContextStore κ) : s.PrunedTo s := ⟨rfl, fun h => h⟩

theorem PrunedTo.trans {s t u : ContextStore κ} (h : s.PrunedTo t) (k : t.PrunedTo u) : s.PrunedTo u :=
  ⟨k.length_eq.trans h.length_eq, fun hu => h.get (k.get hu)⟩

theorem prunedTo_set {s : ContextStore κ} {i : Nat} {old : ContextSlot κ} (hold : s.slots[i]? = some old)
    (new : ContextSlot κ) (hnew : new.context = old.context ∨ new.context = none) (discarded : Nat) :
    s.PrunedTo ⟨s.slots.set i new, discarded⟩ where
  length_eq := List.length_set
  get := by
    intro id c h
    rw [get_ok_iff] at h ⊢
    unfold context? at h ⊢
    rw [List.getElem?_set] at h
    split at h
    · rename_i hi
      rw [← hi, hold]
      split at h
      · rcases hnew with he | he
        · rw [Option.bind_some, ← he]
          exact h
        · rw [Option.bind_some, he] at h
          cases h
      · cases h
    · exact h

theorem prunedTo_releaseAll (s : ContextStore κ) (ids : List ContextId) : s.PrunedTo (s.releaseAll ids) := by
  fun_induction releaseAll s ids with
  | case1 s => exact .refl s
  | case2 s id rest hs ih => exact ih
  | case3 s id rest c hs ih => exact ih
  | case4 s id rest c hs pruned ih =>
    simp only [List.unattach_reverse, List.unattach_attach] at ih
    have hpruned : s.PrunedTo pruned := prunedTo_set hs ⟨none, 0⟩ (.inr rfl) _
    exact hpruned.trans ih
  | case5 s id rest c refs hne hs left ih =>
    have hleft : s.PrunedTo left := prunedTo_set hs ⟨c, refs⟩ (.inl rfl) _
    exact hleft.trans ih

theorem prunedTo_release (s : ContextStore κ) (id : ContextId) : s.PrunedTo (s.release id) :=
  s.prunedTo_releaseAll [id]

theorem prunedTo_retain (s : ContextStore κ) (id : ContextId) : s.PrunedTo (s.retain id) where
  length_eq := List.length_modify ..
  get := by
    intro k c h
    rw [get_ok_iff] at h ⊢
    unfold context? retain at h
    rw [List.getElem?_modify] at h
    unfold context?
    cases hs : s.slots[k.index]? with
    | none =>
      rw [hs] at h
      cases h
    | some slot =>
      rw [hs] at h
      simp only [Option.map_eq_map, Option.map_some, Option.bind_some] at h ⊢
      split at h <;> exact h

theorem prunedTo_retainAll (s : ContextStore κ) (ids : List ContextId) : s.PrunedTo (ids.foldl retain s) := by
  induction ids generalizing s with
  | nil => exact .refl s
  | cons id ids ih => exact (s.prunedTo_retain id).trans (ih _)

theorem prunedTo_discard (s : ContextStore κ) : s.PrunedTo s.discard := ⟨rfl, fun h => h⟩

theorem add_slots_length (s : ContextStore κ) (c : CostContext κ) :
    (s.add c).2.slots.length = s.slots.length + 1 := by
  have := (s.prunedTo_retainAll c.inputs).length_eq
  simp [add, this]

/-- A context that is there after another one was added was there before, or it is the added one. -/
theorem get_add {s : ContextStore κ} {c d : CostContext κ} {id : ContextId} (h : (s.add c).2.get id = .ok d) :
    s.get id = .ok d ∨ id = (s.add c).1 ∧ d = c := by
  have hlen := (s.prunedTo_retainAll c.inputs).length_eq
  rw [get_ok_iff] at h
  unfold context? add at h
  simp only [List.getElem?_append] at h
  split at h
  · left
    exact (s.prunedTo_retainAll c.inputs).get ((get_ok_iff _ id d).2 h)
  · right
    rename_i hlt
    by_cases hi : id.index = s.slots.length
    · rw [hi, hlen, Nat.sub_self] at h
      exact ⟨congrArg ContextId.mk hi, (Option.some.inj h).symm⟩
    · rw [List.getElem?_eq_none (by simp only [List.length_singleton]; omega)] at h
      cases h

end Cascade.ContextStore
