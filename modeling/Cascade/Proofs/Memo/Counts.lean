import Cascade.Proofs.Memo.Contexts
import Cascade.Proofs.Memo.Representation
import Cascade.Proofs.Sequence

/-!
Counts of references. If every count is the number of references that are there, from contexts and from
outside, then taking a reference back leaves the counts right, whatever it prunes
(`ContextStore.Counted.releaseAll`).
-/

namespace Cascade

variable {κ : Type}

/-- How often the context at a place names a context among its inputs. -/
def ContextSlot.naming (slot : ContextSlot κ) (id : ContextId) : Nat :=
  (slot.context.map (fun c => c.inputs.count id)).getD 0

namespace ContextStore

/-- How often present contexts name a context among their inputs. -/
def inputCount (s : ContextStore κ) (id : ContextId) : Nat := total (s.slots.map (fun slot => slot.naming id))

/-- Counts are right: besides its references from present contexts, a context has so many from outside. -/
structure Counted (s : ContextStore κ) (outside : ContextId → Nat) : Prop where
  refs : ∀ {id : ContextId} {slot : ContextSlot κ}, s.slots[id.index]? = some slot →
    slot.refs = outside id + s.inputCount id
  present : ∀ {id : ContextId} {slot : ContextSlot κ}, s.slots[id.index]? = some slot →
    (slot.context.isSome = true ↔ 0 < slot.refs)
  inputs_lt : ∀ {id : ContextId} {c : CostContext κ}, s.context? id = some c → ∀ k ∈ c.inputs, k.index < id.index
  known : ∀ {id : ContextId}, s.slots.length ≤ id.index → outside id = 0

section

variable {s : ContextStore κ} {outside : ContextId → Nat} {id : ContextId}

theorem context?_of_slot {slot : ContextSlot κ} (h : s.slots[id.index]? = some slot) : s.context? id = slot.context := by
  unfold context?
  rw [h, Option.bind_some]

theorem counted_empty : (empty : ContextStore κ).Counted (fun _ => 0) where
  refs h := by cases h
  present h := by cases h
  inputs_lt h := by cases h
  known _ := rfl

theorem inputCount_le {c : CostContext κ} {k : ContextId} (hk : s.context? k = some c) (id : ContextId) :
    c.inputs.count id ≤ s.inputCount id := by
  obtain ⟨slot, hslot, hcontext⟩ := Option.bind_eq_some_iff.1 hk
  have hnaming : slot.naming id = c.inputs.count id := by simp [ContextSlot.naming, hcontext]
  rw [← hnaming]
  exact le_total (List.mem_map_of_mem (List.mem_of_getElem? hslot))

theorem inputCount_eq_zero (h : ∀ k c, s.context? k = some c → id ∉ c.inputs) : s.inputCount id = 0 := by
  refine total_eq_zero fun n hn => ?_
  obtain ⟨slot, hslot, rfl⟩ := List.mem_map.1 hn
  obtain ⟨i, hi⟩ := List.getElem?_of_mem hslot
  cases hcontext : slot.context with
  | none => simp [ContextSlot.naming, hcontext]
  | some c =>
    have hc : s.context? ⟨i⟩ = some c := (show s.context? ⟨i⟩ = _ from context?_of_slot hi).trans hcontext
    have hcount : c.inputs.count id = 0 := List.count_eq_zero_of_not_mem (h _ c hc)
    simp [ContextSlot.naming, hcontext, hcount]

namespace Counted

theorem congr (h : s.Counted outside) {other : ContextId → Nat} (hother : ∀ id, other id = outside id) :
    s.Counted other := by
  rwa [show other = outside from funext hother]

/-- A context that is referred to from outside is there. -/
theorem exists_of_outside (h : s.Counted outside) (hpos : 0 < outside id) : ∃ c, s.context? id = some c := by
  have hlt : id.index < s.slots.length := Nat.not_le.1 fun hle => by
    have := h.known hle
    omega
  have hslot : s.slots[id.index]? = some s.slots[id.index] := List.getElem?_eq_getElem hlt
  have hrefs := h.refs hslot
  have hsome := (h.present hslot).2 (by omega)
  rw [context?_of_slot hslot]
  exact Option.isSome_iff_exists.1 hsome

theorem not_mem_inputs_of_le (h : s.Counted outside) (hle : s.slots.length ≤ id.index) {k : ContextId}
    {c : CostContext κ} (hc : s.context? k = some c) : id ∉ c.inputs := by
  intro hk
  obtain ⟨slot, hslot, -⟩ := Option.bind_eq_some_iff.1 hc
  have hlt := (List.getElem?_eq_some_iff.1 hslot).1
  have := h.inputs_lt hc id hk
  omega

end Counted

theorem inputCount_retain (s : ContextStore κ) (k id : ContextId) : (s.retain k).inputCount id = s.inputCount id := by
  unfold inputCount retain
  exact congrArg total (map_modify_of_eq (fun slot => slot.naming id) (fun slot => { slot with refs := slot.refs + 1 })
    (fun _ => rfl) s.slots k.index)

theorem context?_retain (s : ContextStore κ) (k id : ContextId) : (s.retain k).context? id = s.context? id := by
  unfold context? retain
  rw [List.getElem?_modify]
  cases s.slots[id.index]? with
  | none => rfl
  | some slot =>
    by_cases hk : k.index = id.index
    · simp [hk]
    · simp [hk]

theorem counted_retain (h : s.Counted outside) {c : CostContext κ} (hc : s.context? id = some c) :
    (s.retain id).Counted (fun k => outside k + [id].count k) := by
  obtain ⟨slot, hslot, hcontext⟩ := Option.bind_eq_some_iff.1 hc
  have hlt : id.index < s.slots.length := (List.getElem?_eq_some_iff.1 hslot).1
  have hslots : ∀ {k : ContextId} {new : ContextSlot κ}, (s.retain id).slots[k.index]? = some new →
      ∃ old, s.slots[k.index]? = some old ∧ new.context = old.context ∧ new.refs = old.refs + [id].count k := by
    intro k new hnew
    unfold retain at hnew
    rw [List.getElem?_modify] at hnew
    obtain ⟨old, hold, rfl⟩ := Option.map_eq_some_iff.1 hnew
    refine ⟨old, hold, ?_⟩
    by_cases hk : id.index = k.index
    · have hid : id = k := by cases id; cases k; exact congrArg ContextId.mk hk
      simp [hid]
    · have hid : id ≠ k := fun he => hk (congrArg ContextId.index he)
      simp [hk, hid]
  refine { refs := ?_, present := ?_, inputs_lt := ?_, known := ?_ }
  · intro k new hnew
    obtain ⟨old, hold, -, hrefs⟩ := hslots hnew
    have := h.refs hold
    rw [hrefs, inputCount_retain]
    omega
  · intro k new hnew
    obtain ⟨old, hold, hsame, hrefs⟩ := hslots hnew
    have hpresent := h.present hold
    rw [hsame, hpresent, hrefs]
    by_cases hid : id = k
    · subst hid
      cases hslot.symm.trans hold
      rw [hcontext] at hpresent
      have := hpresent.1 rfl
      omega
    · simp [hid]
  · intro k d hd
    rw [context?_retain] at hd
    exact h.inputs_lt hd
  · intro k hk
    have hk : s.slots.length ≤ k.index := (s.prunedTo_retain id).length_eq ▸ hk
    have hid : id ≠ k := fun he => by rw [he] at hlt; omega
    simp [h.known hk, hid]

theorem counted_retainAll (ids : List ContextId) (h : s.Counted outside)
    (hids : ∀ id ∈ ids, ∃ c, s.context? id = some c) :
    (ids.foldl retain s).Counted (fun k => outside k + ids.count k) := by
  induction ids generalizing s outside with
  | nil => exact h
  | cons id ids ih =>
    obtain ⟨c, hc⟩ := hids id (List.mem_cons_self ..)
    have hrest := ih (counted_retain h hc) fun k hk => by
      rw [context?_retain]
      exact hids k (List.mem_cons_of_mem _ hk)
    refine hrest.congr fun k => ?_
    simp only [List.count_cons, List.count_nil]
    omega

theorem inputCount_retainAll (s : ContextStore κ) (ids : List ContextId) (id : ContextId) :
    (ids.foldl retain s).inputCount id = s.inputCount id := by
  induction ids generalizing s with
  | nil => rfl
  | cons k ids ih => exact (ih _).trans (inputCount_retain s k id)

theorem slots_concat_cases {new slot : ContextSlot κ} {k : ContextId}
    (h : (s.slots ++ [new])[k.index]? = some slot) :
    (k.index < s.slots.length ∧ s.slots[k.index]? = some slot) ∨ k = ⟨s.slots.length⟩ ∧ slot = new := by
  rcases getElem?_concat_cases h with ⟨hlt, hold⟩ | ⟨hk, hnew⟩
  · exact .inl ⟨hlt, hold⟩
  · exact .inr ⟨by cases k; exact congrArg ContextId.mk hk, hnew⟩

theorem counted_add (h : s.Counted outside) {c : CostContext κ} (hc : ∀ id ∈ c.inputs, ∃ d, s.context? id = some d) :
    (s.add c).2.Counted (fun k => outside k + [(s.add c).1].count k) := by
  have hretained := counted_retainAll c.inputs h hc
  have hlength := (s.prunedTo_retainAll c.inputs).length_eq
  have hinputs : ∀ k ∈ c.inputs, k.index < s.slots.length := fun k hk => by
    obtain ⟨d, hd⟩ := hc k hk
    exact lt_of_get_ok ((s.get_ok_iff k d).2 hd)
  have hcount : ∀ k, (s.add c).2.inputCount k = s.inputCount k + c.inputs.count k := by
    intro k
    rw [← inputCount_retainAll s c.inputs k]
    simp [add, inputCount, total_append, ContextSlot.naming]
  generalize hr : c.inputs.foldl ContextStore.retain s = r at hretained hlength
  have hadd : s.add c = (⟨s.slots.length⟩, { r with slots := r.slots ++ [⟨some c, 1⟩] }) := by
    unfold add
    rw [hr]
  rw [hadd] at hcount ⊢
  dsimp only at hcount ⊢
  have hne : ∀ {k : ContextId}, k.index ≠ s.slots.length → [(⟨s.slots.length⟩ : ContextId)].count k = 0 := by
    intro k hk
    refine List.count_eq_zero_of_not_mem fun hmem => hk ?_
    rw [List.mem_singleton.1 hmem]
  refine { refs := ?_, present := ?_, inputs_lt := ?_, known := ?_ }
  · intro k slot hslot
    rw [hcount]
    rcases hlength ▸ slots_concat_cases hslot with ⟨hlt, hold⟩ | ⟨rfl, rfl⟩
    · have hrefs := hretained.refs hold
      have hsame : r.inputCount k = s.inputCount k := hr ▸ inputCount_retainAll s c.inputs k
      have := hne (Nat.ne_of_lt hlt)
      omega
    · have hunknown : outside ⟨s.slots.length⟩ = 0 := h.known (Nat.le_refl _)
      have hfree : s.inputCount ⟨s.slots.length⟩ = 0 :=
        inputCount_eq_zero fun k d hd => h.not_mem_inputs_of_le (Nat.le_refl _) hd
      have hnew : c.inputs.count ⟨s.slots.length⟩ = 0 :=
        List.count_eq_zero_of_not_mem fun hmem => Nat.lt_irrefl _ (hinputs _ hmem)
      simp [hunknown, hfree, hnew]
  · intro k slot hslot
    rcases hlength ▸ slots_concat_cases hslot with ⟨hlt, hold⟩ | ⟨rfl, rfl⟩
    · exact hretained.present hold
    · simp
  · intro k d hd
    obtain ⟨slot, hslot, hcontext⟩ := Option.bind_eq_some_iff.1 hd
    rcases hlength ▸ slots_concat_cases hslot with ⟨hlt, hold⟩ | ⟨rfl, rfl⟩
    · exact hretained.inputs_lt ((context?_of_slot hold).trans hcontext)
    · cases hcontext
      exact hinputs
  · intro k hk
    rw [List.length_append, List.length_singleton, hlength] at hk
    have hunknown : outside k = 0 := h.known (by omega)
    have := hne (k := k) (by omega)
    omega

theorem counted_discard (h : s.Counted outside) : s.discard.Counted outside where
  refs := h.refs
  present := h.present
  inputs_lt := h.inputs_lt
  known := h.known

theorem slots_set_cases {new slot : ContextSlot κ} {k : ContextId}
    (h : (s.slots.set id.index new)[k.index]? = some slot) :
    (k = id ∧ slot = new) ∨ (k ≠ id ∧ s.slots[k.index]? = some slot) := by
  rw [List.getElem?_set] at h
  split at h
  · rename_i hi
    split at h
    · exact .inl ⟨by cases k; cases id; exact congrArg ContextId.mk hi.symm, (Option.some.inj h).symm⟩
    · cases h
  · rename_i hi
    exact .inr ⟨fun hk => hi (congrArg ContextId.index hk.symm), h⟩

/-- Writing one place leaves the counts right if its own count is, and a context only disappears. -/
theorem Counted.set (h : s.Counted outside) {other : ContextId → Nat} {old new : ContextSlot κ} {discarded : Nat}
    (hs : s.slots[id.index]? = some old) (hcontext : new.context = old.context ∨ new.context = none)
    (hpresent : new.context.isSome = true ↔ 0 < new.refs)
    (hself : new.refs = other id + inputCount ⟨s.slots.set id.index new, discarded⟩ id)
    (hothers : ∀ k, k ≠ id → outside k + s.inputCount k = other k + inputCount ⟨s.slots.set id.index new, discarded⟩ k)
    (hknown : ∀ k : ContextId, s.slots.length ≤ k.index → other k = 0) :
    Counted ⟨s.slots.set id.index new, discarded⟩ other where
  refs {k slot} hslot := by
    rcases slots_set_cases hslot with ⟨rfl, rfl⟩ | ⟨hk, hold⟩
    · exact hself
    · exact (h.refs hold).trans (hothers k hk)
  present {k slot} hslot := by
    rcases slots_set_cases hslot with ⟨rfl, rfl⟩ | ⟨-, hold⟩
    · exact hpresent
    · exact h.present hold
  inputs_lt {k d} hd := by
    have hpruned : s.PrunedTo ⟨s.slots.set id.index new, discarded⟩ := prunedTo_set hs new hcontext _
    exact h.inputs_lt ((s.get_ok_iff k d).1 (hpruned.get ((ContextStore.get_ok_iff _ k d).2 hd)))
  known {k} hk := by
    rw [List.length_set] at hk
    exact hknown k hk

/-- Taking references back leaves the counts right, with those of pruned contexts taken back as well. -/
theorem counted_releaseAll {ids : List ContextId} (h : s.Counted (fun k => outside k + ids.count k)) :
    (s.releaseAll ids).Counted outside := by
  fun_induction releaseAll s ids with
  | case1 s => exact h
  | case2 s id rest hs ih =>
    have := h.known (List.getElem?_eq_none_iff.1 hs)
    simp at this
  | case3 s id rest c hs ih =>
    have := h.refs hs
    simp at this
    omega
  | case4 s id rest c hs pruned ih =>
    simp only [List.unattach_reverse, List.unattach_attach] at ih
    refine ih ?_
    have hrefs : 1 = _ := h.refs hs
    have hcontext : s.context? id = some c := context?_of_slot hs
    have hnames := inputCount_le hcontext id
    have hcount : ∀ k, pruned.inputCount k + c.inputs.count k = s.inputCount k := fun k =>
      total_map_set (fun slot => slot.naming k) ⟨none, 0⟩ hs
    have hself := hcount id
    rw [List.count_cons_self] at hrefs
    refine h.set hs (.inr rfl) (by simp) ?_ ?_ ?_
    · change 0 = outside id + _ + pruned.inputCount id
      rw [List.count_append, List.count_reverse]
      omega
    · intro k hk
      change _ = outside k + _ + pruned.inputCount k
      have := hcount k
      rw [List.count_append, List.count_reverse, List.count_cons_of_ne (Ne.symm hk)]
      omega
    · intro k hk
      have hunknown := h.known hk
      have hnot := List.count_eq_zero_of_not_mem (h.not_mem_inputs_of_le hk hcontext)
      rw [List.count_cons] at hunknown
      rw [List.count_append, List.count_reverse]
      omega
  | case5 s id rest c refs hne hs left ih =>
    refine ih ?_
    have hrefs : refs + 1 = _ := h.refs hs
    have hsome := (h.present hs).2 (Nat.succ_pos refs)
    have hcount : ∀ k, left.inputCount k = s.inputCount k := fun k => by
      have := total_map_set (fun slot => slot.naming k) ⟨c, refs⟩ hs
      exact Nat.add_right_cancel this
    rw [List.count_cons_self] at hrefs
    refine h.set hs (.inl rfl) ?_ ?_ ?_ ?_
    · obtain ⟨d, rfl⟩ := Option.isSome_iff_exists.1 hsome
      have hpos : 0 < refs := Nat.pos_of_ne_zero fun hzero => hne d rfl hzero
      simpa using hpos
    · change refs = _ + left.inputCount id
      rw [hcount]
      omega
    · intro k hk
      change _ = _ + left.inputCount k
      rw [hcount, List.count_cons_of_ne (Ne.symm hk)]
    · intro k hk
      have hunknown := h.known hk
      rw [List.count_cons] at hunknown
      omega

end

end ContextStore
end Cascade
