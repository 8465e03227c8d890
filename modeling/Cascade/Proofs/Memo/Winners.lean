import Cascade.Proofs.Memo.Extension
import Cascade.Proofs.Memo.Frame

/-!
What becomes of winners. Marks and pins bring no new ones (`SameShape.inherits`). A context that becomes the
winner of its group gets the number of a new place, so all others keep theirs (`extends_promoted`).
-/

namespace Cascade.Memo

variable {σ κ : Type} {m n : Memo σ κ}

/-- What keeps the shape, and all winners where they are, brings no new ones. -/
theorem SameShape.inherits (h : SameShape m n) (hw : n.groups.map Group.winners = m.groups.map Group.winners)
    (hc : m.contexts.PrunedTo n.contexts) : Inherits m n where
  find hgh := by rw [h.find, h.find, hgh]
  groups := by
    intro g x hx
    have hs := congrArg (fun l => l[(m.find g).index]?) h.groups
    simp only [List.getElem?_map] at hs
    rw [show m.groups[(m.find g).index]? = some x from hx] at hs
    obtain ⟨y, hy, hxy⟩ := Option.map_eq_some_iff.1 hs
    refine ⟨y, ?_, (Prod.mk.inj hxy).2⟩
    unfold group?
    rwa [h.find]
  exprs := by
    intro id e he
    obtain ⟨f, hf, hfe⟩ := h.symm_exprs he
    obtain ⟨hg, ho, hi, -⟩ := (exprShape_eq_iff f e).1 hfe
    exact ⟨f, hf, ho, by rw [hg], by rw [hi]⟩
  slots_le := Nat.le_of_eq hc.length_eq.symm
  contexts hget _ := hc.get hget
  winners := by
    intro g y hy w hmem
    obtain ⟨x, hx, -⟩ := h.group_back hy
    have hs := congrArg (fun l => l[g.index]?) hw
    simp only [List.getElem?_map] at hs
    rw [hy, hx] at hs
    exact ⟨g, x, hx, Option.some.inj hs ▸ hmem, rfl⟩
  length_eq := hc.length_eq

theorem inherits_contexts (m : Memo σ κ) {s : ContextStore κ} (h : m.contexts.PrunedTo s) :
    Inherits m { m with contexts := s } :=
  (sameShape_contexts m s).inherits rfl h

theorem inherits_pin {id : ContextId} (h : m.pin id = .ok n) : Inherits m n := by
  obtain ⟨c, -, h⟩ := exists_of_bind_ok h
  cases h
  exact inherits_contexts m (m.contexts.prunedTo_retain id)

theorem inherits_unpin (m : Memo σ κ) (id : ContextId) : Inherits m (m.unpin id) :=
  inherits_contexts m (m.contexts.prunedTo_release id)

section

variable (m : Memo σ κ)

theorem inherits_modifyExpr (id : ExprId) {f : MemoExpr → MemoExpr} (hf : ∀ e, exprShape (f e) = exprShape e) :
    Inherits m (m.modifyExpr id f) :=
  (sameShape_modifyExpr m id hf).inherits rfl (.refl _)

theorem inherits_modifyGroup (g : GroupId) {f : Group σ → Group σ} (hf : ∀ x, groupShape (f x) = groupShape x)
    (hw : ∀ x, (f x).winners = x.winners) : Inherits m (m.modifyGroup g f) :=
  (sameShape_modifyGroup m g hf (.inr hw)).inherits (map_modify_of_eq _ f hw m.groups g.index) (.refl _)

theorem inherits_resetSearch : Inherits m m.resetSearch :=
  m.sameShape_resetSearch.inherits (by simp [resetSearch]) (.refl _)

end

section

variable {c : CostContext κ}

theorem stores_promoted {g k : GroupId} {s : ContextStore κ} {y : Group σ} (hy : (m.promoted g c s).Stores k y) :
    ∃ x, m.Stores k x ∧ (y = x ∨ k = g ∧ y = { x with winners := x.winners.set c.required (m.contexts.add c).1 }) := by
  simp only [Stores, promoted, modifyGroup, List.getElem?_modify, Option.map_eq_map] at hy
  obtain ⟨x, hx, hxy⟩ := Option.map_eq_some_iff.1 hy
  refine ⟨x, hx, ?_⟩
  split at hxy
  · rename_i hi
    exact .inr ⟨by cases g; cases k; exact congrArg GroupId.mk hi.symm, hxy.symm⟩
  · exact .inl hxy.symm

theorem extends_promoted {g : GroupId} {s : ContextStore κ} (hs : (m.contexts.add c).2.PrunedTo s) :
    Extends m (m.promoted g c s) where
  find h := h
  groups := by
    intro k x hx
    have hget : (m.promoted g c s).groups[(m.find k).index]? = _ := (List.getElem?_modify ..).trans (congrArg _ hx)
    refine ⟨_, hget, ?_⟩
    split <;> rfl
  exprs he := ⟨_, he, rfl, rfl, rfl⟩
  slots_le := by
    have hlen := hs.length_eq.trans (m.contexts.add_slots_length c)
    exact Nat.le_trans (Nat.le_succ _) (Nat.le_of_eq hlen.symm)
  contexts := by
    intro id d hd hlt
    rcases ContextStore.get_add (hs.get hd) with hold | ⟨hnew, -⟩
    · exact hold
    · rw [hnew] at hlt
      exact absurd hlt (Nat.lt_irrefl _)

theorem extends_addContext [LT κ] [DecidableLT κ] {r : Option ContextId} (h : m.addContext c = .ok (r, n)) :
    Extends m n := by
  obtain ⟨e, -, rfl | ⟨s, hs, rfl⟩⟩ := addContext_cases h
  · exact (m.inherits_contexts m.contexts.prunedTo_discard).toExtends
  · exact extends_promoted hs

end

end Cascade.Memo
