import Cascade.Proofs.Memo.Contexts
import Cascade.Proofs.Memo.Representation
import Cascade.Proofs.Sequence

/-!
Operations that leave the shape of a memo alone: the marks of the search, pins, and offers of cost
contexts. Each of them keeps the memo well-formed.
-/

namespace Cascade.Memo

variable {σ κ : Type}

namespace SameShape

theorem refl (m : Memo σ κ) : SameShape m m where
  links := rfl
  index := rfl
  producers := rfl
  verify := rfl
  limit := rfl
  exprs := rfl
  groups := rfl
  winners hx hy _ := by rw [Option.some.inj (hy.symm.trans hx)]

theorem trans {m n o : Memo σ κ} (h : SameShape m n) (k : SameShape n o) : SameShape m o where
  links := k.links.trans h.links
  index := k.index.trans h.index
  producers := k.producers.trans h.producers
  verify := k.verify.trans h.verify
  limit := k.limit.trans h.limit
  exprs := k.exprs.trans h.exprs
  groups := k.groups.trans h.groups
  winners := by
    intro g x z hx hz hg
    obtain ⟨y, hy, -⟩ := k.group_back hz
    rw [k.winners hy hz (by rwa [h.find]), h.winners hx hy hg]

end SameShape

theorem sameShape_modifyExpr (m : Memo σ κ) (id : ExprId) {f : MemoExpr → MemoExpr}
    (hf : ∀ e, exprShape (f e) = exprShape e) : SameShape m (m.modifyExpr id f) :=
  { SameShape.refl m with exprs := map_modify_of_eq _ f hf m.exprs id.index }

/-- A change of a group keeps the shape if winners are changed in surviving groups only. -/
theorem sameShape_modifyGroup (m : Memo σ κ) (g : GroupId) {f : Group σ → Group σ}
    (hf : ∀ x, groupShape (f x) = groupShape x) (hw : m.find g = g ∨ ∀ x, (f x).winners = x.winners) :
    SameShape m (m.modifyGroup g f) where
  links := rfl
  index := rfl
  producers := rfl
  verify := rfl
  limit := rfl
  exprs := rfl
  groups := map_modify_of_eq _ f hf m.groups g.index
  winners := by
    intro k x y hx hy hk
    simp only [Stores, modifyGroup, List.getElem?_modify, Option.map_eq_map] at hx hy
    rw [hx, Option.map_some, Option.some.injEq] at hy
    subst hy
    split
    · rename_i he
      rcases hw with hg | hf
      · have : g = k := by cases g; cases k; exact congrArg GroupId.mk he
        exact absurd (this ▸ hg) hk
      · exact hf x
    · rfl

theorem WellFormed.modifyExpr {m : Memo σ κ} (w : m.WellFormed) (id : ExprId) {f : MemoExpr → MemoExpr}
    (hf : ∀ e, exprShape (f e) = exprShape e) : (m.modifyExpr id f).WellFormed :=
  (sameShape_modifyExpr m id hf).wellFormed w

theorem WellFormed.modifyGroup {m : Memo σ κ} (w : m.WellFormed) (g : GroupId) {f : Group σ → Group σ}
    (hf : ∀ x, groupShape (f x) = groupShape x) (hw : ∀ x, (f x).winners = x.winners) :
    (m.modifyGroup g f).WellFormed :=
  (sameShape_modifyGroup m g hf (.inr hw)).wellFormed w

theorem sameShape_contexts (m : Memo σ κ) (c : ContextStore κ) : SameShape m { m with contexts := c } :=
  { SameShape.refl m with }

theorem sameShape_resetSearch (m : Memo σ κ) : SameShape m m.resetSearch where
  links := rfl
  index := rfl
  producers := rfl
  verify := rfl
  limit := rfl
  exprs := by
    rw [resetSearch, List.map_map]
    rfl
  groups := by
    rw [resetSearch, List.map_map]
    rfl
  winners := by
    intro g x y hx hy _
    simp only [Stores, resetSearch, List.getElem?_map] at hx hy
    rw [hx] at hy
    cases hy
    rfl

theorem sameShape_pin {m n : Memo σ κ} {id : ContextId} (h : m.pin id = .ok n) : SameShape m n := by
  obtain ⟨c, -, h⟩ := exists_of_bind_ok h
  cases h
  exact sameShape_contexts m _

theorem sameShape_unpin (m : Memo σ κ) (id : ContextId) : SameShape m (m.unpin id) := sameShape_contexts m _

section

variable {m n : Memo σ κ} {c : CostContext κ}

theorem checkContext_ok {e : MemoExpr} (h : m.checkContext c = .ok e) : m.expr? c.expr = some e := by
  obtain ⟨f, hf, h⟩ := exists_of_bind_ok h
  split at h
  · cases h
  · obtain ⟨-, -, h⟩ := exists_of_bind_ok h
    cases h
    exact expr_ok hf

/-- A memo in which a context is the winner of its group, under a new number. -/
def promoted (m : Memo σ κ) (g : GroupId) (c : CostContext κ) (contexts : ContextStore κ) : Memo σ κ :=
  { m with contexts }.modifyGroup g fun x => { x with winners := x.winners.set c.required (m.contexts.add c).1 }

variable [LT κ] [DecidableLT κ] {r : Option ContextId}

/-- A context that is offered to its group is given up or becomes the winner. -/
theorem addContext_cases (h : m.addContext c = .ok (r, n)) : ∃ e, m.expr? c.expr = some e ∧
    (n = { m with contexts := m.contexts.discard } ∨
      ∃ s, (m.contexts.add c).2.PrunedTo s ∧ n = m.promoted (m.find e.group) c s) := by
  obtain ⟨e, he, h⟩ := exists_of_bind_ok h
  refine ⟨e, checkContext_ok he, ?_⟩
  dsimp only at h
  split at h
  · cases h
    exact .inl rfl
  · right
    split at h
    · rename_i p _
      cases h
      exact ⟨_, (m.contexts.add c).2.prunedTo_release p, rfl⟩
    · cases h
      exact ⟨_, .refl _, rfl⟩

/-- The group an offered context goes to survives, so dissolved groups get no winners. -/
theorem sameShape_addContext (h : m.addContext c = .ok (r, n)) : SameShape m n := by
  obtain ⟨e, -, rfl | ⟨s, -, rfl⟩⟩ := addContext_cases h
  · exact sameShape_contexts m _
  · exact (sameShape_contexts m s).trans (sameShape_modifyGroup _ _ (fun _ => rfl) (.inl (m.find_find e.group)))

end

end Cascade.Memo
