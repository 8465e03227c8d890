import Cascade.Proofs.Memo.Extension
import Cascade.Proofs.Memo.Frame
import Cascade.Proofs.Memo.Redirect
import Cascade.Search.Job

/-!
Marks of the search. Each kind of job has a mark that tells that it has been done. Between applications of rules
marks are set and never cleared (`Quiet`).
-/

namespace Cascade

variable {σ κ : Type}

/-- The job with a key before its first run. -/
def JobKey.start : JobKey → SearchJob
  | .optimizeGroup g r => .optimizeGroup g r false []
  | .implementGroup g => .implementGroup g false []
  | .exploreGroup g => .exploreGroup g []
  | .implementExpr e => .implementExpr e false
  | .exploreExpr e => .exploreExpr e .start
  | .applyRule e r => .applyRule e r
  | .optimizeExpr e r => .optimizeExpr e r none

@[simp] theorem JobKey.key_start (k : JobKey) : k.start.key = k := by cases k <;> rfl

namespace Memo

/-- Sets the mark of a job. -/
def settle (m : Memo σ κ) : JobKey → Memo σ κ
  | .optimizeGroup g r => m.markGroupOptimized g r
  | .implementGroup g => m.markGroupImplemented g
  | .exploreGroup g => m.markGroupExplored g
  | .implementExpr e => m.markExprImplemented e
  | .exploreExpr e => m.markExprExplored e
  | .applyRule e r => m.markApplied e r
  | .optimizeExpr e r => m.markExprOptimized e r

/-- The mark of a job is set, if there is a place for it. -/
def Settled (m : Memo σ κ) : JobKey → Prop
  | .optimizeGroup g r => ∀ x, m.group? g = some x → r ∈ x.optimized
  | .implementGroup g => ∀ x, m.group? g = some x → x.implemented = true
  | .exploreGroup g => ∀ x, m.group? g = some x → x.explored = true
  | .implementExpr e => ∀ x, m.expr? e = some x → x.implemented = true
  | .exploreExpr e => ∀ x, m.expr? e = some x → x.explored = true
  | .applyRule e r => ∀ x, m.expr? e = some x → r ∈ x.applied
  | .optimizeExpr e r => ∀ x, m.expr? e = some x → r ∈ x.optimized

/-- The second memo differs from the first one in contexts and in marks that were set. -/
structure Quiet (m n : Memo σ κ) : Prop extends SameShape m n where
  groupMarks : ∀ {g x y}, m.Stores g x → n.Stores g y → x.Marks y
  exprMarks : ∀ {id e f}, m.expr? id = some e → n.expr? id = some f → e.Marks f

/-- What is true of the group or expression at a place is true of all there. -/
theorem forall_of_eq_some {α : Type} {x : Option α} {a : α} {p : α → Prop} (hx : x = some a) (ha : p a) :
    ∀ b, x = some b → p b := fun _ hb => Option.some.inj (hx.symm.trans hb) ▸ ha

theorem mem_addRequirement {r q : Required} {l : List Required} (h : q ∈ l ∨ q = r) : q ∈ addRequirement r l := by
  unfold addRequirement
  split
  · rename_i hr
    exact h.elim id fun hq => hq ▸ hr
  · simpa using h

theorem group?_modifyGroup_self {m : Memo σ κ} {g : GroupId} {f : Group σ → Group σ} {y : Group σ}
    (h : (m.modifyGroup (m.find g) f).group? g = some y) : ∃ x, y = f x := by
  have hget : (m.modifyGroup (m.find g) f).groups[(m.find g).index]? = some y := h
  rw [modifyGroup, List.getElem?_modify] at hget
  obtain ⟨x, -, rfl⟩ := Option.map_eq_some_iff.1 hget
  exact ⟨x, if_pos rfl⟩

theorem expr?_modifyExpr_self {m : Memo σ κ} {id : ExprId} {f : MemoExpr → MemoExpr} {y : MemoExpr}
    (h : (m.modifyExpr id f).expr? id = some y) : ∃ x, y = f x := by
  rw [expr?_modifyExpr] at h
  obtain ⟨x, -, rfl⟩ := Option.map_eq_some_iff.1 h
  exact ⟨x, if_pos rfl⟩

/-- The mark of a job that has been set is set. -/
theorem settled_settle (m : Memo σ κ) (k : JobKey) : (m.settle k).Settled k := by
  have hinsert : ∀ (s : RuleSet) r, r ∈ s.insert r := fun s r => SortedSet.mem_insert.2 (.inl rfl)
  cases k with
  | optimizeGroup g r =>
    intro y hy
    obtain ⟨x, rfl⟩ := group?_modifyGroup_self hy
    exact mem_addRequirement (.inr rfl)
  | implementGroup g =>
    intro y hy
    obtain ⟨x, rfl⟩ := group?_modifyGroup_self hy
    rfl
  | exploreGroup g =>
    intro y hy
    obtain ⟨x, rfl⟩ := group?_modifyGroup_self hy
    rfl
  | implementExpr e =>
    intro y hy
    obtain ⟨x, rfl⟩ := expr?_modifyExpr_self hy
    rfl
  | exploreExpr e =>
    intro y hy
    obtain ⟨x, rfl⟩ := expr?_modifyExpr_self hy
    rfl
  | applyRule e r =>
    intro y hy
    obtain ⟨x, rfl⟩ := expr?_modifyExpr_self hy
    exact hinsert _ _
  | optimizeExpr e r =>
    intro y hy
    obtain ⟨x, rfl⟩ := expr?_modifyExpr_self hy
    exact mem_addRequirement (.inr rfl)

theorem Quiet.refl (m : Memo σ κ) : Quiet m m where
  toSameShape := .refl m
  groupMarks hx hy := Option.some.inj (hx.symm.trans hy) ▸ .refl _
  exprMarks he hf := Option.some.inj (he.symm.trans hf) ▸ .refl _

theorem Quiet.trans {m n o : Memo σ κ} (h : Quiet m n) (k : Quiet n o) : Quiet m o where
  toSameShape := h.toSameShape.trans k.toSameShape
  groupMarks hx hz := by
    obtain ⟨y, hy, -⟩ := k.group_back hz
    exact (h.groupMarks hx hy).trans (k.groupMarks hy hz)
  exprMarks he hg := by
    obtain ⟨f, hf, -⟩ := k.expr_back hg
    exact (h.exprMarks he hf).trans (k.exprMarks hf hg)

/-- Marks that are set stay. -/
theorem Settled.quiet {m n : Memo σ κ} (h : Quiet m n) {k : JobKey} (hk : m.Settled k) : n.Settled k := by
  have hgroup : ∀ {g : GroupId} {y : Group σ}, n.group? g = some y → ∃ x, m.group? g = some x ∧ x.Marks y := by
    intro g y hy
    unfold group? at hy ⊢
    rw [h.find] at hy
    obtain ⟨x, hx, -⟩ := h.group_back (show n.Stores (m.find g) y from hy)
    exact ⟨x, hx, h.groupMarks hx hy⟩
  have hexpr : ∀ {id : ExprId} {f : MemoExpr}, n.expr? id = some f → ∃ e, m.expr? id = some e ∧ e.Marks f := by
    intro id f hf
    obtain ⟨e, he, -⟩ := h.expr_back hf
    exact ⟨e, he, h.exprMarks he hf⟩
  cases k with
  | optimizeGroup g r =>
    intro y hy
    obtain ⟨x, hx, hxy⟩ := hgroup hy
    exact hxy.optimized (hk x hx)
  | implementGroup g =>
    intro y hy
    obtain ⟨x, hx, hxy⟩ := hgroup hy
    exact hxy.implemented (hk x hx)
  | exploreGroup g =>
    intro y hy
    obtain ⟨x, hx, hxy⟩ := hgroup hy
    exact hxy.explored (hk x hx)
  | implementExpr e =>
    intro y hy
    obtain ⟨x, hx, hxy⟩ := hexpr hy
    exact hxy.implemented (hk x hx)
  | exploreExpr e =>
    intro y hy
    obtain ⟨x, hx, hxy⟩ := hexpr hy
    exact hxy.explored (hk x hx)
  | applyRule e r =>
    intro y hy
    obtain ⟨x, hx, hxy⟩ := hexpr hy
    exact hxy.applied ▸ hk x hx
  | optimizeExpr e r =>
    intro y hy
    obtain ⟨x, hx, hxy⟩ := hexpr hy
    exact hxy.optimized (hk x hx)

theorem quiet_contexts (m : Memo σ κ) (c : ContextStore κ) : Quiet m { m with contexts := c } where
  toSameShape := sameShape_contexts m c
  groupMarks := (Quiet.refl m).groupMarks
  exprMarks := (Quiet.refl m).exprMarks

theorem quiet_modifyGroup (m : Memo σ κ) (g : GroupId) {f : Group σ → Group σ}
    (hf : ∀ x, groupShape (f x) = groupShape x) (hw : m.find g = g ∨ ∀ x, (f x).winners = x.winners)
    (hmarks : ∀ x : Group σ, x.Marks (f x)) : Quiet m (m.modifyGroup g f) where
  toSameShape := sameShape_modifyGroup m g hf hw
  exprMarks := (Quiet.refl m).exprMarks
  groupMarks {k x y} hx hy := by
    have hget : (m.modifyGroup g f).groups[k.index]? = some y := hy
    rw [modifyGroup, List.getElem?_modify, show m.groups[k.index]? = some x from hx] at hget
    cases hget
    split
    · exact hmarks x
    · exact .refl x

theorem quiet_modifyExpr (m : Memo σ κ) (id : ExprId) {f : MemoExpr → MemoExpr}
    (hf : ∀ e, exprShape (f e) = exprShape e) (hmarks : ∀ e : MemoExpr, e.Marks (f e)) :
    Quiet m (m.modifyExpr id f) where
  toSameShape := sameShape_modifyExpr m id hf
  groupMarks := (Quiet.refl m).groupMarks
  exprMarks {i e e'} he he' := by
    rw [expr?_modifyExpr, he, Option.map_some, Option.some.injEq] at he'
    subst he'
    split
    · exact hmarks e
    · exact .refl e

/-- A mark of any kind but that of a rule is set. -/
theorem quiet_settle (m : Memo σ κ) {k : JobKey} (hk : ∀ e r, k ≠ .applyRule e r) : Quiet m (m.settle k) := by
  cases k with
  | optimizeGroup g r =>
    exact m.quiet_modifyGroup _ (fun _ => rfl) (.inr fun _ => rfl)
      fun _ => ⟨id, id, fun h => mem_addRequirement (.inl h)⟩
  | implementGroup g => exact m.quiet_modifyGroup _ (fun _ => rfl) (.inr fun _ => rfl) fun _ => ⟨id, fun _ => rfl, id⟩
  | exploreGroup g => exact m.quiet_modifyGroup _ (fun _ => rfl) (.inr fun _ => rfl) fun _ => ⟨fun _ => rfl, id, id⟩
  | implementExpr e => exact m.quiet_modifyExpr e (fun _ => rfl) fun _ => ⟨id, fun _ => rfl, id, rfl⟩
  | exploreExpr e => exact m.quiet_modifyExpr e (fun _ => rfl) fun _ => ⟨fun _ => rfl, id, id, rfl⟩
  | applyRule e r => exact absurd rfl (hk e r)
  | optimizeExpr e r =>
    exact m.quiet_modifyExpr e (fun _ => rfl) fun _ => ⟨id, id, fun h => mem_addRequirement (.inl h), rfl⟩

/-- Offering a context sets no marks. -/
theorem quiet_addContext [LT κ] [DecidableLT κ] {m n : Memo σ κ} {c : CostContext κ} {r : Option ContextId}
    (h : m.addContext c = .ok (r, n)) : Quiet m n := by
  obtain ⟨e, -, rfl | ⟨s, -, rfl⟩⟩ := addContext_cases h
  · exact m.quiet_contexts _
  · exact (m.quiet_contexts s).trans
      (quiet_modifyGroup _ _ (fun _ => rfl) (.inl (m.find_find e.group)) fun _ => ⟨id, id, id⟩)

theorem quiet_pin {m n : Memo σ κ} {id : ContextId} (h : m.pin id = .ok n) : Quiet m n := by
  obtain ⟨c, -, h⟩ := exists_of_bind_ok h
  cases h
  exact m.quiet_contexts _

end Memo
end Cascade
