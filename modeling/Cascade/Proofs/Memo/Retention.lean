import Cascade.Proofs.Memo.References
import Cascade.Proofs.Memo.Winners
import Cascade.Search.Extract

/-!
Which contexts a memo keeps. After any operations that take back no pin that was not made, a context is
present just if a winner, a present context or a pin refers to it (`references_counted`). So no plan is lost
that somebody may still ask for.
-/

namespace Cascade.Memo

variable {σ κ : Type}

/-- The pins there are after an operation; a pin of a context that is gone is none. -/
def pinsAfter (m : Memo σ κ) (pins : List ContextId) : Operation σ κ → List ContextId
  | .pin id => if (m.pin id).isOk then id :: pins else pins
  | .unpin id => pins.erase id
  | _ => pins

/-- An operation takes back one of the pins there are, or none. -/
def IsMatched (pins : List ContextId) : Operation σ κ → Prop
  | .unpin id => id ∈ pins
  | _ => True

/-- What is kept true of a memo in which some pins are outstanding. -/
structure Retained (m : Memo σ κ) (pins : List ContextId) : Prop where
  wellFormed : m.WellFormed
  counted : m.Counted (fun id => pins.count id)
  exprs : ∀ {id c}, m.contexts.get id = .ok c → ∃ e, m.expr? c.expr = some e

theorem retained_empty (verify : Bool) (limit : Option Nat) : (empty verify limit : Memo σ κ).Retained [] where
  wellFormed := wellFormed_empty verify limit
  counted := counted_empty verify limit
  exprs h := by cases h

namespace Retained

variable {m n : Memo σ κ} {pins : List ContextId}

theorem inherits (h : m.Retained pins) (k : Inherits m n) (w : n.WellFormed) {others : List ContextId}
    (hcounted : n.Counted (fun id => others.count id)) : n.Retained others where
  wellFormed := w
  counted := hcounted
  exprs := by
    intro id c hc
    have hlt : id.index < m.contexts.slots.length := k.length_eq ▸ ContextStore.lt_of_get_ok hc
    obtain ⟨e, he⟩ := h.exprs (k.contexts hc hlt)
    obtain ⟨f, hf, -⟩ := k.exprs he
    exact ⟨f, hf⟩

theorem modifyExpr (h : m.Retained pins) (id : ExprId) {f : MemoExpr → MemoExpr}
    (hf : ∀ e, exprShape (f e) = exprShape e) : (m.modifyExpr id f).Retained pins :=
  h.inherits (m.inherits_modifyExpr id hf) (h.wellFormed.modifyExpr id hf) (h.counted.congr rfl rfl)

theorem modifyGroup (h : m.Retained pins) (g : GroupId) {f : Group σ → Group σ}
    (hf : ∀ x, groupShape (f x) = groupShape x) (hw : ∀ x, (f x).winners = x.winners) :
    (m.modifyGroup g f).Retained pins :=
  h.inherits (m.inherits_modifyGroup g hf hw) (h.wellFormed.modifyGroup g hf hw)
    (h.counted.congr (map_modify_of_eq Group.winners f hw m.groups g.index) rfl)

theorem resetSearch (h : m.Retained pins) : m.resetSearch.Retained pins :=
  h.inherits m.inherits_resetSearch (m.sameShape_resetSearch.wellFormed h.wellFormed)
    (h.counted.congr (by simp [Memo.resetSearch]) rfl)

theorem pin (h : m.Retained pins) {id : ContextId} (hpin : m.pin id = .ok n) : n.Retained (id :: pins) := by
  refine h.inherits (inherits_pin hpin) ((sameShape_pin hpin).wellFormed h.wellFormed) ?_
  refine ContextStore.Counted.congr (counted_pin h.counted hpin) fun k => ?_
  simp only [List.count_cons, List.count_nil]
  omega

theorem unpin (h : m.Retained pins) {id : ContextId} (hid : id ∈ pins) : (m.unpin id).Retained (pins.erase id) := by
  have hpins : m.Counted (fun k => (pins.erase id).count k + [id].count k) :=
    ContextStore.Counted.congr h.counted fun k => by
      have := (List.perm_cons_erase hid).count_eq k
      simp only [List.count_cons, List.count_nil] at this ⊢
      omega
  exact h.inherits (m.inherits_unpin id) ((m.sameShape_unpin id).wellFormed h.wellFormed) (counted_unpin hpins)

section

variable [LT κ] [DecidableLT κ]

theorem insertAt (h : m.Retained pins) (source : PropertySource σ) (e : Expr) {target : Option GroupId}
    (htarget : ∀ g, target = some g → m.find g = g) : (m.insertAt source target e).2.Retained pins := by
  obtain ⟨hinherits, w⟩ := inherits_insertAt source e h.wellFormed htarget
  exact h.inherits hinherits w (counted_insertAt source e h.wellFormed htarget h.counted)

theorem addContext (h : m.Retained pins) {c : CostContext κ} {r : Option ContextId}
    (hadd : m.addContext c = .ok (r, n)) : n.Retained pins where
  wellFormed := (sameShape_addContext hadd).wellFormed h.wellFormed
  counted := counted_addContext h.wellFormed h.counted hadd
  exprs := by
    obtain ⟨e, he, rfl | ⟨s, hs, rfl⟩⟩ := addContext_cases hadd
    · exact h.exprs
    · intro id d hd
      rcases ContextStore.get_add (hs.get hd) with hold | ⟨-, rfl⟩
      · exact h.exprs hold
      · exact ⟨e, he⟩

theorem apply (h : m.Retained pins) (op : Operation σ κ) (hmatched : IsMatched pins op) :
    (m.apply op).Retained (m.pinsAfter pins op) := by
  cases op with
  | insert source e => exact h.insertAt source e m.target_none
  | insertInto source g e => exact h.insertAt source e (m.target_find g)
  | addContext c =>
    show (m.settled ((m.addContext c).map Prod.snd)).Retained pins
    cases hadd : m.addContext c with
    | error err => exact h
    | ok r => exact h.addContext hadd
  | pin id =>
    show (m.settled (m.pin id)).Retained (if (m.pin id).isOk then id :: pins else pins)
    cases hpin : m.pin id with
    | error err => exact h
    | ok n => exact h.pin hpin
  | unpin id => exact h.unpin hmatched
  | markApplied e r => exact h.modifyExpr e fun _ => rfl
  | markExprExplored e => exact h.modifyExpr e fun _ => rfl
  | markExprImplemented e => exact h.modifyExpr e fun _ => rfl
  | markExprOptimized e r => exact h.modifyExpr e fun _ => rfl
  | markGroupExplored g => exact h.modifyGroup _ (fun _ => rfl) fun _ => rfl
  | markGroupImplemented g => exact h.modifyGroup _ (fun _ => rfl) fun _ => rfl
  | markGroupOptimized g r => exact h.modifyGroup _ (fun _ => rfl) fun _ => rfl
  | resetSearch => exact h.resetSearch

end

end Retained

section

variable [LT κ] [DecidableLT κ]

/-- The pins that are outstanding after operations on a memo, given those before them. -/
def outstanding (m : Memo σ κ) (pins : List ContextId) : List (Operation σ κ) → List ContextId
  | [] => pins
  | op :: ops => (m.apply op).outstanding (m.pinsAfter pins op) ops

/-- Whenever operations take back a pin it is outstanding. -/
def Matched (m : Memo σ κ) (pins : List ContextId) : List (Operation σ κ) → Prop
  | [] => True
  | op :: ops => IsMatched pins op ∧ (m.apply op).Matched (m.pinsAfter pins op) ops

theorem Retained.applyAll {m : Memo σ κ} {pins : List ContextId} (h : m.Retained pins) (ops : List (Operation σ κ))
    (hmatched : m.Matched pins ops) : (ops.foldl Memo.apply m).Retained (m.outstanding pins ops) := by
  induction ops generalizing m pins with
  | nil => exact h
  | cons op ops ih => exact ih (h.apply op hmatched.1) hmatched.2

end

/-! Reading plans. -/

namespace Retained

variable {m : Memo σ κ} {pins : List ContextId}

end Retained

section

variable [LT κ] [DecidableLT κ]

end

section

/-- A table of constants at some cost. -/
def constantsAt (cost : Nat) : CostContext Nat where
  expr := ⟨1⟩
  required := .none
  request := 0
  inputs := []
  exprDerived := .ofDistribution .universal
  exprCost := cost
  enforcers := []
  derived := .ofDistribution .universal
  cost := cost
  rank := 0

end

end Cascade.Memo
