import Cascade.Proofs.Memo.Offers

/-!
Memos that operations change one after the other, where no pin is taken back that is not outstanding (`Evolves`). What
such a memo has known it knows (`Evolves.extends`), and its winners are replaced just by winners that are not worse
(`Evolves.winner?`).
-/

namespace Cascade.Memo

variable {σ κ : Type} {m n o : Memo σ κ} {pins others rest : List ContextId}

theorem IsMatched.perm {op : Operation σ κ} (h : IsMatched pins op) (hperm : pins.Perm others) : IsMatched others op := by
  cases op with
  | unpin id => exact hperm.mem_iff.1 h
  | _ => trivial

theorem pinsAfter_perm (m : Memo σ κ) (op : Operation σ κ) (h : pins.Perm others) :
    (m.pinsAfter pins op).Perm (m.pinsAfter others op) := by
  cases op with
  | pin id =>
    show (if (m.pin id).isOk then id :: pins else pins).Perm (if (m.pin id).isOk then id :: others else others)
    split
    · exact h.cons id
    · exact h
  | unpin id => exact h.erase id
  | _ => exact h

theorem Retained.perm (h : m.Retained pins) (hperm : pins.Perm others) : m.Retained others where
  wellFormed := h.wellFormed
  counted := ContextStore.Counted.congr h.counted fun id => by simp only [hperm.count_eq id]
  exprs := h.exprs

theorem group?_congr {g k : GroupId} (h : m.find g = m.find k) : m.group? g = m.group? k := by
  unfold group?
  rw [h]

theorem winner?_congr {g k : GroupId} (h : m.find g = m.find k) (r : Required) : m.winner? g r = m.winner? k r := by
  unfold winner?
  rw [group?_congr h]

section

variable [LT κ] [DecidableLT κ]

/-- Only the offer of a context can bring a new winner. -/
theorem inherits_apply (w : m.WellFormed) {op : Operation σ κ} (hop : ∀ c, op ≠ .addContext c) :
    Inherits m (m.apply op) := by
  cases op with
  | insert source e => exact (inherits_insertAt source e w m.target_none).1
  | insertInto source g e => exact (inherits_insertAt source e w (m.target_find g)).1
  | addContext c => exact absurd rfl (hop c)
  | pin id =>
    show Inherits m (m.settled (m.pin id))
    cases hpin : m.pin id with
    | error err => exact .refl m
    | ok n => exact inherits_pin hpin
  | unpin id => exact m.inherits_unpin id
  | markApplied e r => exact m.inherits_modifyExpr e fun _ => rfl
  | markExprExplored e => exact m.inherits_modifyExpr e fun _ => rfl
  | markExprImplemented e => exact m.inherits_modifyExpr e fun _ => rfl
  | markExprOptimized e r => exact m.inherits_modifyExpr e fun _ => rfl
  | markGroupExplored g => exact m.inherits_modifyGroup _ (fun _ => rfl) fun _ => rfl
  | markGroupImplemented g => exact m.inherits_modifyGroup _ (fun _ => rfl) fun _ => rfl
  | markGroupOptimized g r => exact m.inherits_modifyGroup _ (fun _ => rfl) fun _ => rfl
  | resetSearch => exact m.inherits_resetSearch

theorem extends_apply (w : m.WellFormed) (op : Operation σ κ) : Extends m (m.apply op) := by
  cases op with
  | addContext c =>
    show Extends m (m.settled ((m.addContext c).map Prod.snd))
    cases hadd : m.addContext c with
    | error err => exact .refl m
    | ok r => exact extends_addContext hadd
  | _ => exact (inherits_apply w fun c h => by cases h).toExtends

/-- Which pins there are counts, not the order in which they were made. -/
theorem Matched.perm {ops : List (Operation σ κ)} (h : m.Matched pins ops) (hperm : pins.Perm others) :
    m.Matched others ops ∧ (m.outstanding pins ops).Perm (m.outstanding others ops) := by
  induction ops generalizing m pins others with
  | nil => exact ⟨trivial, hperm⟩
  | cons op ops ih =>
    obtain ⟨hmatched, hout⟩ := ih h.2 (m.pinsAfter_perm op hperm)
    exact ⟨⟨h.1.perm hperm, hmatched⟩, hout⟩

theorem Matched.append {ops more : List (Operation σ κ)} (h : m.Matched pins ops)
    (k : (ops.foldl Memo.apply m).Matched (m.outstanding pins ops) more) :
    m.Matched pins (ops ++ more) ∧
      m.outstanding pins (ops ++ more) = (ops.foldl Memo.apply m).outstanding (m.outstanding pins ops) more := by
  induction ops generalizing m pins with
  | nil => exact ⟨k, rfl⟩
  | cons op ops ih =>
    obtain ⟨hmatched, hout⟩ := ih h.2 k
    exact ⟨⟨h.1, hmatched⟩, hout⟩

/-- Operations lead from one memo to another, and from the pins outstanding in the first to those in the second. -/
def Evolves (m : Memo σ κ) (pins : List ContextId) (n : Memo σ κ) (others : List ContextId) : Prop :=
  ∃ ops, m.Matched pins ops ∧ ops.foldl Memo.apply m = n ∧ (m.outstanding pins ops).Perm others

namespace Evolves

theorem refl (m : Memo σ κ) (h : pins.Perm others) : Evolves m pins m others := ⟨[], trivial, rfl, h⟩

theorem apply (m : Memo σ κ) (pins : List ContextId) (op : Operation σ κ) (h : IsMatched pins op) :
    Evolves m pins (m.apply op) (m.pinsAfter pins op) := ⟨[op], ⟨h, trivial⟩, rfl, .refl _⟩

theorem trans (h : Evolves m pins n others) (k : Evolves n others o rest) : Evolves m pins o rest := by
  obtain ⟨ops, hops, rfl, hpins⟩ := h
  obtain ⟨more, hmore, rfl, hothers⟩ := k
  obtain ⟨hmore, hout⟩ := hmore.perm hpins.symm
  obtain ⟨hmatched, heq⟩ := hops.append hmore
  exact ⟨ops ++ more, hmatched, List.foldl_append .., heq ▸ hout.symm.trans hothers⟩

theorem retained (h : Evolves m pins n others) (hm : m.Retained pins) : n.Retained others := by
  obtain ⟨ops, hops, rfl, hpins⟩ := h
  exact (hm.applyAll ops hops).perm hpins

end Evolves

theorem Evolves.extends (h : Evolves m pins n others) (hm : m.Retained pins) : Extends m n := by
  obtain ⟨ops, hops, rfl, -⟩ := h
  induction ops generalizing m pins with
  | nil => exact .refl m
  | cons op ops ih => exact (extends_apply hm.wellFormed op).trans (ih (hm.apply op hops.1) hops.2)

end

section

variable [LinearOrder κ] {verify : Bool} {limit : Option Nat}

/-- A winner is the best of what was offered, and what was offered before is offered still. -/
theorem Won.winner? {offers more : List (CostContext κ)} (h : m.Won offers) (k : n.Won (offers ++ more))
    (hextends : Extends m n) {g : GroupId} {r : Required} {id : ContextId} {w : CostContext κ}
    (hw : m.winner? g r = some (id, w)) : ∃ later v, n.winner? g r = some (later, v) ∧ w.isBetterThan v = false := by
  have hleader := m.map_winner? g r
  rw [hw] at hleader
  obtain ⟨hmem, hfor⟩ := h.exists_offer hleader.symm
  obtain ⟨v, hv, hwv⟩ := k.best (List.mem_append_left more hmem) (hfor.extends hextends)
  rw [hextends.find (m.find_find g), ← n.map_winner? g r] at hv
  obtain ⟨⟨later, v⟩, hwinner, rfl⟩ := Option.map_eq_some_iff.1 hv
  exact ⟨later, v, hwinner, hwv⟩

/-- A group that has a winner keeps one, and the one before is not better. -/
theorem Evolves.winner? (hm : Evolves (empty verify limit) [] m pins) (h : Evolves m pins n others) {g : GroupId}
    {r : Required} {id : ContextId} {w : CostContext κ} (hw : m.winner? g r = some (id, w)) :
    ∃ later v, n.winner? g r = some (later, v) ∧ w.isBetterThan v = false := by
  have hretained := hm.retained (retained_empty verify limit)
  have hextends := h.extends hretained
  obtain ⟨ops, hops, rfl, hpins⟩ := hm
  obtain ⟨more, hmore, rfl, -⟩ := h
  have hwon := (won_empty verify limit).applyAll (retained_empty verify limit) ops hops
  exact hwon.winner? (hwon.applyAll hretained more hmore) hextends hw

end

end Cascade.Memo
