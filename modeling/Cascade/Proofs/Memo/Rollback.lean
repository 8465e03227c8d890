import Cascade.Proofs.Memo.Representation

/-!
Taking an insertion back. Additions to a memo go to the end of its lists and tables, so a mark set
before them is all it takes to find them again: `rollback` to the mark gives the same memo before and
after each of them, and at the mark itself it changes nothing.
-/

namespace Cascade.Memo

variable {σ κ : Type}

theorem rollback_mark {m : Memo σ κ} (c : m.Coherent) : m.rollback m.mark [] = m := by
  have old : ∀ {id e}, m.expr? id = some e → decide (id.index < m.exprs.length) = true :=
    fun h => decide_eq_true (lt_of_expr? h)
  have groups : (m.groups.take m.groups.length).map
      (fun x => { x with members := x.members.filter (fun e => decide (e.index < m.exprs.length)) }) = m.groups := by
    rw [List.take_length]
    refine (List.map_congr_left ?_).trans (List.map_id _)
    intro x hx
    obtain ⟨i, hi⟩ := List.mem_iff_getElem?.1 hx
    have members : x.members.filter (fun e => decide (e.index < m.exprs.length)) = x.members := by
      refine List.filter_eq_self.2 fun id hid => ?_
      obtain ⟨e, he, -⟩ := (c.members_iff (g := ⟨i⟩) hi id).1 hid
      exact old he.1
    rw [members]
    rfl
  have index : m.index.filter (fun _ e => decide (e.index < m.exprs.length)) = m.index :=
    congrArg Lookup.mk (List.filter_eq_self.2 fun r hr => decide_eq_true (c.index_rows r hr))
  have links : m.links.truncate m.groups.length = m.links := by
    rw [← c.links_size]
    exact m.links.truncate_size
  have producers : m.cteProducers.filter (fun cte _ => !decide (cte ∈ ([] : List CteId))) = m.cteProducers :=
    congrArg Lookup.mk (List.filter_eq_self.2 fun _ _ => by simp)
  unfold rollback mark
  simp only
  rw [groups, index, links, producers, List.take_length]

theorem rollback_addGroup {m : Memo σ κ} {mark : Mark} (hmark : mark.groups ≤ m.groups.length)
    (hsize : m.links.size = m.groups.length) (logical : LogicalProperties) (statistics : σ)
    (ctes : List CteId) :
    (m.addGroup logical statistics).2.rollback mark ctes = m.rollback mark ctes := by
  unfold rollback addGroup
  simp only [List.take_append_of_le_length hmark, m.links.truncate_add (hsize ▸ hmark)]

theorem rollback_addExpr {m : Memo σ κ} {mark : Mark} (hmark : mark.exprs ≤ m.exprs.length) (g : GroupId)
    {key : ExprKey} (hkey : m.index.get? key = none) (ctes : List CteId) :
    (m.addExpr g key).2.rollback mark ctes = m.rollback mark ctes := by
  have new : decide (m.exprs.length < mark.exprs) = false := decide_eq_false (by omega)
  have groups : ((m.groups.modify g.index (fun x => { x with members := x.members ++ [⟨m.exprs.length⟩] })).take
      mark.groups).map (fun x => { x with members := x.members.filter (fun e => decide (e.index < mark.exprs)) }) =
      (m.groups.take mark.groups).map
        (fun x => { x with members := x.members.filter (fun e => decide (e.index < mark.exprs)) }) := by
    rw [List.take_modify, map_modify_of_eq]
    intro x
    simp [new]
  have index : (m.index.set key ⟨m.exprs.length⟩).filter (fun _ e => decide (e.index < mark.exprs)) =
      m.index.filter (fun _ e => decide (e.index < mark.exprs)) := by
    unfold Lookup.filter
    rw [Lookup.rows_set_of_get?_none hkey, List.filter_append]
    simp [new]
  unfold rollback addExpr modifyGroup
  simp only
  rw [groups, index, List.take_append_of_le_length hmark]

theorem rollback_setProducer (m : Memo σ κ) (mark : Mark) {cte : CteId} (g : GroupId)
    (hnew : m.cteProducers.get? cte = none) (ctes : List CteId) :
    ({ m with cteProducers := m.cteProducers.set cte g } : Memo σ κ).rollback mark (ctes ++ [cte]) =
      m.rollback mark ctes := by
  have producers : (m.cteProducers.set cte g).filter (fun c _ => !decide (c ∈ ctes ++ [cte])) =
      m.cteProducers.filter (fun c _ => !decide (c ∈ ctes)) := by
    unfold Lookup.filter
    rw [Lookup.rows_set_of_get?_none hnew, List.filter_append]
    have last : [(cte, g)].filter (fun r => !decide (r.1 ∈ ctes ++ [cte])) = [] := by simp
    rw [last, List.append_nil]
    congr 1
    refine List.filter_congr fun r hr => ?_
    have hne := (m.cteProducers.get?_eq_none_iff cte).1 hnew r hr
    simp [hne]
  unfold rollback
  simp only [producers]

end Cascade.Memo
