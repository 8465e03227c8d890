import Cascade.Derivation.Logical
import Cascade.Memo.Basic
import Cascade.Proofs.Semantics.Columns

/-!
The scans of a tree, and the partitioned ones among them that its logical properties list.
-/

namespace Cascade

namespace LogicalProperties

variable {x : ScanId × ColumnId}

theorem consumers_ofJoin {type : JoinType} {on : Scalar} {l r : LogicalProperties}
    (h : x ∈ (ofJoin type on l r).partitionConsumers.entries) :
    x ∈ l.partitionConsumers.entries ∨ x ∈ r.partitionConsumers.entries := by
  cases type <;> exact SortedMap.mem_entries_union h

theorem consumers_ofNaryJoin {on : Scalar} {first : LogicalProperties} {others : List LogicalProperties}
    (h : x ∈ (ofNaryJoin on first others).partitionConsumers.entries) :
    ∃ i ∈ first :: others, x ∈ i.partitionConsumers.entries := by
  replace h : x ∈ (others.foldl (ofJoin .inner .true) first).partitionConsumers.entries := h
  induction others generalizing first with
  | nil => exact ⟨first, List.mem_cons_self .., h⟩
  | cons p others ih =>
    obtain ⟨i, hi, hx⟩ := ih h
    rcases List.mem_cons.1 hi with rfl | hi
    · rcases consumers_ofJoin hx with hx | hx
      · exact ⟨first, List.mem_cons_self .., hx⟩
      · exact ⟨p, List.mem_cons_of_mem _ (List.mem_cons_self ..), hx⟩
    · exact ⟨i, List.mem_cons_of_mem _ (List.mem_cons_of_mem _ hi), hx⟩

theorem consumers_gathered {inputs : List LogicalProperties}
    (h : x ∈ (gathered inputs).partitionConsumers.entries) : ∃ i ∈ inputs, x ∈ i.partitionConsumers.entries := by
  unfold gathered at h
  suffices hfold : ∀ acc : LogicalProperties,
      x ∈ (inputs.foldl (fun acc i =>
        { acc with
          maxCardinality := acc.maxCardinality.add i.maxCardinality
          outerRefs := acc.outerRefs ∪ i.outerRefs
          relations := acc.relations ∪ i.relations
          partitionConsumers := acc.partitionConsumers ∪ i.partitionConsumers }) acc).partitionConsumers.entries →
      x ∈ acc.partitionConsumers.entries ∨ ∃ i ∈ inputs, x ∈ i.partitionConsumers.entries by
    exact (hfold _ h).resolve_left List.not_mem_nil
  clear h
  induction inputs with
  | nil => exact fun acc h => .inl h
  | cons p inputs ih =>
    intro acc h
    rcases ih _ h with hx | ⟨i, hi, hx⟩
    · rcases SortedMap.mem_entries_union hx with hx | hx
      · exact .inl hx
      · exact .inr ⟨p, List.mem_cons_self .., hx⟩
    · exact .inr ⟨i, List.mem_cons_of_mem _ hi, hx⟩

end LogicalProperties

open LogicalProperties in
/-- A listed scan is the operator itself or listed by an input. -/
theorem LogicalOp.consumers_rawProperties {c : Catalog} {cs : Columns} {producer : Option LogicalProperties}
    {op : LogicalOp} {inputs : List LogicalProperties} {p : LogicalProperties} {x : ScanId × ColumnId}
    (h : op.rawProperties c cs producer inputs = .ok p) (hx : x ∈ p.partitionConsumers.entries) :
    (∃ g, op = .get g ∧ g.scanId = x.1 ∧ g.partitionColumn = some x.2) ∨
      ∃ i ∈ inputs, x ∈ i.partitionConsumers.entries := by
  unfold rawProperties at h
  split at h
  case h_1 g =>
    obtain ⟨t, -, h⟩ := exists_of_bind_ok h
    obtain ⟨columns, -, h⟩ := exists_of_bind_ok h
    cases h
    have hmem := (SortedMap.mem_entries_insertAll hx).resolve_left List.not_mem_nil
    obtain ⟨key, hkey, rfl⟩ := Option.map_eq_some_iff.1 (Option.mem_toList.1 hmem)
    exact .inl ⟨g, rfl, rfl, hkey⟩
  case h_4 | h_11 =>
    cases h
    right
    rcases consumers_ofJoin hx with hx | hx
    · exact ⟨_, List.mem_cons_self .., hx⟩
    · exact ⟨_, List.mem_cons_of_mem _ (List.mem_cons_self ..), hx⟩
  case h_5 =>
    cases h
    exact .inr (consumers_ofNaryJoin hx)
  case h_8 =>
    unfold ofUnionAll at h
    split at h
    · cases h
    · split at h
      · cases h
      · cases h
        exact .inr (consumers_gathered hx)
  case h_9 =>
    unfold ofValues at h
    split at h
    · cases h
    · cases h
      cases hx
  case h_12 =>
    cases h
    exact .inr ⟨_, List.mem_cons_of_mem _ (List.mem_cons_self ..), hx⟩
  case h_13 =>
    split at h
    · unfold ofCteConsumer at h
      split at h
      · cases h
      · cases h
        cases hx
    · cases h
  case h_14 => cases h
  all_goals
    cases h
    exact .inr ⟨_, List.mem_cons_self .., hx⟩

/-- A scan that the properties of a tree list is in the tree, with the column it is listed with. -/
theorem Expr.exists_get_of_consumer {σ κ : Type} {m : Memo σ κ} {source : PropertySource σ} {c : Catalog}
    {cs : Columns} (hsource : source.logical = LogicalOp.properties c cs) {e : Expr} (hclosed : e.Closed)
    {p : LogicalProperties} (h : m.derive source e = .ok p) {x : ScanId × ColumnId}
    (hx : x ∈ p.partitionConsumers.entries) :
    ∃ g inputs, .ofLogical (.get g) inputs ∈ e.subtrees ∧ g.scanId = x.1 ∧ g.partitionColumn = some x.2 := by
  induction e using Expr.induction generalizing p with
  | group g => exact absurd (List.mem_singleton.2 rfl) (hclosed g)
  | node op inputs ih =>
    obtain ⟨op, ps, _, raw, rfl, hps, hraw, rfl⟩ := exists_of_derive hsource h
    rcases LogicalOp.consumers_rawProperties hraw hx with ⟨g, rfl, hg⟩ | ⟨i, hi, hx⟩
    · exact ⟨g, inputs, (mem_subtrees_node _ inputs).2 (.inl rfl), hg⟩
    · obtain ⟨e, he, hi⟩ := exists_of_mem_right hps hi
      obtain ⟨g, is, hg, hscan⟩ := ih e he (hclosed.of_mem he) hi hx
      exact ⟨g, is, (mem_subtrees_node _ inputs).2 (.inr ⟨e, he, hg⟩), hscan⟩

end Cascade
