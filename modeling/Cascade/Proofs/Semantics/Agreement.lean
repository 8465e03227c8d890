import Cascade.Proofs.Semantics.Query

/-!
Relations that have the same rows as far as one column has certain values. Operators that pass the
column on keep the agreement, since a row with such a value only depends on rows with that value.
-/

namespace Cascade

/-- A row has one of the values in a column. -/
def Row.Has (c : ColumnId) (keep : Value → Bool) (r : Row) : Prop := (r c).any keep = true

instance (c : ColumnId) (keep : Value → Bool) (r : Row) : Decidable (r.Has c keep) :=
  inferInstanceAs (Decidable (_ = true))

namespace Row

variable {c : ColumnId} {keep : Value → Bool}

theorem has_congr {r r' : Row} (h : r c = r' c) : r.Has c keep ↔ r'.Has c keep := by
  unfold Has
  rw [h]

theorem not_has_of_null {r : Row} (hnull : keep .null = false) (h : r c = some .null) : ¬ r.Has c keep := by
  unfold Has
  rw [h, Option.any_some, hnull]
  exact Bool.false_ne_true

end Row

/-- Two bags bind to the same wanted results if they have the same elements that can yield one. -/
theorem filter_bind_congr {α β : Type} {M N : Multiset α} {f : α → Multiset β} {p : α → Prop} {q : β → Prop}
    [DecidablePred p] [DecidablePred q] (h : M.filter p = N.filter p)
    (hM : ∀ a ∈ M, ∀ b ∈ f a, q b → p a) (hN : ∀ a ∈ N, ∀ b ∈ f a, q b → p a) :
    (M.bind f).filter q = (N.bind f).filter q := by
  have hdrop : ∀ {L : Multiset α}, (∀ a ∈ L, ∀ b ∈ f a, q b → p a) →
      (L.bind f).filter q = (L.filter p).bind (fun a => (f a).filter q) := by
    intro L hL
    rw [Multiset.filter_bind, Multiset.bind_filter]
    refine Multiset.bind_congr fun a ha => ?_
    split
    · rfl
    · rename_i hp
      exact Multiset.filter_eq_nil.2 fun b hb hq => hp (hL a ha b hb hq)
  rw [hdrop hM, hdrop hN, h]

/-- A column of both relations has the kept values in the same rows. -/
structure Relation.AgreeOn (c : ColumnId) (keep : Value → Bool) (R R' : Relation) : Prop where
  columns : R.columns = R'.columns
  mem : c ∈ R'.columns
  rows : ∀ s, (R.rows s).filter (Row.Has c keep) = (R'.rows s).filter (Row.Has c keep)

namespace Relation.AgreeOn

variable {c : ColumnId} {keep : Value → Bool} {R R' : Relation}

theorem symm (h : AgreeOn c keep R R') : AgreeOn c keep R' R :=
  ⟨h.columns.symm, h.columns ▸ h.mem, fun s => (h.rows s).symm⟩

theorem isSome (h : AgreeOn c keep R R') {s : Scope} {r : Row} (hr : r ∈ R'.rows s) : (r c).isSome = true :=
  (R'.rows_over s r hr c).2 h.mem

theorem filter (h : AgreeOn c keep R R') (p : Binding → Bool) : AgreeOn c keep (R.filter p) (R'.filter p) where
  columns := h.columns
  mem := h.mem
  rows s := by
    simp only [Relation.filter]
    rw [Multiset.filter_comm, h.rows, Multiset.filter_comm]

/-- What is answered for each row agrees as well if it has the value of the column unchanged. -/
theorem filter_bind (h : AgreeOn c keep R R') (s : Scope) {f : Row → Multiset Row}
    (hf : ∀ r v, r c = some v → ∀ t ∈ f r, t c = some v) :
    ((R.rows s).bind f).filter (Row.Has c keep) = ((R'.rows s).bind f).filter (Row.Has c keep) := by
  have hkept : ∀ r, (r c).isSome = true → ∀ t ∈ f r, t.Has c keep → r.Has c keep := by
    intro r hr t ht hkeep
    obtain ⟨v, hv⟩ := Option.isSome_iff_exists.1 hr
    exact (Row.has_congr ((hf r v hv t ht).trans hv.symm)).1 hkeep
  exact filter_bind_congr (h.rows s) (fun r hr => hkept r (h.symm.isSome hr)) (fun r hr => hkept r (h.isSome hr))

theorem compute {α : Type} (h : AgreeOn c keep R R') {targets : List (ColumnId × α)}
    {value : Binding → α → Value} {a : α} (hlookup : targets.lookup c = some a)
    (hvalue : ∀ b, value b a = b c) : AgreeOn c keep (R.compute targets value) (R'.compute targets value) := by
  have hcell : ∀ b, Row.ofPairs (targets.map (fun x => (x.1, value b x.2))) c = some (b c) := by
    intro b
    rw [← hvalue b]
    clear hvalue
    unfold Row.ofPairs
    induction targets with
    | nil => cases hlookup
    | cons x targets ih =>
      rw [List.lookup_cons] at hlookup
      rw [List.map_cons, List.lookup_cons]
      split
      · rename_i hx
        rw [hx] at hlookup
        exact congrArg (fun a => some (value b a)) (Option.some.inj hlookup)
      · rename_i hx
        rw [hx] at hlookup
        exact ih hlookup
  have hmem : c ∈ (R'.compute targets value).columns := by
    refine SortedSet.mem_ofList.2 ?_
    obtain ⟨p, hp, hc⟩ := List.lookup_isSome_iff.1 (Option.isSome_iff_exists.2 ⟨a, hlookup⟩)
    exact List.mem_map.2 ⟨p, hp, (beq_iff_eq.1 hc).symm⟩
  refine ⟨rfl, hmem, fun s => ?_⟩
  have hrows := h.filter_bind s
    (f := fun r => {Row.ofPairs (targets.map (fun x => (x.1, value (s.binding.with r) x.2)))}) (by
      intro r v hv t ht
      rw [Multiset.mem_singleton.1 ht, hcell, Binding.with_of_some hv])
  rw [Multiset.bind_singleton, Multiset.bind_singleton] at hrows
  simpa only [Relation.compute, ofCells, Multiset.map_map, Function.comp_def] using hrows

section Groups

variable {groupBy : List ColumnId} {b : Binding} {M N : Multiset Row}

theorem groupKeys_of_mem (hgroup : c ∈ groupBy) (b : Binding) (M : Multiset Row) :
    groupKeys groupBy b M = (M.map (fun r => groupKey groupBy (b.with r))).dedup := by
  unfold groupKeys
  rw [List.isEmpty_eq_false_iff.2 (List.ne_nil_of_mem hgroup), if_neg Bool.false_ne_true]

theorem has_groupKey (hgroup : c ∈ groupBy) {r : Row} (h : (r c).isSome = true) :
    (Row.ofPairs (groupKey groupBy (b.with r))).Has c keep ↔ r.Has c keep := by
  obtain ⟨v, hv⟩ := Option.isSome_iff_exists.1 h
  refine Row.has_congr ?_
  rw [hv, groupKey, Row.ofPairs_map hgroup, Binding.with_of_some hv]

/-- Bags with the same rows of the kept values have the same groups of such values. -/
theorem filter_groupKeys (hgroup : c ∈ groupBy) (hM : ∀ r ∈ M, (r c).isSome = true)
    (hN : ∀ r ∈ N, (r c).isSome = true) (h : M.filter (Row.Has c keep) = N.filter (Row.Has c keep)) :
    (groupKeys groupBy b M).filter (fun key => (Row.ofPairs key).Has c keep) =
      (groupKeys groupBy b N).filter (fun key => (Row.ofPairs key).Has c keep) := by
  have hkey : ∀ {L : Multiset Row}, (∀ r ∈ L, (r c).isSome = true) → ∀ key,
      (key ∈ groupKeys groupBy b L ∧ (Row.ofPairs key).Has c keep ↔
        ∃ r ∈ L.filter (Row.Has c keep), groupKey groupBy (b.with r) = key) := by
    intro L hL key
    rw [groupKeys_of_mem hgroup, Multiset.mem_dedup, Multiset.mem_map]
    constructor
    · rintro ⟨⟨r, hr, rfl⟩, hkeep⟩
      exact ⟨r, Multiset.mem_filter.2 ⟨hr, (has_groupKey hgroup (hL r hr)).1 hkeep⟩, rfl⟩
    · rintro ⟨r, hr, rfl⟩
      obtain ⟨hr, hkeep⟩ := Multiset.mem_filter.1 hr
      exact ⟨⟨r, hr, rfl⟩, (has_groupKey hgroup (hL r hr)).2 hkeep⟩
  have hnodup : ∀ L : Multiset Row, (groupKeys groupBy b L).Nodup := fun L =>
    groupKeys_of_mem hgroup b L ▸ Multiset.nodup_dedup _
  refine (Multiset.Nodup.ext ((hnodup M).filter _) ((hnodup N).filter _)).2 fun key => ?_
  rw [Multiset.mem_filter, Multiset.mem_filter, hkey hM, hkey hN, h]

/-- The rows of a group of a kept value have that value. -/
theorem groupMembers_congr (hgroup : c ∈ groupBy) (hM : ∀ r ∈ M, (r c).isSome = true)
    (hN : ∀ r ∈ N, (r c).isSome = true) (h : M.filter (Row.Has c keep) = N.filter (Row.Has c keep))
    {key : List (ColumnId × Value)} (hkeep : (Row.ofPairs key).Has c keep) :
    groupMembers groupBy b M key = groupMembers groupBy b N key := by
  have hkept : ∀ {L : Multiset Row}, (∀ r ∈ L, (r c).isSome = true) →
      groupMembers groupBy b L key = groupMembers groupBy b (L.filter (Row.Has c keep)) key := by
    intro L hL
    unfold groupMembers
    rw [Multiset.filter_filter]
    refine Multiset.filter_congr fun r hr => (and_iff_left_of_imp ?_).symm
    rintro rfl
    exact (has_groupKey hgroup (hL r hr)).1 hkeep
  rw [hkept hM, hkept hN, h]

end Groups

theorem group {α : Type} (h : AgreeOn c keep R R') {groupBy : List ColumnId} (hgroup : c ∈ groupBy)
    (targets : List (ColumnId × α)) (value : Binding → Multiset Row → α → Value) :
    AgreeOn c keep (R.group groupBy targets value) (R'.group groupBy targets value) where
  columns := rfl
  mem := SortedSet.mem_ofList.2 (List.mem_append_left _ hgroup)
  rows s := by
    have hrows : ∀ T : Relation, ((T.group groupBy targets value).rows s).filter (Row.Has c keep) =
        ((groupKeys groupBy s.binding (T.rows s)).filter (fun key => (Row.ofPairs key).Has c keep)).map
          (fun key => Row.ofPairs (key ++ targets.map (fun a =>
            (a.1, value s.binding (groupMembers groupBy s.binding (T.rows s) key) a.2)))) := by
      intro T
      simp only [Relation.group, ofCells, Multiset.map_map, Multiset.filter_map, Function.comp_def]
      refine congrArg _ (Multiset.filter_congr fun key hkey => Row.has_congr ?_)
      have hsome : (Row.ofPairs key c).isSome = true := by
        rw [Row.over_ofPairs key c, map_fst_groupKeys hkey]
        exact SortedSet.mem_ofList.2 hgroup
      obtain ⟨v, hv⟩ := Option.isSome_iff_exists.1 hsome
      rw [Row.ofPairs_append, Row.merge_of_some hv, hv]
    have hR : ∀ r ∈ R.rows s, (r c).isSome = true := fun r hr => h.symm.isSome hr
    have hR' : ∀ r ∈ R'.rows s, (r c).isSome = true := fun r hr => h.isSome hr
    rw [hrows, hrows, filter_groupKeys hgroup hR hR' (h.rows s)]
    refine Multiset.map_congr rfl fun key hkey => ?_
    rw [groupMembers_congr hgroup hR hR' (h.rows s) (Multiset.mem_filter.1 hkey).2]

section Joins

variable {type : JoinType} {on : Row → Truth} {pad l : Row}

/-- Rows a left row contributes have its values. -/
theorem apply_contribution {rs : Multiset Row} {v : Value} (hl : l c = some v) :
    ∀ t ∈ type.contribution on pad l rs, t c = some v := by
  have hmatched : ∀ t ∈ JoinType.matched on l rs, t c = some v := by
    intro t ht
    obtain ⟨r, -, rfl⟩ := Multiset.mem_map.1 (Multiset.mem_of_mem_filter ht)
    exact Row.merge_of_some hl r
  intro t ht
  cases type <;> simp only [JoinType.contribution] at ht
  case inner | rightOuter => exact hmatched t ht
  all_goals split at ht
  all_goals first
    | exact hmatched t ht
    | exact absurd ht (Multiset.notMem_zero t)
    | rw [Multiset.mem_singleton.1 ht]
  · exact Row.merge_of_some hl pad
  all_goals exact hl

theorem filter_matched (hl : l c = none) (rs : Multiset Row) :
    (JoinType.matched on l rs).filter (Row.Has c keep) = JoinType.matched on l (rs.filter (Row.Has c keep)) := by
  have hmerge : ∀ r, (l.merge r).Has c keep ↔ r.Has c keep := fun r => Row.has_congr (Row.merge_of_none hl r)
  unfold JoinType.matched
  rw [Multiset.filter_comm, Multiset.filter_map]
  simp only [Function.comp_def, hmerge]

/-- Joins that produce the columns of the right input match a left row with the same kept rows of it; a
padded row has none of the kept values. -/
theorem contribution_filter_eq {rs rs' : Multiset Row} (htype : type.isSemiOrAnti = false)
    (hnull : keep .null = false) (hl : l c = none) (hpad : pad c = some .null)
    (h : rs.filter (Row.Has c keep) = rs'.filter (Row.Has c keep)) :
    (type.contribution on pad l rs).filter (Row.Has c keep) =
      (type.contribution on pad l rs').filter (Row.Has c keep) := by
  have hmatched : (JoinType.matched on l rs).filter (Row.Has c keep) =
      (JoinType.matched on l rs').filter (Row.Has c keep) := by
    rw [filter_matched hl, filter_matched hl, h]
  have houter : ∀ L : Multiset Row, (JoinType.leftOuter.contribution on pad l L).filter (Row.Has c keep) =
      (JoinType.matched on l L).filter (Row.Has c keep) := by
    intro L
    simp only [JoinType.contribution]
    split
    · rename_i hcard
      rw [Multiset.card_eq_zero.1 hcard, Multiset.filter_zero, Multiset.filter_singleton, if_neg]
      · rfl
      · exact Row.not_has_of_null hnull ((Row.merge_of_none hl pad).trans hpad)
    · rfl
  cases type with
  | inner | rightOuter => exact hmatched
  | leftOuter => rw [houter, houter, hmatched]
  | leftSemi | leftAntiSemi | leftAntiSemiNotIn => cases htype

theorem unmatched_filter_eq {left rs rs' : Multiset Row} (hpad : pad c = none)
    (h : rs.filter (Row.Has c keep) = rs'.filter (Row.Has c keep)) :
    (JoinType.unmatched on pad left rs).filter (Row.Has c keep) =
      (JoinType.unmatched on pad left rs').filter (Row.Has c keep) := by
  have hmerge : ∀ r, (pad.merge r).Has c keep ↔ r.Has c keep := fun r => Row.has_congr (Row.merge_of_none hpad r)
  have hrows : ∀ L : Multiset Row, (JoinType.unmatched on pad left L).filter (Row.Has c keep) =
      JoinType.unmatched on pad left (L.filter (Row.Has c keep)) := by
    intro L
    unfold JoinType.unmatched
    rw [Multiset.filter_map, Multiset.filter_comm]
    simp only [Function.comp_def, hmerge]
  rw [hrows, hrows, h]

end Joins

variable {type : JoinType} {T : Relation}

theorem apply_left (h : AgreeOn c keep R R') (on : Binding → Truth) :
    AgreeOn c keep (R.apply type on T) (R'.apply type on T) where
  columns := congrArg (type.columns · T.columns) h.columns
  mem := type.mem_columns_left h.mem _
  rows s := h.filter_bind s (fun _ _ hv => apply_contribution hv)

theorem apply_right (h : AgreeOn c keep R R') (hnull : keep .null = false) (htype : type.isSemiOrAnti = false)
    (hc : c ∉ T.columns) (on : Binding → Truth) : AgreeOn c keep (T.apply type on R) (T.apply type on R') where
  columns := congrArg (type.columns T.columns) h.columns
  mem := JoinType.mem_columns_right htype h.mem _
  rows s := by
    simp only [Relation.apply, Multiset.filter_bind, h.columns]
    refine Multiset.bind_congr fun l hl => ?_
    exact contribution_filter_eq htype hnull ((T.rows_over s l hl).eq_none hc) (Row.nulls_of_mem h.mem) (h.rows _)

theorem join_left (h : AgreeOn c keep R R') (hnull : keep .null = false) (on : Binding → Truth) :
    AgreeOn c keep (R.join type on T) (R'.join type on T) where
  columns := congrArg (type.columns · T.columns) h.columns
  mem := type.mem_columns_left h.mem _
  rows s := by
    have hpadded : ∀ L : Multiset Row,
        (JoinType.unmatched (fun r => on (s.binding.with r)) (.nulls R'.columns) L (T.rows s)).filter
          (Row.Has c keep) = 0 := by
      intro L
      refine Multiset.filter_eq_nil.2 fun t ht => ?_
      obtain ⟨r, -, rfl⟩ := Multiset.mem_map.1 ht
      exact Row.not_has_of_null hnull (Row.merge_of_some (Row.nulls_of_mem h.mem) r)
    simp only [Relation.join, Multiset.filter_add, h.columns]
    rw [h.filter_bind s (fun _ _ hv => apply_contribution hv)]
    split
    · rw [hpadded, hpadded]
    · rfl

theorem join_right (h : AgreeOn c keep R R') (hnull : keep .null = false) (htype : type.isSemiOrAnti = false)
    (hc : c ∉ T.columns) (on : Binding → Truth) : AgreeOn c keep (T.join type on R) (T.join type on R') where
  columns := congrArg (type.columns T.columns) h.columns
  mem := JoinType.mem_columns_right htype h.mem _
  rows s := by
    simp only [Relation.join, Multiset.filter_add, Multiset.filter_bind, h.columns]
    congr 1
    · refine Multiset.bind_congr fun l hl => ?_
      exact contribution_filter_eq htype hnull ((T.rows_over s l hl).eq_none hc) (Row.nulls_of_mem h.mem) (h.rows s)
    · split
      · exact unmatched_filter_eq ((Row.over_nulls _).eq_none hc) (h.rows s)
      · rfl

theorem product {before after : List Relation} (h : AgreeOn c keep R R') (hnull : keep .null = false)
    (hc : ∀ T ∈ before, c ∉ T.columns) :
    AgreeOn c keep (Relation.product (before ++ R :: after)) (Relation.product (before ++ R' :: after)) := by
  induction before with
  | nil => exact h.join_left hnull _
  | cons T before ih =>
    exact (ih fun T' hT' => hc T' (List.mem_cons_of_mem _ hT')).join_right hnull rfl (hc T (List.mem_cons_self ..)) _

theorem concat (h : AgreeOn c keep R R') {output input : List ColumnId} {place : Nat}
    (houtput : output.zipIdx.lookup c = some place) (hinput : input[place]? = some c)
    (before after : List (Relation × List ColumnId)) :
    AgreeOn c keep (.concat output (before ++ (R, input) :: after))
      (.concat output (before ++ (R', input) :: after)) := by
  have hpart : AgreeOn c keep (R.renamed output input) (R'.renamed output input) :=
    h.compute houtput fun b => by rw [hinput, Option.elim_some]
  have hmem : c ∈ SortedSet.ofList output := by
    rw [← columns_renamed R' output input]
    exact hpart.mem
  refine ⟨rfl, hmem, fun s => ?_⟩
  simp only [Relation.concat, ← Multiset.coe_add, ← Multiset.cons_coe, Multiset.add_bind, Multiset.cons_bind,
    Multiset.filter_add, hpart.rows]

theorem anchor (h : AgreeOn c keep R R') (cte : CteId) : AgreeOn c keep (T.anchor cte R) (T.anchor cte R') :=
  ⟨h.columns, h.mem, fun _ => h.rows _⟩

end Relation.AgreeOn
end Cascade
