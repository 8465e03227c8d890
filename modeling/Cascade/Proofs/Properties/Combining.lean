import Cascade.Proofs.Properties.Describing

/-!
Derived properties of joins describe their rows. The rows that a join makes for a left row can depend on it, so the
same holds of the joins an apply stands for; a right outer join is a left one turned around.
-/

namespace Cascade

theorem bind_le_of_le_singleton {α : Type} {M : Multiset α} {g : α → Multiset α} (h : ∀ a ∈ M, g a ≤ {a}) :
    M.bind g ≤ M := by
  induction M using Multiset.induction_on with
  | empty => exact le_refl 0
  | cons a M ih =>
    rw [Multiset.cons_bind, ← Multiset.singleton_add]
    refine add_le_add (h a (Multiset.mem_cons_self a M)) (ih fun x hx => h x (Multiset.mem_cons_of_mem hx))

namespace JoinType

variable {on : Row → Truth} {pad a : Row} {rs : Multiset Row}

theorem matched_le (on : Row → Truth) (a : Row) (rs : Multiset Row) : matched on a rs ≤ rs.map a.merge :=
  Multiset.filter_le _ _

theorem contribution_le_singleton {type : JoinType} (htype : type.isSemiOrAnti = true) (on : Row → Truth)
    (pad a : Row) (rs : Multiset Row) : type.contribution on pad a rs ≤ {a} := by
  cases type with
  | leftSemi | leftAntiSemi | leftAntiSemiNotIn =>
    simp only [contribution]
    split
    · first | exact Multiset.zero_le _ | exact le_refl _
    · first | exact le_refl _ | exact Multiset.zero_le _
  | _ => cases htype

theorem exists_match_of_mem_semi {t : Row} (h : t ∈ leftSemi.contribution on pad a rs) :
    t = a ∧ ∃ r ∈ rs, on (a.merge r) = some true := by
  simp only [contribution] at h
  split at h
  · exact absurd h (Multiset.notMem_zero t)
  · rename_i hsome
    obtain ⟨m, hm⟩ := Multiset.card_pos_iff_exists_mem.1 (Nat.pos_of_ne_zero hsome)
    obtain ⟨hm, hon⟩ := Multiset.mem_filter.1 hm
    obtain ⟨r, hr, rfl⟩ := Multiset.mem_map.1 hm
    exact ⟨Multiset.mem_singleton.1 h, r, hr, hon⟩

/-- The rows of an outer join for a left row: some pairs, or the row padded. -/
theorem contribution_leftOuter (on : Row → Truth) (pad a : Row) (rs : Multiset Row) :
    leftOuter.contribution on pad a rs ≤ rs.map a.merge ∨ leftOuter.contribution on pad a rs = {a.merge pad} := by
  simp only [contribution]
  split
  · exact .inr rfl
  · exact .inl (matched_le on a rs)

end JoinType

namespace LogicalProperties

variable {l r : LogicalProperties} {L : Multiset Row} {f : Row → Multiset Row}

/-- What is known of pairs of rows. -/
def pairs (l r : LogicalProperties) : LogicalProperties :=
  { empty with
    output := l.output ∪ r.output
    notNull := l.notNull ∪ r.notNull
    keys := KeySet.combine l.keys r.keys
    maxCardinality := l.maxCardinality.multiply r.maxCardinality
    constraint := l.constraint ∪ r.constraint }

theorem Within.pairs (hl : l.Within) (hr : r.Within) : (pairs l r).Within where
  notNull c hc := SortedSet.mem_union.2 ((SortedSet.mem_union.1 hc).imp (hl.notNull c) (hr.notNull c))
  keys k hk c hc := by
    obtain ⟨kl, hkl, kr, hkr, rfl⟩ := KeySet.mem_combine.1 hk
    exact SortedSet.mem_union.2 ((SortedSet.mem_union.1 hc).imp (hl.keys kl hkl c) (hr.keys kr hkr c))
  constraint e he c hc := SortedSet.mem_union.2
    ((SortedSet.mem_union.1 he).imp (hl.constraint e · c hc) (hr.constraint e · c hc))

namespace Describes

/-- A pair has the right columns of its right row. -/
theorem merge_right (hL : l.Describes L) (hdisjoint : ∀ c ∈ l.output, c ∉ r.output) :
    ∀ a ∈ L, ∀ (x : Row), ∀ c ∈ r.output, a.merge x c = x c := fun a ha x c hc =>
  Row.merge_of_none ((hL.rows_over a ha).eq_none fun h => hdisjoint c h hc) x

theorem keys_merge (hL : l.Describes L) (hr : r.Within) (hdisjoint : ∀ c ∈ l.output, c ∉ r.output)
    (hf : ∀ a ∈ L, r.Describes (f a)) : ∀ a ∈ L, ∀ k ∈ r.keys, DistinctOn k ((f a).map a.merge) := by
  intro a ha k hk
  refine ((hf a ha).keys k hk (hr.keys k hk)).map fun x _ y _ hagree c hc => ?_
  have hout := hr.keys k hk c hc
  rw [← hL.merge_right hdisjoint a ha x c hout, hagree c hc, hL.merge_right hdisjoint a ha y c hout]

theorem pairs (hL : l.Describes L) (hl : l.Within) (hr : r.Within) (hdisjoint : ∀ c ∈ l.output, c ∉ r.output)
    (hf : ∀ a ∈ L, r.Describes (f a)) : (l.pairs r).Describes (L.bind fun a => (f a).map a.merge) := by
  have hleft : ∀ a ∈ L, ∀ t ∈ (f a).map a.merge, ∀ c ∈ l.output, t c = a c := by
    intro a ha t ht c hc
    obtain ⟨x, -, rfl⟩ := Multiset.mem_map.1 ht
    exact Row.merge_left (hL.rows_over a ha) hc x
  have hright := hL.merge_right (r := r) hdisjoint
  constructor
  case rows_over =>
    intro t ht
    obtain ⟨a, ha, ht⟩ := Multiset.mem_bind.1 ht
    obtain ⟨x, hx, rfl⟩ := Multiset.mem_map.1 ht
    exact (hL.rows_over a ha).merge ((hf a ha).rows_over x hx)
  case notNull =>
    intro c hc _ t ht
    rcases SortedSet.mem_union.1 hc with hc | hc
    · exact hL.notNull_bind hl hleft c hc t ht
    · obtain ⟨a, ha, ht⟩ := Multiset.mem_bind.1 ht
      obtain ⟨x, hx, rfl⟩ := Multiset.mem_map.1 ht
      rw [Row.values_congr (hright a ha x c (hr.notNull c hc))]
      exact (hf a ha).notNull c hc (hr.notNull c hc) x hx
  case keys => exact fun k hk _ => hL.keys_bind hl hleft (hL.keys_merge hr hdisjoint hf) k hk
  case maxCardinality =>
    refine hL.maxCardinality.bind fun a ha => ?_
    rw [Multiset.card_map]
    exact (hf a ha).maxCardinality
  case constraint =>
    intro e he _ t ht
    rcases SortedSet.mem_union.1 he with he | he
    · exact hL.constraint_bind hl hleft e he t ht
    · obtain ⟨a, ha, ht⟩ := Multiset.mem_bind.1 ht
      obtain ⟨x, hx, rfl⟩ := Multiset.mem_map.1 ht
      refine ((hf a ha).constraint e he (hr.constraint e he) x hx).congr fun c hc => ?_
      exact (Row.values_congr (hright a ha x c (hr.constraint e he c hc))).symm

variable {F : Functions} {on : Scalar}

theorem inner (hL : l.Describes L) (hl : l.Within) (hr : r.Within) (hdisjoint : ∀ c ∈ l.output, c ∉ r.output)
    (hf : ∀ a ∈ L, r.Describes (f a)) (hcast : ∀ type, F.cast type .null = .null) (b : Binding) :
    ((l.pairs r).restrict on).Describes
      (L.bind fun a => JoinType.matched (fun t => on.truth F (b.with t)) a (f a)) := by
  have hrows : (L.bind fun a => JoinType.matched (fun t => on.truth F (b.with t)) a (f a)) =
      (L.bind fun a => (f a).map a.merge).filter (fun t => on.holds F (b.with t) = true) := by
    rw [Multiset.filter_bind]
    exact Multiset.bind_congr fun a _ => Multiset.filter_congr fun t _ => Scalar.holds_iff.symm
  rw [hrows]
  exact (hL.pairs hl hr hdisjoint hf).filter hcast b

theorem leftOuter (hL : l.Describes L) (hl : l.Within) (hr : r.Within) (hdisjoint : ∀ c ∈ l.output, c ∉ r.output)
    (hf : ∀ a ∈ L, r.Describes (f a)) (test : Row → Truth) :
    (ofOuterJoin l r (l.pairs r)).Describes
      (L.bind fun a => JoinType.leftOuter.contribution test (.nulls r.output) a (f a)) := by
  have hleft : ∀ a ∈ L, ∀ t ∈ JoinType.leftOuter.contribution test (.nulls r.output) a (f a),
      ∀ c ∈ l.output, t c = a c := fun a ha t ht c hc => JoinType.eq_of_mem_contribution ht (hL.rows_over a ha) hc
  constructor
  case rows_over =>
    intro t ht
    obtain ⟨a, ha, ht⟩ := Multiset.mem_bind.1 ht
    exact JoinType.leftOuter.over_contribution test (hL.rows_over a ha) (Row.over_nulls _) (hf a ha).rows_over t ht
  case notNull => exact fun c hc _ => hL.notNull_bind hl hleft c hc
  case keys =>
    refine fun k hk _ => hL.keys_bind hl hleft (fun a ha k hk => ?_) k hk
    rcases JoinType.contribution_leftOuter test (.nulls r.output) a (f a) with hle | hone
    · exact (hL.keys_merge hr hdisjoint hf a ha k hk).of_le hle
    · exact .of_card_le_one (by rw [hone, Multiset.card_singleton]) k
  case maxCardinality =>
    refine hL.maxCardinality.bind fun a ha => (hf a ha).maxCardinality.atLeastOne.mono ?_
    rcases JoinType.contribution_leftOuter test (.nulls r.output) a (f a) with hle | hone
    · exact (Multiset.card_le_card hle).trans (by rw [Multiset.card_map]; exact Nat.le_max_right _ _)
    · exact (congrArg Multiset.card hone).trans_le (Nat.le_max_left _ _)
  case constraint => exact fun e he _ => hL.constraint_bind hl hleft e he

theorem semiOrAnti (hL : l.Describes L) {type : JoinType} (htype : type.isSemiOrAnti = true) (test : Row → Truth)
    (pad : Row) (f : Row → Multiset Row) : l.Describes (L.bind fun a => type.contribution test pad a (f a)) :=
  hL.of_le (bind_le_of_le_singleton fun a _ => JoinType.contribution_le_singleton htype test pad a (f a))

theorem leftSemi (hL : l.Describes L) (hf : ∀ a ∈ L, ∀ x ∈ f a, x.Over r.output)
    (hcast : ∀ type, F.cast type .null = .null) (b : Binding) (pad : Row) :
    (l.restrict on).Describes
      (L.bind fun a => JoinType.leftSemi.contribution (fun t => on.truth F (b.with t)) pad a (f a)) := by
  refine (hL.semiOrAnti rfl _ pad f).restrict hcast fun t ht => ?_
  obtain ⟨a, ha, ht⟩ := Multiset.mem_bind.1 ht
  obtain ⟨rfl, x, hx, hon⟩ := JoinType.exists_match_of_mem_semi ht
  refine ⟨b.with (t.merge x), Scalar.holds_iff.2 hon, fun c hc => ?_⟩
  rw [Binding.with_merge_left (hL.rows_over t ha) (hf t ha x hx) fun h => (SortedSet.mem_diff.1 h).2 hc]
  exact Binding.with_eq_values (hL.rows_over t ha) hc b

end Describes

/-- What a join makes of the left rows, each with right rows of its own. -/
theorem describes_contributions {type : JoinType} (htype : type ≠ .rightOuter) {F : Functions}
    (hcast : ∀ type, F.cast type .null = .null) (on : Scalar) (hL : l.Describes L) (hf : ∀ a ∈ L, r.Describes (f a))
    (hl : l.Within) (hr : r.Within) (hdisjoint : ∀ c ∈ l.output, c ∉ r.output) (b : Binding) :
    (ofJoin type on l r).Describes
      (L.bind fun a => type.contribution (fun t => on.truth F (b.with t)) (.nulls r.output) a (f a)) := by
  cases type with
  | rightOuter => exact absurd rfl htype
  | inner => exact (hL.inner hl hr hdisjoint hf hcast b).congr rfl rfl rfl rfl rfl
  | leftOuter => exact (hL.leftOuter hl hr hdisjoint hf _).congr rfl rfl rfl rfl rfl
  | leftSemi => exact (hL.leftSemi (fun a ha => (hf a ha).rows_over) hcast b _).congr rfl rfl rfl rfl rfl
  | leftAntiSemi | leftAntiSemiNotIn => exact (hL.semiOrAnti rfl _ _ f).congr rfl rfl rfl rfl rfl

end LogicalProperties
end Cascade
