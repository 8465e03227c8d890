import Cascade.Proofs.Semantics.Columns
import Cascade.Proofs.Semantics.Conjunction

/-!
The columns of its surroundings that a tree refers to. The rows of a tree depend on the values of these columns and on
the rows of common table expressions, and on nothing else of the place it is evaluated in.
-/

namespace Cascade

variable {s s' : Scope}

/-- What a row does not hide of two bindings has to be equal. -/
theorem Binding.with_congr {b b' : Binding} {r : Row} {columns : ColumnSet} (hr : r.Over columns) {c : ColumnId}
    (h : c ∉ columns → b c = b' c) : b.with r c = b'.with r c := by
  unfold Binding.with
  by_cases hc : c ∈ columns
  · obtain ⟨v, hv⟩ := Option.isSome_iff_exists.1 ((hr c).2 hc)
    rw [hv, Option.getD_some, Option.getD_some]
  · rw [h hc]

theorem JoinType.contribution_congr_condition {type : JoinType} {on on' : Row → Truth} {l : Row} {rs : Multiset Row}
    (h : ∀ r ∈ rs, on (l.merge r) = on' (l.merge r)) (pad : Row) :
    type.contribution on pad l rs = type.contribution on' pad l rs := by
  have hmerged : ∀ t ∈ rs.map l.merge, on t = on' t := fun t ht => by
    obtain ⟨r, hr, rfl⟩ := Multiset.mem_map.1 ht
    exact h r hr
  have hmatched : matched on l rs = matched on' l rs := Multiset.filter_congr fun t ht => by rw [hmerged t ht]
  have hkept : (rs.map l.merge).filter (fun t => on t ≠ some false) =
      (rs.map l.merge).filter (fun t => on' t ≠ some false) := Multiset.filter_congr fun t ht => by rw [hmerged t ht]
  cases type <;> simp only [contribution, hmatched, hkept]

namespace Relation

variable {L R : Relation}

theorem rows_filter_congr (hR : R.rows s = R.rows s') {p : Binding → Bool}
    (hp : ∀ r ∈ R.rows s', p (s.binding.with r) = p (s'.binding.with r)) :
    (R.filter p).rows s = (R.filter p).rows s' := by
  change (R.rows s).filter _ = (R.rows s').filter _
  rw [hR]
  exact Multiset.filter_congr fun r hr => by rw [hp r hr]

theorem rows_compute_congr {α : Type} (hR : R.rows s = R.rows s') {targets : List (ColumnId × α)}
    {value : Binding → α → Value}
    (h : ∀ r ∈ R.rows s', ∀ a ∈ targets, value (s.binding.with r) a.2 = value (s'.binding.with r) a.2) :
    (R.compute targets value).rows s = (R.compute targets value).rows s' := by
  change Multiset.map _ (Multiset.map _ (R.rows s)) = Multiset.map _ (Multiset.map _ (R.rows s'))
  rw [hR]
  exact congrArg _ (Multiset.map_congr rfl fun r hr => List.map_congr_left fun a ha => by rw [h r hr a ha])

theorem rows_group_congr {α : Type} (hR : R.rows s = R.rows s') {groupBy : List ColumnId}
    {targets : List (ColumnId × α)} {value : Binding → Multiset Row → α → Value}
    (hkey : ∀ r ∈ R.rows s', groupKey groupBy (s.binding.with r) = groupKey groupBy (s'.binding.with r))
    (hvalue : ∀ rows ≤ R.rows s', ∀ a ∈ targets, value s.binding rows a.2 = value s'.binding rows a.2) :
    (R.group groupBy targets value).rows s = (R.group groupBy targets value).rows s' := by
  change Multiset.map _ (Multiset.map _ (groupKeys groupBy s.binding (R.rows s))) =
    Multiset.map _ (Multiset.map _ (groupKeys groupBy s'.binding (R.rows s')))
  have hkeys : groupKeys groupBy s.binding (R.rows s') = groupKeys groupBy s'.binding (R.rows s') := by
    unfold groupKeys
    rw [Multiset.map_congr rfl hkey]
  have hmembers : ∀ key, groupMembers groupBy s.binding (R.rows s') key = groupMembers groupBy s'.binding (R.rows s') key :=
    fun key => Multiset.filter_congr fun r hr => by rw [hkey r hr]
  rw [hR, hkeys]
  refine congrArg _ (Multiset.map_congr rfl fun key _ => congrArg (key ++ ·) (List.map_congr_left fun a ha => ?_))
  have hle : groupMembers groupBy s'.binding (R.rows s') key ≤ R.rows s' := Multiset.filter_le _ _
  rw [hmembers, hvalue _ hle a ha]

theorem rows_apply_congr (hL : L.rows s = L.rows s') (type : JoinType) {on : Binding → Truth}
    (hright : ∀ l ∈ L.rows s', R.rows (s.enter l) = R.rows (s'.enter l))
    (hon : ∀ l ∈ L.rows s', ∀ r ∈ R.rows (s'.enter l),
      on (s.binding.with (l.merge r)) = on (s'.binding.with (l.merge r))) :
    (L.apply type on R).rows s = (L.apply type on R).rows s' := by
  change (L.rows s).bind _ = (L.rows s').bind _
  rw [hL]
  refine Multiset.bind_congr fun l hl => ?_
  rw [hright l hl]
  exact JoinType.contribution_congr_condition (hon l hl) _

theorem rows_join_congr (hL : L.rows s = L.rows s') (hR : R.rows s = R.rows s') (type : JoinType)
    {on : Binding → Truth}
    (hon : ∀ l : Row, l.Over L.columns → ∀ r ∈ R.rows s',
      on (s.binding.with (l.merge r)) = on (s'.binding.with (l.merge r))) :
    (L.join type on R).rows s = (L.join type on R).rows s' := by
  simp only [join, hL, hR]
  congr 1
  · exact Multiset.bind_congr fun l hl => JoinType.contribution_congr_condition (hon l (L.rows_over s' l hl)) _
  · have hunmatched : ∀ r ∈ R.rows s',
        ((L.rows s').filter (fun l => on (s.binding.with (l.merge r)) = some true)).card =
          ((L.rows s').filter (fun l => on (s'.binding.with (l.merge r)) = some true)).card :=
      fun r hr => congrArg _ (Multiset.filter_congr fun l hl => by rw [hon l (L.rows_over s' l hl) r hr])
    refine if_congr Iff.rfl (congrArg _ (Multiset.filter_congr fun r hr => ?_)) rfl
    rw [hunmatched r hr]

theorem rows_product_congr {Rs : List Relation} (h : ∀ R ∈ Rs, R.rows s = R.rows s') :
    (product Rs).rows s = (product Rs).rows s' := by
  induction Rs with
  | nil => rfl
  | cons R Rs ih =>
    exact rows_join_congr (h R (List.mem_cons_self ..)) (ih fun R hR => h R (List.mem_cons_of_mem _ hR)) .inner
      fun _ _ _ _ => rfl

end Relation

/-- The rows of common table expressions have the columns they should have. -/
def Scope.Fits (s : Scope) (env : CteId → ColumnSet) : Prop := ∀ cte, ∀ r ∈ s.cte cte, r.Over (env cte)

namespace LogicalOp

/-- The columns an operator mentions, apart from those it takes over place by place. -/
def mentioned : LogicalOp → ColumnSet
  | select e => e.columns
  | project l => Scalar.argColumns (l.map Prod.snd)
  | join _ on | naryJoin on | apply _ on => on.columns
  | aggregate a => a.aggregates.foldl (fun acc x => acc ∪ x.2.columns) (.ofList a.groupBy)
  | _ => ∅

/-- Columns that are taken over place by place are columns of what they are taken from. -/
def Maps (env : CteId → ColumnSet) : LogicalOp → List ColumnSet → Prop
  | unionAll u, inputs => ∀ x ∈ inputs.zip u.inputColumns, ∀ c ∈ x.2, c ∈ x.1
  | dml _ _ columns, inputs => ∀ c ∈ columns, ∃ i ∈ inputs, c ∈ i
  | cteConsumer r, _ => ∀ c ∈ r.producerColumns, c ∈ env r.cte
  | _, _ => True

variable {S : Interpretation} {env : CteId → ColumnSet}

theorem mem_mentioned_project {l : List Assignment} {a : Assignment} (ha : a ∈ l) {c : ColumnId} (hc : c ∈ a.2.columns) :
    c ∈ (project l).mentioned := by
  induction l with
  | nil => cases ha
  | cons b l ih =>
    change c ∈ b.2.columns ∪ Scalar.argColumns (l.map Prod.snd)
    rcases List.mem_cons.1 ha with rfl | ha
    · exact SortedSet.mem_union.2 (.inl hc)
    · exact SortedSet.mem_union.2 (.inr (ih ha))

theorem mem_mentioned_aggregate {a : Aggregation} {c : ColumnId} : c ∈ (aggregate a).mentioned ↔
    c ∈ a.groupBy ∨ ∃ x ∈ a.aggregates, c ∈ x.2.columns := by
  have hfold : ∀ (l : List (ColumnId × AggregateCall)) (acc : ColumnSet),
      c ∈ l.foldl (fun acc x => acc ∪ x.2.columns) acc ↔ c ∈ acc ∨ ∃ x ∈ l, c ∈ x.2.columns := by
    intro l
    induction l with
    | nil => simp
    | cons x l ih =>
      intro acc
      rw [List.foldl_cons, ih, SortedSet.mem_union, List.exists_mem_cons_iff, or_assoc]
  exact (hfold _ _).trans (or_congr_left SortedSet.mem_ofList)

/-- An operator that evaluates its inputs where it stands itself. -/
theorem rows_congr {op : LogicalOp} {Rs : List Relation} (happly : ∀ type on, op ≠ .apply type on)
    (hanchor : ∀ cte, op ≠ .cteAnchor cte) (hrows : ∀ R ∈ Rs, R.rows s = R.rows s')
    (hbinding : ∀ c ∈ op.mentioned, (∀ R ∈ Rs, c ∉ R.columns) → s.binding c = s'.binding c)
    (hmaps : op.Maps env (Rs.map Relation.columns)) (hcte : s.cte = s'.cte) (hfits : s'.Fits env) :
    (op.meaning S Rs).rows s = (op.meaning S Rs).rows s' := by
  unfold LogicalOp.meaning
  split
  case h_1 => rfl
  case h_2 e R =>
    have hR := hrows R (List.mem_singleton.2 rfl)
    refine Relation.rows_filter_congr hR fun r hr => Scalar.holds_congr fun c hc => ?_
    refine Binding.with_congr (R.rows_over s' r hr) fun hcR => hbinding c hc ?_
    exact List.forall_mem_singleton.2 hcR
  case h_3 l R =>
    have hR := hrows R (List.mem_singleton.2 rfl)
    refine Relation.rows_compute_congr hR fun r hr a ha => Scalar.eval_congr fun c hc => ?_
    refine Binding.with_congr (R.rows_over s' r hr) fun hcR => hbinding c (mem_mentioned_project ha hc) ?_
    exact List.forall_mem_singleton.2 hcR
  case h_4 type on L R =>
    refine Relation.rows_join_congr (hrows L (List.mem_cons_self ..))
      (hrows R (List.mem_cons_of_mem _ (List.mem_singleton.2 rfl))) type fun l hl r hr => ?_
    refine congrArg Value.truth (Scalar.eval_congr fun c hc => ?_)
    refine Binding.with_congr (hl.merge (R.rows_over s' r hr)) fun hcLR => hbinding c hc ?_
    refine List.forall_mem_cons.2 ⟨fun h => hcLR (SortedSet.mem_union.2 (.inl h)), List.forall_mem_singleton.2 ?_⟩
    exact fun h => hcLR (SortedSet.mem_union.2 (.inr h))
  case h_5 on =>
    refine Relation.rows_filter_congr (Relation.rows_product_congr hrows) fun r hr => Scalar.holds_congr fun c hc => ?_
    refine Binding.with_congr ((Relation.product _).rows_over s' r hr) fun hcRs => hbinding c hc fun R hR hcR => ?_
    exact hcRs ((Relation.mem_columns_product _ c).2 ⟨_, List.mem_map_of_mem hR, hcR⟩)
  case h_6 a R =>
    have hR := hrows R (List.mem_singleton.2 rfl)
    have hvisible : ∀ {c r}, r ∈ R.rows s' → c ∈ (aggregate a).mentioned →
        s.binding.with r c = s'.binding.with r c := fun {c r} hr hc =>
      Binding.with_congr (R.rows_over s' r hr) fun hcR => hbinding c hc (List.forall_mem_singleton.2 hcR)
    refine Relation.rows_group_congr hR (fun r hr => List.map_congr_left fun c hc => ?_) fun rows hle x hx => ?_
    · rw [hvisible hr (mem_mentioned_aggregate.2 (.inl hc))]
    · refine congrArg _ (Multiset.map_congr rfl fun r hr => Scalar.evalArgs_congr fun c hc => ?_)
      exact hvisible (Multiset.mem_of_le hle hr) (mem_mentioned_aggregate.2 (.inr ⟨x, hx, hc⟩))
  case h_7 l R => exact congrArg (S.limit l) (hrows R (List.mem_singleton.2 rfl))
  case h_8 u =>
    simp only [Relation.concat]
    refine Multiset.bind_congr fun x hx => ?_
    replace hx := Multiset.mem_coe.1 hx
    refine Relation.rows_compute_congr (hrows x.1 (List.of_mem_zip hx).1) fun r hr a _ => ?_
    cases hplace : x.2[a.2]? with
    | none => rfl
    | some c =>
      refine Binding.with_congr (x.1.rows_over s' r hr) fun hc => absurd ?_ hc
      refine hmaps (x.1.columns, x.2) ?_ c (List.mem_of_getElem? hplace)
      rw [List.zip_map_left]
      exact List.mem_map_of_mem hx
  case h_9 => rfl
  case h_10 kind table columns R =>
    have hR := hrows R (List.mem_singleton.2 rfl)
    refine congrArg (fun n => Multiset.replicate n _) (congrArg (S.written kind table) ?_)
    rw [hR]
    refine Multiset.map_congr rfl fun r hr => List.map_congr_left fun c hc => ?_
    obtain ⟨_, hi, hc⟩ := hmaps c hc
    rw [List.map_singleton, List.mem_singleton] at hi
    exact Binding.with_congr (R.rows_over s' r hr) fun hcR => absurd (hi ▸ hc) hcR
  case h_11 type on L R => exact absurd rfl (happly type on)
  case h_12 cte P B => exact absurd rfl (hanchor cte)
  case h_13 read =>
    change Multiset.map _ ((s.cte read.cte).map _) = Multiset.map _ ((s'.cte read.cte).map _)
    rw [hcte]
    refine congrArg _ (Multiset.map_congr rfl fun r hr => List.map_congr_left fun a _ => congrArg (Prod.mk a.1) ?_)
    cases hplace : read.producerColumns[a.2]? with
    | none => rfl
    | some c =>
      exact Binding.with_congr (hfits read.cte r hr) fun hc => absurd (hmaps c (List.mem_of_getElem? hplace)) hc
  case h_14 => rfl

end LogicalOp

namespace Expr

variable (S : Interpretation)

/-- In a tree of logical operators every column that is taken over place by place is there to be taken, given the
columns of common table expressions. -/
inductive Mapped : (CteId → ColumnSet) → Expr → Prop
  | anchor {env : CteId → ColumnSet} {cte : CteId} {producer body : Expr} (hproducer : Mapped env producer)
    (hbody : Mapped (Function.update env cte (producer.meaning S).columns) body) :
    Mapped env (.ofLogical (.cteAnchor cte) [producer, body])
  | operator {env : CteId → ColumnSet} {op : LogicalOp} {inputs : List Expr} (hop : ∀ cte, op ≠ .cteAnchor cte)
    (hmaps : op.Maps env (inputs.map (fun i => (i.meaning S).columns))) (hinputs : ∀ i ∈ inputs, Mapped env i) :
    Mapped env (.ofLogical op inputs)

/-- A tree refers to a column that an operator mentions without having it from an input. The right input of an apply
has the columns of the left one. -/
inductive Refers (c : ColumnId) : Expr → Prop
  | operator {op : LogicalOp} {inputs : List Expr} (hop : c ∈ op.mentioned)
    (hinputs : ∀ i ∈ inputs, c ∉ (i.meaning S).columns) : Refers c (.ofLogical op inputs)
  | input {op : LogicalOp} {inputs : List Expr} {i : Expr} (happly : ∀ type on, op ≠ .apply type on)
    (hi : i ∈ inputs) (h : Refers c i) : Refers c (.ofLogical op inputs)
  | applyLeft {type : ApplyType} {on : Scalar} {l r : Expr} (h : Refers c l) :
    Refers c (.ofLogical (.apply type on) [l, r])
  | applyRight {type : ApplyType} {on : Scalar} {l r : Expr} (h : Refers c r) (hl : c ∉ (l.meaning S).columns) :
    Refers c (.ofLogical (.apply type on) [l, r])

variable {S} {env : CteId → ColumnSet} {e : Expr}

theorem Mapped.rows_congr (hmapped : e.Mapped S env) (hfits : s'.Fits env) (hcte : s.cte = s'.cte)
    (hbinding : ∀ c, e.Refers S c → s.binding c = s'.binding c) : (e.meaning S).rows s = (e.meaning S).rows s' := by
  induction hmapped generalizing s s' with
  | @anchor env cte producer body _ _ ihproducer ihbody =>
    have hproducer := ihproducer hfits hcte fun c hc =>
      hbinding c (.input (fun _ _ => nofun) (List.mem_cons_self ..) hc)
    change (body.meaning S).rows { s with cte := Function.update s.cte cte ((producer.meaning S).rows s) } =
      (body.meaning S).rows { s' with cte := Function.update s'.cte cte ((producer.meaning S).rows s') }
    refine ihbody (fun id r hr => ?_) (by rw [hcte, hproducer]) fun c hc =>
      hbinding c (.input (fun _ _ => nofun) (List.mem_cons_of_mem _ (List.mem_singleton.2 rfl)) hc)
    by_cases hid : id = cte
    · subst hid
      simp only [Function.update_self] at hr ⊢
      exact (producer.meaning S).rows_over s' r hr
    · simp only [Function.update_of_ne hid] at hr ⊢
      exact hfits id r hr
  | @operator env op inputs hop hmaps _ ih =>
    by_cases happly : ∃ type on, op = .apply type on
    · obtain ⟨type, on, rfl⟩ := happly
      match inputs with
      | [l, r] =>
        have hl := ih l (List.mem_cons_self ..) hfits hcte fun c hc => hbinding c (.applyLeft hc)
        rw [meaning_apply]
        refine Relation.rows_apply_congr hl type.joinType (fun row hrow => ?_) fun row hrow t ht => ?_
        · refine ih r (List.mem_cons_of_mem _ (List.mem_singleton.2 rfl)) hfits hcte fun c hc => ?_
          exact Binding.with_congr ((l.meaning S).rows_over s' row hrow) fun hcl => hbinding c (.applyRight hc hcl)
        · refine congrArg Value.truth (Scalar.eval_congr fun c hc => ?_)
          have hmerged := ((l.meaning S).rows_over s' row hrow).merge ((r.meaning S).rows_over _ t ht)
          refine Binding.with_congr hmerged fun hclr => hbinding c (.operator hc (List.forall_mem_cons.2 ⟨?_, ?_⟩))
          · exact fun h => hclr (SortedSet.mem_union.2 (.inl h))
          · exact List.forall_mem_singleton.2 fun h => hclr (SortedSet.mem_union.2 (.inr h))
      | [] | [_] | _ :: _ :: _ :: _ => rfl
    · have happly : ∀ type on, op ≠ .apply type on := fun type on h => happly ⟨type, on, h⟩
      rw [meaning_ofLogical]
      refine LogicalOp.rows_congr happly hop ?_ ?_ (by rwa [List.map_map]) hcte hfits
      · refine List.forall_mem_map.2 fun i hi => ih i hi hfits hcte fun c hc => ?_
        exact hbinding c (.input happly hi hc)
      · exact fun c hc hnone => hbinding c (.operator hc fun i hi => hnone _ (List.mem_map_of_mem hi))

end Expr
end Cascade
