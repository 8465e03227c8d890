import Cascade.Memo.Insert
import Cascade.Proofs.Properties.Joins
import Cascade.Proofs.Rules.Reordering

/-!
Exploration rules keep the derived properties.
-/

namespace Cascade

open LogicalProperties

/-- Properties that are derived for some operator. -/
def LogicalProperties.Built (p : LogicalProperties) : Prop :=
  ∃ (c : Catalog) (cs : Columns) (op : LogicalOp) (inputs : List LogicalProperties)
    (producer : Option LogicalProperties), op.properties c cs inputs producer = .ok p

theorem LogicalProperties.Built.settled {p : LogicalProperties} (h : p.Built) : p.Settled := by
  obtain ⟨c, cs, op, inputs, producer, h⟩ := h
  obtain ⟨raw, -, rfl⟩ := LogicalOp.exists_of_properties h
  exact settled_completed raw

/-- The properties of an operator follow from those of its inputs alone. -/
def LogicalOp.Direct (op : LogicalOp) : Prop :=
  ∀ c cs producer c' cs' producer' ps, op.rawProperties c cs producer ps = op.rawProperties c' cs' producer' ps

/-- Only what reads a table or a common table expression looks elsewhere. -/
theorem LogicalOp.direct_of_ne {op : LogicalOp} (hget : ∀ g, op ≠ .get g) (hread : ∀ r, op ≠ .cteConsumer r) :
    op.Direct := by
  intro _ _ _ _ _ _ ps
  cases op with
  | get g => exact absurd rfl (hget g)
  | cteConsumer r => exact absurd rfl (hread r)
  | _ => rcases ps with _ | ⟨_, _ | ⟨_, _ | _⟩⟩ <;> rfl

theorem LogicalOp.direct_join (type : JoinType) (on : Scalar) : (LogicalOp.join type on).Direct :=
  direct_of_ne nofun nofun

theorem LogicalOp.direct_select (filter : Scalar) : (LogicalOp.select filter).Direct := direct_of_ne nofun nofun

theorem LogicalOp.direct_project (l : List Assignment) : (LogicalOp.project l).Direct := direct_of_ne nofun nofun

theorem LogicalOp.direct_aggregate (a : Aggregation) : (LogicalOp.aggregate a).Direct := direct_of_ne nofun nofun

/-- An expression whose inputs are in a memo passes the check against a group just if the group has the properties
derived for it. -/
theorem Memo.verifyProperties_iff_of_derive {σ κ : Type} {m m' : Memo σ κ} {source source' : PropertySource σ}
    {c c' : Catalog} {cs cs' : Columns} (hsource : source.logical = LogicalOp.properties c cs)
    (hsource' : source'.logical = LogicalOp.properties c' cs') {op : LogicalOp} (hdirect : op.Direct)
    {inputs : List Expr} {p q : LogicalProperties} (hq : m.derive source (.ofLogical op inputs) = .ok q)
    {groups : List GroupId} {target : GroupId}
    (hgroups : List.Forall₂ (fun i g => (m'.group g).map Group.logical = m.derive source i) inputs groups)
    (htarget : (m'.group target).map Group.logical = .ok p) :
    m'.verifyProperties source' target op groups = .ok () ↔ q = p := by
  obtain ⟨_, ps, _, raw, hop, hps, hraw, rfl⟩ := Expr.exists_of_derive hsource hq
  cases hop
  have hlogical : groups.mapM (fun g => (m'.group g).map Group.logical) = .ok ps := by
    clear hq hraw
    induction hps generalizing groups with
    | nil =>
      cases hgroups
      rfl
    | cons hi _ ih =>
      cases hgroups with
      | cons hg hrest =>
        rw [List.mapM_cons, hg, hi, ih hrest]
        rfl
  rw [Memo.verifyProperties, hlogical]
  change (source'.logical op ps _ >>= _) = _ ↔ _
  rw [hsource', LogicalOp.properties, hdirect _ _ _ _ _ _ ps, hraw]
  change ((m'.group target).map Group.logical >>= _) = _ ↔ _
  rw [htarget]
  change (if raw.completed = p then _ else _) = _ ↔ _
  split
  · rename_i heq
    exact iff_of_true rfl heq
  · rename_i hne
    refine iff_of_false (fun h => ?_) hne
    cases h

/-- An expression whose inputs are in a memo passes the check against a group with the properties derived for it. -/
theorem Memo.verifyProperties_of_derive {σ κ : Type} {m m' : Memo σ κ} {source source' : PropertySource σ}
    {c c' : Catalog} {cs cs' : Columns} (hsource : source.logical = LogicalOp.properties c cs)
    (hsource' : source'.logical = LogicalOp.properties c' cs') {op : LogicalOp} (hdirect : op.Direct)
    {inputs : List Expr} {p : LogicalProperties} (hp : m.derive source (.ofLogical op inputs) = .ok p)
    {groups : List GroupId} {target : GroupId}
    (hgroups : List.Forall₂ (fun i g => (m'.group g).map Group.logical = m.derive source i) inputs groups)
    (htarget : (m'.group target).map Group.logical = .ok p) :
    m'.verifyProperties source' target op groups = .ok () :=
  (verifyProperties_iff_of_derive hsource hsource' hdirect hp hgroups htarget).2 rfl

namespace Expr

variable {σ κ : Type} {m : Memo σ κ} {source : PropertySource σ} {c : Catalog} {cs : Columns} {l r e : Expr}
  {pl pr p : LogicalProperties} {es : List Scalar}

theorem derive_innerJoin (hsource : source.logical = LogicalOp.properties c cs) (hl : m.derive source l = .ok pl)
    (hr : m.derive source r = .ok pr) (hsettled : ∀ i ∈ [pl, pr], i.Settled) (hscans : ScansAgree [pl, pr])
    (on : Scalar) : ∃ p, m.derive source (join .inner on l r) = .ok p ∧ JoinOf p [pl, pr] on.conjuncts :=
  ⟨_, derive_join hsource .inner on hl hr, joinOf_ofJoin_inner hsettled hscans on⟩

section

variable {a b d : Expr} {pa pb pd : LogicalProperties} (hsource : source.logical = LogicalOp.properties c cs)
  (ha : m.derive source a = .ok pa) (hb : m.derive source b = .ok pb) (hd : m.derive source d = .ok pd)
  (hsettled : ∀ i ∈ [pa, pb, pd], i.Settled) (hscans : ScansAgree [pa, pb, pd]) {low : Scalar} (top : Scalar)

include hsource ha hb hd hsettled hscans

/-- A join below on the left, if its condition mentions no column that only the right input has. -/
theorem derive_nestedLeft {pj : LogicalProperties} (hj : m.derive source (join .inner low a b) = .ok pj)
    (hlow : ∀ x ∈ pj.outerRefs, x ∉ pd.output) : ∃ p, m.derive source (join .inner top (join .inner low a b) d) = .ok p ∧
      JoinOf p [pa, pb, pd] (low.conjuncts ++ top.conjuncts) := by
  have hsub : ∀ i ∈ [pa, pb], i ∈ [pa, pb, pd] := fun i hi => List.mem_append_left [pd] hi
  obtain ⟨_, hj', hbelow⟩ := derive_innerJoin hsource ha hb (fun i hi => hsettled i (hsub i hi)) (hscans.mono hsub) low
  cases hj.symm.trans hj'
  have hpair : ∀ i ∈ [pj, pd], i.Settled := List.forall_mem_cons.2 ⟨hbelow.settled, fun i hi =>
    hsettled i (List.mem_append_right [pa, pb] hi)⟩
  have hpairScans : ScansAgree [pj, pd] := hbelow.scansAgree hscans
  obtain ⟨p, hp, htop⟩ := derive_innerJoin hsource hj hd hpair hpairScans top
  refine ⟨p, hp, htop.nest hbelow (fun i hi => hsettled i (hsub i hi)) fun f hf x hx hxp => ?_⟩
  by_contra hnot
  have houter : x ∈ pj.outerRefs := (hbelow.outerRefs x).2 ⟨.inr ⟨f, hf, hx⟩, hnot⟩
  obtain ⟨i, hi, hxi⟩ := (htop.output x).1 hxp
  obtain rfl | hi := List.mem_cons.1 hi
  · exact hnot hxi
  · exact hlow x houter (List.mem_singleton.1 hi ▸ hxi)

/-- A join below on the right, if its condition mentions columns of its inputs only. -/
theorem derive_nestedRight (hlow : ∀ f ∈ low.conjuncts, ∀ x ∈ f.columns, x ∈ pb.output ∪ pd.output) :
    ∃ p, m.derive source (join .inner top a (join .inner low b d)) = .ok p ∧
      JoinOf p [pa, pb, pd] (low.conjuncts ++ top.conjuncts) := by
  have hrotate : ([pb, pd] ++ [pa]).Perm [pa, pb, pd] := List.perm_append_comm
  have hsub : ∀ i ∈ [pb, pd], i ∈ [pa, pb, pd] := fun i hi => List.mem_cons_of_mem _ hi
  obtain ⟨pj, hj, hbelow⟩ := derive_innerJoin hsource hb hd (fun i hi => hsettled i (hsub i hi)) (hscans.mono hsub) low
  have hswap : [pj, pa].Perm [pa, pj] := .swap ..
  have hpairScans : ScansAgree [pj, pa] := hbelow.scansAgree (hscans.mono fun i hi => hrotate.subset hi)
  have hpair : ∀ i ∈ [pa, pj], i.Settled := List.forall_mem_cons.2
    ⟨hsettled pa (List.mem_cons_self ..), List.forall_mem_singleton.2 hbelow.settled⟩
  obtain ⟨p, hp, htop⟩ := derive_innerJoin hsource ha hj hpair (hpairScans.mono fun i hi => hswap.symm.subset hi) top
  have hflat := (htop.congr hswap.symm fun _ => Iff.rfl).nest hbelow (fun i hi => hsettled i (hsub i hi))
    fun f hf x hx _ => by
      have hxj := hlow f hf x hx
      simpa [hbelow.output, SortedSet.mem_union] using hxj
  exact ⟨p, hp, hflat.congr hrotate fun _ => Iff.rfl⟩

end

theorem derive_selectAll (hsource : source.logical = LogicalOp.properties c cs) (h : m.derive source e = .ok p)
    (hp : p.Settled) (hes : ∀ e ∈ es, e.conjuncts = [e]) :
    ∃ p', m.derive source (selectAll es e) = .ok p' ∧ JoinOf p' [p] es := by
  unfold selectAll
  split
  · rename_i hempty
    rw [List.isEmpty_iff.1 hempty]
    exact ⟨p, h, .refl hp⟩
  · refine ⟨_, derive_select hsource _ h, ?_⟩
    have hjoin := joinOf_restrict hp (Scalar.conjunction es)
    rwa [Scalar.conjuncts_conjunction_of_forall hes] at hjoin

/-- The properties of some expressions are settled and agree on the columns that partitioned scans read. -/
structure Fit (m : Memo σ κ) (source : PropertySource σ) (inputs : List Expr) : Prop where
  settled : ∀ i ∈ inputs, ∀ p, m.derive source i = .ok p → p.Settled
  scans : ∀ i ∈ inputs, ∀ j ∈ inputs, ∀ p q, m.derive source i = .ok p → m.derive source j = .ok q →
    p.partitionConsumers.Agrees q.partitionConsumers

namespace Fit

variable {inputs is : List Expr} {ps : List LogicalProperties}

theorem settled_of_forall₂ (h : Fit m source inputs)
    (hps : List.Forall₂ (fun e p => m.derive source e = .ok p) is ps) (hsub : ∀ i ∈ is, i ∈ inputs) :
    ∀ p ∈ ps, p.Settled := by
  intro p hp
  obtain ⟨i, hi, hderive⟩ := exists_of_mem_right hps hp
  exact h.settled i (hsub i hi) p hderive

theorem scansAgree (h : Fit m source inputs) (hps : List.Forall₂ (fun e p => m.derive source e = .ok p) is ps)
    (hsub : ∀ i ∈ is, i ∈ inputs) : ScansAgree ps := by
  intro p hp q hq
  obtain ⟨i, hi, hderive⟩ := exists_of_mem_right hps hp
  obtain ⟨j, hj, hderive'⟩ := exists_of_mem_right hps hq
  exact h.scans i (hsub i hi) j (hsub j hj) p q hderive hderive'

end Fit
end Expr

namespace Rule

variable {σ κ : Type} {ctx : RuleContext σ κ} {columns after : Columns} {e : Expr} {alternatives : List Expr}
  {c : Catalog} {cs : Columns}

/-- A left-deep tree has the properties of one join of everything. -/
theorem LeftDeep.derive (hsource : (ctx.source columns).logical = LogicalOp.properties c cs) {tree x : Expr}
    {own : ColumnSet} {conjuncts : List Scalar} {inputs : List Expr}
    (h : LeftDeep (Produces ctx columns) tree own conjuncts inputs x) {pt : LogicalProperties}
    {ps : List LogicalProperties} (htree : ctx.memo.derive (ctx.source columns) tree = .ok pt) (hown : own = pt.output)
    (hinputs : List.Forall₂ (fun e p => ctx.memo.derive (ctx.source columns) e = .ok p) inputs ps)
    (hsettled : ∀ p ∈ pt :: ps, p.Settled) (hscans : ScansAgree (pt :: ps))
    (hconjuncts : ∀ e ∈ conjuncts, e.conjuncts = [e]) :
    ∃ p, ctx.memo.derive (ctx.source columns) x = .ok p ∧ JoinOf p (pt :: ps) conjuncts := by
  induction h generalizing pt ps with
  | last tree own conjuncts input =>
    obtain ⟨pi, _, hpi, hnil, rfl⟩ := List.forall₂_cons_left_iff.1 hinputs
    obtain rfl := List.forall₂_nil_left_iff.1 hnil
    have hjoin := Expr.derive_innerJoin hsource htree hpi hsettled hscans (Scalar.conjunction conjuncts)
    rwa [Scalar.conjuncts_conjunction_of_forall hconjuncts] at hjoin
  | @step tree input next x own own' conjuncts rest hinput _ ih =>
    obtain ⟨pi, ps, hpi, hrest, rfl⟩ := List.forall₂_cons_left_iff.1 hinputs
    obtain ⟨pi', hpi', rfl⟩ := hinput
    cases hpi.symm.trans hpi'
    have hpair : ∀ i ∈ [pt, pi], i.Settled := fun i hi => hsettled i (List.mem_append_left ps hi)
    have hpairScans : ScansAgree [pt, pi] := hscans.mono fun i hi => List.mem_append_left ps hi
    have hplaced : ∀ e ∈ conjuncts.filter (fun e => e.columns.subset (own ∪ pi.output)), e.conjuncts = [e] :=
      fun e he => hconjuncts e (List.mem_of_mem_filter he)
    obtain ⟨pj, hpj, hjoin⟩ := Expr.derive_innerJoin hsource htree hpi hpair hpairScans
      (Scalar.conjunction (conjuncts.filter (fun e => e.columns.subset (own ∪ pi.output))))
    rw [Scalar.conjuncts_conjunction_of_forall hplaced] at hjoin
    have houtput : own ∪ pi.output = pj.output := SortedSet.ext_mem fun c => by
      simp [hjoin.output, SortedSet.mem_union, hown]
    have hscans' : ScansAgree (pj :: ps) := hjoin.scansAgree hscans
    have hsettled' : ∀ i ∈ pj :: ps, i.Settled := List.forall_mem_cons.2
      ⟨hjoin.settled, fun i hi => hsettled i (List.mem_cons_of_mem _ (List.mem_cons_of_mem _ hi))⟩
    obtain ⟨p, hp, hall⟩ := ih hpj houtput hrest hsettled' hscans'
      fun e he => hconjuncts e (List.mem_of_mem_filter he)
    have hflat := hall.nest hjoin hpair fun e he c hc _ => houtput ▸ SortedSet.subset_iff.1 (List.mem_filter.1 he).2 c hc
    exact ⟨p, hp, hflat.congr (.refl _) fun e => mem_filter_append_filter_not⟩

/-- The conjuncts of a filter have the effect they have above the join where they are placed. -/
theorem Placed.sharpens {type : JoinType} {filter on : Scalar} {parts : FilterParts} {pl pl' pr pr' : LogicalProperties}
    (h : Placed type pl.output pr.output filter parts) (hsl : pl.Settled) (hsr : pr.Settled)
    (hleft : JoinOf pl' [pl] parts.left) (hright : JoinOf pr' [pr] parts.right) :
    Sharpens (ofJoin type (Scalar.conjunction (on.conjuncts ++ parts.join)) pl' pr') (ofJoin type on pl pr)
      (parts.left ++ (parts.right ++ parts.join)) := by
  have hsharpLeft := hleft.sharpens hsl h.left_columns
  have hsharpRight := hright.sharpens hsr h.right_columns
  have hbelowLeft : Sharpens (ofJoin type on pl' pr) (ofJoin type on pl pr) parts.left := by
    by_cases houter : type = .rightOuter
    · rw [h.left_nil houter] at hleft ⊢
      exact hleft.unique (.refl hsl) ▸ .refl _
    · exact hsharpLeft.ofJoin_left houter on pr
  have hbelowRight : Sharpens (ofJoin type on pl' pr') (ofJoin type on pl' pr) parts.right := by
    by_cases hkeeps : type = .inner ∨ type = .rightOuter
    · exact hsharpRight.ofJoin_right hkeeps on pl'
    · obtain ⟨hinner, houter⟩ := not_or.1 hkeeps
      rw [h.right_nil hinner houter] at hright ⊢
      exact hright.unique (.refl hsr) ▸ .refl _
  have hinside : Sharpens (ofJoin type (Scalar.conjunction (on.conjuncts ++ parts.join)) pl' pr')
      (ofJoin type on pl' pr') parts.join := by
    have hconjuncts : (Scalar.conjunction (on.conjuncts ++ parts.join)).conjuncts = on.conjuncts ++ parts.join := by
      refine Scalar.conjuncts_conjunction_of_forall (List.forall_mem_append.2 ⟨fun f => Scalar.conjuncts_of_mem, ?_⟩)
      exact fun f hf => Scalar.conjuncts_of_mem ((h.mem f).2 (.inr (.inr (.inl hf))))
    by_cases hinner : type = .inner
    · subst hinner
      refine .ofJoin_condition hconjuncts ?_
      rw [hsharpLeft.output, hsharpRight.output]
      exact h.join_columns
    · rw [h.join_nil hinner] at hconjuncts ⊢
      rw [ofJoin_congr (hconjuncts.trans (List.append_nil _))]
      exact .refl _
  exact (hinside.trans hbelowRight).trans hbelowLeft

section

variable (hsource : (ctx.source columns).logical = LogicalOp.properties c cs)

include hsource

theorem properties_of_joinCommutativity
    (hrun : (joinCommutativity.transform ctx e).run columns = (.ok alternatives, after))
    (hfit : Expr.Fit ctx.memo (ctx.source columns) ((joinCommutativity : Rule σ κ).pattern.leaves e))
    (hlevels : ∀ l ∈ (joinCommutativity : Rule σ κ).pattern.levels e, l.Uncorrelated ctx.memo (ctx.source columns)) :
    ∀ x ∈ alternatives, ∃ p, ctx.memo.derive (ctx.source columns) x = .ok p ∧
      ctx.memo.derive (ctx.source columns) e = .ok p := by
  intro x hx
  obtain ⟨on, l, r, rfl, rfl⟩ := of_joinCommutativity hrun x hx
  obtain ⟨pl, pr, hl, hr, -⟩ := (hlevels _ (List.mem_cons_self ..)).of_join
  have hps : List.Forall₂ (fun e p => ctx.memo.derive (ctx.source columns) e = .ok p) [l, r] [pl, pr] :=
    .cons hl (.cons hr .nil)
  have hsettled := hfit.settled_of_forall₂ hps fun _ hi => hi
  have hscans := hfit.scansAgree hps fun _ hi => hi
  have hmem : ∀ i ∈ [pr, pl], i ∈ [pl, pr] := fun i hi => (List.Perm.swap pl pr []).subset hi
  obtain ⟨p, hp, hjoin⟩ := Expr.derive_innerJoin hsource hl hr hsettled hscans on
  obtain ⟨q, hq, hswapped⟩ := Expr.derive_innerJoin hsource hr hl (fun i hi => hsettled i (hmem i hi))
    (hscans.mono hmem) on
  cases hjoin.unique (hswapped.congr (.swap ..) fun _ => Iff.rfl)
  exact ⟨p, hq, hp⟩

theorem properties_of_leftJoinToRightJoin
    (hrun : (leftJoinToRightJoin.transform ctx e).run columns = (.ok alternatives, after))
    (hfit : Expr.Fit ctx.memo (ctx.source columns) ((leftJoinToRightJoin : Rule σ κ).pattern.leaves e))
    (hlevels : ∀ l ∈ (leftJoinToRightJoin : Rule σ κ).pattern.levels e,
      l.Uncorrelated ctx.memo (ctx.source columns)) :
    ∀ x ∈ alternatives, ∃ p, ctx.memo.derive (ctx.source columns) x = .ok p ∧
      ctx.memo.derive (ctx.source columns) e = .ok p := by
  intro x hx
  obtain ⟨on, l, r, rfl, rfl⟩ := of_leftJoinToRightJoin hrun x hx
  obtain ⟨pl, pr, hl, hr, -⟩ := (hlevels _ (List.mem_cons_self ..)).of_join
  have hscans : pl.partitionConsumers.Agrees pr.partitionConsumers :=
    hfit.scans l (List.mem_cons_self ..) r (List.mem_cons_of_mem _ (List.mem_singleton.2 rfl)) pl pr hl hr
  refine ⟨_, Expr.derive_join hsource .rightOuter on hr hl, ?_⟩
  rw [ofJoin_swap hscans]
  exact Expr.derive_join hsource .leftOuter on hl hr

theorem properties_of_applyToJoin
    (hrun : (applyToJoin.transform ctx e).run columns = (.ok alternatives, after)) :
    ∀ x ∈ alternatives, ∃ p, ctx.memo.derive (ctx.source columns) x = .ok p ∧
      ctx.memo.derive (ctx.source columns) e = .ok p := by
  intro x hx
  obtain ⟨type, on, l, r, pl, pr, rfl, hl, hr, -, rfl⟩ := of_applyToJoin hrun x hx
  exact ⟨_, Expr.derive_join hsource type.joinType on hl hr,
    Expr.derive_ofLogical hsource (.cons hl (.cons hr .nil)) fun _ => rfl⟩

theorem properties_of_joinAssociativity
    (hrun : (joinAssociativity.transform ctx e).run columns = (.ok alternatives, after))
    (hfit : Expr.Fit ctx.memo (ctx.source columns) ((joinAssociativity : Rule σ κ).pattern.leaves e))
    (hlevels : ∀ l ∈ (joinAssociativity : Rule σ κ).pattern.levels e, l.Uncorrelated ctx.memo (ctx.source columns)) :
    ∀ x ∈ alternatives, ∃ p, ctx.memo.derive (ctx.source columns) x = .ok p ∧
      ctx.memo.derive (ctx.source columns) e = .ok p := by
  intro x hx
  obtain ⟨top, bottom, ea, eb, ec, pb, pc, rfl, hb, hc, rfl⟩ := of_joinAssociativity hrun x hx
  obtain ⟨pab, _, hab, hc', huncorrelated, -⟩ := (hlevels _ (List.mem_cons_self ..)).of_join
  obtain ⟨pa, _, ha, hb', -⟩ := (hlevels _ (List.mem_cons_of_mem _ (List.mem_cons_self ..))).of_join
  cases hb.symm.trans hb'
  cases hc.symm.trans hc'
  have hps : List.Forall₂ (fun e p => ctx.memo.derive (ctx.source columns) e = .ok p) [ea, eb, ec] [pa, pb, pc] :=
    .cons ha (.cons hb (.cons hc .nil))
  have hsettled := hfit.settled_of_forall₂ hps fun _ hi => hi
  have hscans := hfit.scansAgree hps fun _ hi => hi
  obtain ⟨p, hp, hmatched⟩ := Expr.derive_nestedLeft hsource ha hb hc hsettled hscans top hab huncorrelated
  have hatomic : ∀ {q : Scalar → Bool}, ∀ f ∈ (bottom.conjuncts ++ top.conjuncts).filter q, f.conjuncts = [f] :=
    fun f hf => (List.mem_append.1 (List.mem_of_mem_filter hf)).elim Scalar.conjuncts_of_mem Scalar.conjuncts_of_mem
  have hlower : ∀ f ∈ (Scalar.conjunction ((bottom.conjuncts ++ top.conjuncts).filter
      (fun e => e.columns.subset (pb.output ∪ pc.output)))).conjuncts, ∀ x ∈ f.columns, x ∈ pb.output ∪ pc.output := by
    rw [Scalar.conjuncts_conjunction_of_forall hatomic]
    exact fun f hf => SortedSet.subset_iff.1 (List.mem_filter.1 hf).2
  obtain ⟨q, hq, hregrouped⟩ := Expr.derive_nestedRight hsource ha hb hc hsettled hscans
    (Scalar.conjunction ((bottom.conjuncts ++ top.conjuncts).filter
      (fun e => !e.columns.subset (pb.output ∪ pc.output)))) hlower
  rw [Scalar.conjuncts_conjunction_of_forall hatomic, Scalar.conjuncts_conjunction_of_forall hatomic] at hregrouped
  cases hmatched.unique (hregrouped.congr (.refl _) fun _ => mem_filter_append_filter_not)
  exact ⟨p, hq, hp⟩

theorem properties_of_expandNAryJoin
    (hrun : (expandNAryJoin.transform ctx e).run columns = (.ok alternatives, after))
    (hfit : Expr.Fit ctx.memo (ctx.source columns) ((expandNAryJoin : Rule σ κ).pattern.leaves e))
    (hlevels : ∀ l ∈ (expandNAryJoin : Rule σ κ).pattern.levels e, l.Uncorrelated ctx.memo (ctx.source columns)) :
    ∀ x ∈ alternatives, ∃ p, ctx.memo.derive (ctx.source columns) x = .ok p ∧
      ctx.memo.derive (ctx.source columns) e = .ok p := by
  intro x hx
  have hflat : ∀ on first rest, e = .ofLogical (.naryJoin on) (first :: rest) → ∃ p ps q,
      ctx.memo.derive (ctx.source columns) first = .ok p ∧
      List.Forall₂ (fun e p => ctx.memo.derive (ctx.source columns) e = .ok p) rest ps ∧
      (∀ i ∈ p :: ps, i.Settled) ∧ ScansAgree (p :: ps) ∧
      ctx.memo.derive (ctx.source columns) e = .ok q ∧ JoinOf q (p :: ps) on.conjuncts := by
    rintro on first rest rfl
    obtain ⟨_, hps, -⟩ := hlevels _ (List.mem_cons_self ..)
    obtain ⟨p, ps, hp, hrest, rfl⟩ := List.forall₂_cons_left_iff.1 hps
    have hsettled := hfit.settled_of_forall₂ hps fun _ hi => hi
    have hscans := hfit.scansAgree hps fun _ hi => hi
    exact ⟨p, ps, _, hp, hrest, hsettled, hscans, Expr.derive_naryJoin hsource on hp hrest,
      joinOf_ofNaryJoin on hsettled hscans⟩
  have hatomic : ∀ on : Scalar, ∀ f ∈ on.conjuncts, f.conjuncts = [f] := fun _ _ => Scalar.conjuncts_of_mem
  rcases of_expandNAryJoin hrun x hx with ⟨on, only, rfl, rfl⟩ | ⟨on, first, next, rest, p, rfl, hp, htree⟩
  · obtain ⟨p, _, q, hp, hnil, hsettled, -, hq, hjoin⟩ := hflat on only [] rfl
    obtain rfl := List.forall₂_nil_left_iff.1 hnil
    have hselect := joinOf_restrict (hsettled p (List.mem_cons_self ..)) (Scalar.conjunction on.conjuncts)
    rw [Scalar.conjuncts_conjunction_of_forall (hatomic on)] at hselect
    cases hjoin.unique hselect
    exact ⟨_, Expr.derive_select hsource _ hp, hq⟩
  · obtain ⟨_, ps, q, hp', hrest, hsettled, hscans, hq, hjoin⟩ := hflat on first (next :: rest) rfl
    cases hp.symm.trans hp'
    obtain ⟨x', hx', hdeep⟩ := htree.derive hsource hp rfl hrest hsettled hscans (hatomic on)
    cases hjoin.unique hdeep
    exact ⟨_, hx', hq⟩

theorem properties_of_pushSelectIntoJoin
    (hrun : (pushSelectIntoJoin.transform ctx e).run columns = (.ok alternatives, after))
    (hfit : Expr.Fit ctx.memo (ctx.source columns) ((pushSelectIntoJoin : Rule σ κ).pattern.leaves e)) :
    ∀ x ∈ alternatives, ∃ p, ctx.memo.derive (ctx.source columns) x = .ok p ∧
      ctx.memo.derive (ctx.source columns) e = .ok p := by
  intro x hx
  obtain ⟨filter, type, on, left, right, pl, pr, rfl, hl, hr, rfl⟩ := of_pushSelectIntoJoin hrun x hx
  have hplaced := placed_splitFilter type pl.output pr.output filter
  generalize splitFilter type pl.output pr.output filter = parts at hplaced
  have hsl := hfit.settled left (List.mem_cons_self ..) pl hl
  have hsr := hfit.settled right (List.mem_cons_of_mem _ (List.mem_singleton.2 rfl)) pr hr
  have hatomic : ∀ f, f ∈ parts.left ∨ f ∈ parts.right ∨ f ∈ parts.join ∨ f ∈ parts.remaining → f.conjuncts = [f] :=
    fun f hf => Scalar.conjuncts_of_mem ((hplaced.mem f).2 hf)
  obtain ⟨pl', hl', hleft⟩ := Expr.derive_selectAll hsource hl hsl fun f hf => hatomic f (.inl hf)
  obtain ⟨pr', hr', hright⟩ := Expr.derive_selectAll hsource hr hsr fun f hf => hatomic f (.inr (.inl hf))
  have hjoin := Expr.derive_join hsource type (Scalar.conjunction (on.conjuncts ++ parts.join)) hl' hr'
  obtain ⟨p, hp, htop⟩ := Expr.derive_selectAll hsource hjoin (settled_completed _)
    fun f hf => hatomic f (.inr (.inr (.inr hf)))
  have hpushed : JoinOf (ofJoin type (Scalar.conjunction (on.conjuncts ++ parts.join)) pl' pr').completed
      [(ofJoin type on pl pr).completed] (parts.left ++ (parts.right ++ parts.join)) :=
    (hplaced.sharpens hsl hsr hleft hright).completed.joinOf (settled_completed _) (settled_completed _)
  have hselect := joinOf_restrict (settled_completed (ofJoin type on pl pr)) filter
  cases hselect.unique ((htop.trans hpushed (settled_completed _)).congr (.refl _) fun f => by
    simp only [List.mem_append, hplaced.mem, or_assoc])
  exact ⟨_, hp, Expr.derive_select hsource filter (Expr.derive_join hsource type on hl hr)⟩

end

/-- The operators that alternatives start with have properties that follow from those of the inputs. -/
theorem direct_of_mem {rule : Rule σ κ}
    (hrule : rule ∈ [joinCommutativity, joinAssociativity, expandNAryJoin, pushSelectIntoJoin, applyToJoin,
      leftJoinToRightJoin])
    (hrun : (rule.transform ctx e).run columns = (.ok alternatives, after)) :
    ∀ x ∈ alternatives, ∃ op inputs, x = .ofLogical op inputs ∧ op.Direct := by
  intro x hx
  have hjoin : ∀ type on l r, ∃ op inputs, Expr.join type on l r = .ofLogical op inputs ∧ op.Direct :=
    fun type on l r => ⟨_, _, rfl, LogicalOp.direct_join type on⟩
  have hselect : ∀ filter i, ∃ op inputs, Expr.select filter i = .ofLogical op inputs ∧ op.Direct :=
    fun filter i => ⟨_, _, rfl, LogicalOp.direct_select filter⟩
  simp only [List.mem_cons, List.not_mem_nil, or_false] at hrule
  obtain rfl | rfl | rfl | rfl | rfl | rfl := hrule
  · obtain ⟨on, l, r, -, rfl⟩ := of_joinCommutativity hrun x hx
    exact hjoin ..
  · obtain ⟨top, bottom, a, b, d, pb, pd, -, -, -, rfl⟩ := of_joinAssociativity hrun x hx
    exact hjoin ..
  · rcases of_expandNAryJoin hrun x hx with ⟨on, only, -, rfl⟩ | ⟨on, first, next, rest, p, -, -, htree⟩
    · exact hselect ..
    · obtain ⟨on, l, r, rfl⟩ := htree.exists_join
      exact hjoin ..
  · obtain ⟨filter, type, on, left, right, pl, pr, -, -, -, rfl⟩ := of_pushSelectIntoJoin hrun x hx
    unfold Expr.selectAll
    split
    · exact hjoin ..
    · exact hselect ..
  · obtain ⟨type, on, left, right, pl, pr, -, -, -, -, rfl⟩ := of_applyToJoin hrun x hx
    exact hjoin ..
  · obtain ⟨on, l, r, -, rfl⟩ := of_leftJoinToRightJoin hrun x hx
    exact hjoin ..

/-- Every alternative has the properties of the matched expression. Once its inputs are in a memo, the check of
an alternative against the properties of its group succeeds. -/
theorem exploration_preserves_properties {rule : Rule σ κ}
    (hrule : rule ∈ [joinCommutativity, joinAssociativity, expandNAryJoin, pushSelectIntoJoin, applyToJoin,
      leftJoinToRightJoin])
    (hsource : ∀ columns, (ctx.source columns).logical = LogicalOp.properties ctx.catalog columns)
    (hbuilt : ∀ i ∈ rule.pattern.leaves e, ∀ p, ctx.memo.derive (ctx.source columns) i = .ok p → p.Built)
    (hscans : ∀ i ∈ rule.pattern.leaves e, ∀ j ∈ rule.pattern.leaves e, ∀ p q,
      ctx.memo.derive (ctx.source columns) i = .ok p → ctx.memo.derive (ctx.source columns) j = .ok q →
      p.partitionConsumers.Agrees q.partitionConsumers)
    (hlevels : ∀ l ∈ rule.pattern.levels e, l.Uncorrelated ctx.memo (ctx.source columns))
    (hrun : (rule.transform ctx e).run columns = (.ok alternatives, after)) :
    ∀ x ∈ alternatives, ∃ p op inputs, x = .ofLogical op inputs ∧
      ctx.memo.derive (ctx.source columns) x = .ok p ∧ ctx.memo.derive (ctx.source columns) e = .ok p ∧
      ∀ (m : Memo σ κ) (groups : List GroupId) (target : GroupId),
        List.Forall₂ (fun i g => (m.group g).map Group.logical = ctx.memo.derive (ctx.source columns) i) inputs groups →
        (m.group target).map Group.logical = .ok p →
        m.verifyProperties (ctx.source after) target op groups = .ok () := by
  intro x hx
  have hfit : Expr.Fit ctx.memo (ctx.source columns) (rule.pattern.leaves e) :=
    ⟨fun i hi p hp => (hbuilt i hi p hp).settled, hscans⟩
  have hsame : ∃ p, ctx.memo.derive (ctx.source columns) x = .ok p ∧ ctx.memo.derive (ctx.source columns) e = .ok p := by
    simp only [List.mem_cons, List.not_mem_nil, or_false] at hrule
    obtain rfl | rfl | rfl | rfl | rfl | rfl := hrule
    · exact properties_of_joinCommutativity (hsource columns) hrun hfit hlevels x hx
    · exact properties_of_joinAssociativity (hsource columns) hrun hfit hlevels x hx
    · exact properties_of_expandNAryJoin (hsource columns) hrun hfit hlevels x hx
    · exact properties_of_pushSelectIntoJoin (hsource columns) hrun hfit x hx
    · exact properties_of_applyToJoin (hsource columns) hrun x hx
    · exact properties_of_leftJoinToRightJoin (hsource columns) hrun hfit hlevels x hx
  obtain ⟨p, hpx, hpe⟩ := hsame
  obtain ⟨op, inputs, rfl, hdirect⟩ := direct_of_mem hrule hrun x hx
  exact ⟨p, op, inputs, rfl, hpx, hpe, fun m groups target hgroups htarget =>
    Memo.verifyProperties_of_derive (hsource columns) (hsource after) hdirect hpx hgroups htarget⟩

end Rule

section

theorem exploration_preserves_properties_openSales :
    let regrouped : Expr := .join .inner isWanted wantedYear (.join .inner isOpen sales openYears)
    (Rule.joinAssociativity.transform salesContext openSales).run salesColumns = (.ok [regrouped], salesColumns) ∧
      ∃ p, salesContext.memo.derive (salesContext.source salesColumns) regrouped = .ok p ∧
        salesContext.memo.derive (salesContext.source salesColumns) openSales = .ok p := by
  intro regrouped
  have hrun : (Rule.joinAssociativity.transform salesContext openSales).run salesColumns =
      (.ok [regrouped], salesColumns) := rfl
  have hleaves : ∀ i ∈ (Rule.joinAssociativity : Rule Unit Nat).pattern.leaves openSales,
      ∃ p, salesContext.memo.derive (salesContext.source salesColumns) i = .ok p ∧ p.Built ∧
        ∀ x ∈ p.partitionConsumers.entries, x.2 = 2 := by
    refine List.forall_mem_cons.2 ⟨?_, List.forall_mem_cons.2 ⟨?_, List.forall_mem_singleton.2 ?_⟩⟩
    · exact ⟨_, rfl, ⟨salesCatalog, salesColumns, .values ⟨[1], [[.int32 2024]]⟩, [], none, rfl⟩, by decide⟩
    · exact ⟨_, rfl, ⟨salesCatalog, salesColumns, .get ⟨"sale", "sale", [2], 1, some 2⟩, [], none, rfl⟩, by decide⟩
    · exact ⟨_, rfl, ⟨salesCatalog, salesColumns, .values ⟨[3], [[.int32 2024], [.int32 2025]]⟩, [], none, rfl⟩, by decide⟩
  have hderived : ∀ i ∈ (Rule.joinAssociativity : Rule Unit Nat).pattern.leaves openSales, ∀ p,
      salesContext.memo.derive (salesContext.source salesColumns) i = .ok p →
        p.Built ∧ ∀ x ∈ p.partitionConsumers.entries, x.2 = 2 := by
    intro i hi p hp
    obtain ⟨q, hq, h⟩ := hleaves i hi
    cases hp.symm.trans hq
    exact h
  obtain ⟨p, op, inputs, -, hregrouped, hmatched, -⟩ := Rule.exploration_preserves_properties
    (List.mem_cons_of_mem _ (List.mem_cons_self ..)) (fun _ => rfl) (fun i hi p hp => (hderived i hi p hp).1)
    (fun i hi j hj p q hp hq k v w hv hw =>
      ((hderived i hi p hp).2 _ hv).trans ((hderived j hj q hq).2 _ hw).symm)
    uncorrelated_openSales hrun regrouped (List.mem_singleton.2 rfl)
  exact ⟨hrun, p, hregrouped, hmatched⟩

end

end Cascade
