import Cascade.Proofs.Memo.Insertion
import Cascade.Proofs.Semantics.Columns

/-!
What a memo derives of a tree that is inserted. A memo a tree is copied into gains groups, expressions and producers
and changes none (`Grows`), so what it derives stays. All along, the properties of a group are those derived of its
expressions (`Derived`), and so the group of the tree has the properties that are derived of the tree.
-/

namespace Cascade

/-- Common table expressions are anchored over what they stand for and read below their anchors, but for those that
are known from outside. -/
inductive Expr.Scoped (producer : CteId → Expr) : List CteId → Expr → Prop
  | anchor {known : List CteId} {cte : CteId} {body : Expr} (hproducer : Scoped producer known (producer cte))
    (hbody : Scoped producer (cte :: known) body) :
    Scoped producer known (.ofLogical (.cteAnchor cte) [producer cte, body])
  | operator {known : List CteId} {op : LogicalOp} {inputs : List Expr} (hop : ∀ cte, op ≠ .cteAnchor cte)
    (hread : ∀ r, op = .cteConsumer r → r.cte ∈ known) (hinputs : ∀ i ∈ inputs, Scoped producer known i) :
    Scoped producer known (.ofLogical op inputs)

/-- What a source answers for a reader of a common table expression without its producer it answers with any. So
the properties of a reader are a function of those of its producer, or do not depend on a producer. -/
def PropertySource.Definite {σ : Type} (source : PropertySource σ) : Prop :=
  ∀ {r ps p}, source.logical (.cteConsumer r) ps none = .ok p →
    ∀ q, source.logical (.cteConsumer r) ps (some q) = .ok p

/-- A reader has no properties without a producer. -/
theorem PropertySource.definite_of_properties {σ : Type} {source : PropertySource σ} {c : Catalog} {cs : Columns}
    (h : source.logical = LogicalOp.properties c cs) : source.Definite := by
  intro r ps p hp
  rw [h] at hp
  cases ps <;> cases hp

namespace Memo

variable {σ κ : Type} {m n o : Memo σ κ} {source : PropertySource σ}

theorem group?_find (m : Memo σ κ) (g : GroupId) : m.group? (m.find g) = m.group? g := by
  unfold group?
  rw [m.find_find]

theorem derive_group_iff {g : GroupId} {p : LogicalProperties} :
    m.derive source (.group g) = .ok p ↔ m.Knows g ∧ (m.group? g).map Group.logical = some p := by
  unfold derive checkedFind
  by_cases hg : g.index < m.groups.length
  · rw [if_pos hg]
    change ((m.group (m.find g)).bind fun x => .ok x.logical) = .ok p ↔ _
    unfold group
    rw [group?_find]
    cases m.group? g with
    | none => simp [Except.bind]
    | some x => simp [Except.bind, Knows, hg]
  · rw [if_neg hg]
    refine ⟨fun h => ?_, fun h => absurd h.1 hg⟩
    cases h

/-- What a definite source answers stands when more producers are known. -/
theorem logical_of_producers (hsource : source.Definite) {op : LogicalOp} {ps : List LogicalProperties}
    {p : LogicalProperties} (hproducers : ∀ q, m.producerProperties? op = some q → n.producerProperties? op = some q)
    (h : source.logical op ps (m.producerProperties? op) = .ok p) :
    source.logical op ps (n.producerProperties? op) = .ok p := by
  cases hm : m.producerProperties? op with
  | some q => rwa [hproducers q hm, ← hm]
  | none =>
    rw [hm] at h
    cases hn : n.producerProperties? op with
    | none => exact h
    | some q =>
      cases op with
      | cteConsumer r => exact hsource h q
      | _ => cases hn

/-- The second memo has all that the first one does, unchanged. -/
structure Grows (m n : Memo σ κ) : Prop extends Extends m n where
  knows : ∀ {g}, m.Knows g → n.Knows g
  producers : ∀ {cte g}, m.cteProducers.get? cte = some g → n.cteProducers.get? cte = some g

namespace Grows

theorem refl (m : Memo σ κ) : Grows m m := ⟨.refl m, id, id⟩

theorem trans (h : Grows m n) (k : Grows n o) : Grows m o :=
  ⟨h.toExtends.trans k.toExtends, fun hg => k.knows (h.knows hg), fun hg => k.producers (h.producers hg)⟩

theorem addGroup (m : Memo σ κ) (logical : LogicalProperties) (statistics : σ) :
    Grows m (m.addGroup logical statistics).2 :=
  ⟨(inherits_addGroup m logical statistics).toExtends, knows_addGroup m logical statistics, id⟩

theorem addExpr (m : Memo σ κ) (g : GroupId) (key : ExprKey) : Grows m (m.addExpr g key).2 where
  toExtends := (inherits_addExpr m g key).toExtends
  knows hg := by
    unfold Knows Memo.addExpr modifyGroup
    rw [List.length_modify]
    exact hg
  producers := id

theorem setProducer {cte : CteId} (hnew : m.cteProducers.get? cte = none) (g : GroupId) :
    Grows m { m with cteProducers := m.cteProducers.set cte g } where
  toExtends := ⟨id, fun hx => ⟨_, hx, rfl⟩, fun he => ⟨_, he, rfl, rfl, rfl⟩, Nat.le_refl _, fun hc _ => hc⟩
  knows := id
  producers {id g'} hg' := by
    rw [Lookup.get?_set, if_neg, hg']
    rintro rfl
    cases hnew.symm.trans hg'

theorem producerProperties? (h : Grows m n) {op : LogicalOp} {q : LogicalProperties}
    (hq : m.producerProperties? op = some q) : n.producerProperties? op = some q := by
  obtain ⟨x, hx, rfl⟩ := Option.map_eq_some_iff.1 hq
  obtain ⟨g, hg, hx⟩ := Option.bind_eq_some_iff.1 hx
  cases op with
  | cteConsumer r =>
    obtain ⟨k, hk, rfl⟩ := Option.map_eq_some_iff.1 hg
    obtain ⟨y, hy, hlogical⟩ := h.groups hx
    have hread : n.producerOf? (.cteConsumer r) = some (n.find k) := congrArg (Option.map n.find) (h.producers hk)
    unfold Memo.producerProperties?
    rw [hread, Option.bind_some, ← h.find (m.find_find k), group?_find, hy, Option.map_some, hlogical]
  | _ => cases hg

variable (hsource : source.Definite)

include hsource

/-- What is derived of a tree stays. -/
theorem derive (h : Grows m n) {e : Expr} {p : LogicalProperties} (hp : m.derive source e = .ok p) :
    n.derive source e = .ok p := by
  induction e using Expr.induction generalizing p with
  | group g =>
    obtain ⟨hg, hp⟩ := derive_group_iff.1 hp
    obtain ⟨x, hx, rfl⟩ := Option.map_eq_some_iff.1 hp
    obtain ⟨y, hy, hlogical⟩ := h.groups hx
    exact derive_group_iff.2 ⟨h.knows hg, Option.map_eq_some_iff.2 ⟨y, hy, hlogical⟩⟩
  | node op inputs ih =>
    cases op with
    | physical op => cases hp
    | logical op =>
      obtain ⟨ps, hps, hp⟩ := Expr.derive_logical_iff.1 hp
      refine Expr.derive_logical_iff.2 ⟨ps, ((List.forall₂_and_left _ _).2 ⟨ih, hps⟩).imp fun _ _ hi => hi.1 hi.2, ?_⟩
      exact logical_of_producers hsource (fun _ => h.producerProperties?) hp

end Grows

/-- The same properties are derived of two expressions. -/
def Agree (m : Memo σ κ) (source : PropertySource σ) (e f : Expr) : Prop :=
  ∃ p, m.derive source e = .ok p ∧ m.derive source f = .ok p

/-- The properties of a group are those of its expressions, and producers are of what they were made producers of. -/
structure Derived (m : Memo σ κ) (source : PropertySource σ) (producer : CteId → Expr) : Prop where
  exprs : ∀ {id e}, m.Live id e → m.Agree source e.toExpr (.group e.group)
  producers : ∀ {cte g}, m.cteProducers.get? cte = some g → m.Agree source (producer cte) (.group g)

theorem Derived.derive_producer {producer : CteId → Expr} (d : m.Derived source producer) {r : CteRead}
    {q : LogicalProperties} (hq : m.producerProperties? (.cteConsumer r) = some q) :
    m.derive source (producer r.cte) = .ok q := by
  obtain ⟨x, hx, rfl⟩ := Option.map_eq_some_iff.1 hq
  obtain ⟨g, hg, hx⟩ := Option.bind_eq_some_iff.1 hx
  obtain ⟨k, hk, rfl⟩ := Option.map_eq_some_iff.1 hg
  obtain ⟨p, hp, hgroup⟩ := d.producers hk
  obtain ⟨-, hlogical⟩ := derive_group_iff.1 hgroup
  rw [group?_find] at hx
  rw [hx] at hlogical
  exact hp.trans (congrArg _ (Option.some.inj hlogical).symm)

theorem derived_empty (source : PropertySource σ) (producer : CteId → Expr) (verify : Bool) (limit : Option Nat) :
    (empty verify limit : Memo σ κ).Derived source producer :=
  ⟨fun h => absurd h not_live_empty, fun h => by cases h⟩

theorem Agree.forall₂ {es fs : List Expr} {ps : List LogicalProperties} (h : List.Forall₂ (m.Agree source) es fs)
    (hps : List.Forall₂ (fun e p => m.derive source e = .ok p) fs ps) :
    List.Forall₂ (fun e p => m.derive source e = .ok p) es ps := by
  induction h generalizing ps with
  | nil => exact hps
  | cons hef _ ih =>
    obtain _ | ⟨hp, hps⟩ := hps
    obtain ⟨q, he, hq⟩ := hef
    exact .cons (he.trans (hq.symm.trans hp)) (ih hps)

theorem Agree.node {es fs : List Expr} (h : List.Forall₂ (m.Agree source) es fs) {op : LogicalOp} {f : Expr}
    (hf : m.Agree source (.ofLogical op fs) f) : m.Agree source (.ofLogical op es) f := by
  obtain ⟨p, hp, hfp⟩ := hf
  obtain ⟨ps, hps, hp⟩ := Expr.derive_logical_iff.1 hp
  exact ⟨p, Expr.derive_logical_iff.2 ⟨ps, Agree.forall₂ h hps, hp⟩, hfp⟩

/-- The properties of a new group are those of its first expression. -/
theorem derive_of_buildProperties {op : LogicalOp} {inputs : List GroupId} (hinputs : ∀ i ∈ inputs, m.Survives i)
    {built : LogicalProperties × σ} (h : m.buildProperties source op inputs = .ok built) :
    m.derive source (.ofLogical op (inputs.map .group)) = .ok built.1 := by
  obtain ⟨estimates, hestimates, h⟩ := exists_of_bind_ok h
  obtain ⟨logical, hlogical, h⟩ := exists_of_bind_ok h
  obtain ⟨statistics, -, h⟩ := exists_of_bind_ok h
  cases h
  refine Expr.derive_logical_iff.2 ⟨estimates.map Prod.fst, ?_, hlogical⟩
  rw [List.forall₂_map_left_iff, List.forall₂_map_right_iff]
  refine ((List.forall₂_and_left _ _).2 ⟨hinputs, forall₂_of_mapM_ok hestimates⟩).imp fun g x hx => ?_
  refine derive_group_iff.2 ⟨hx.1.1, ?_⟩
  have hx := hx.2
  unfold estimate group at hx
  split at hx
  · rename_i y hy
    cases hx
    rw [hy]
    rfl
  · cases hx

section

variable {producer : CteId → Expr} (hsource : source.Definite)

include hsource

theorem Agree.grows {e f : Expr} (h : m.Agree source e f) (k : Grows m n) : n.Agree source e f := by
  obtain ⟨p, he, hf⟩ := h
  exact ⟨p, k.derive hsource he, k.derive hsource hf⟩

/-- A memo that grows by expressions with properties of their groups and by producers of what is produced. -/
theorem Derived.grows (d : m.Derived source producer) (k : Grows m n)
    (hexprs : ∀ {id e}, n.Live id e → m.Live id e ∨ n.Agree source e.toExpr (.group e.group))
    (hproducers : ∀ {cte g}, n.cteProducers.get? cte = some g →
      m.cteProducers.get? cte = some g ∨ n.Agree source (producer cte) (.group g)) : n.Derived source producer where
  exprs he := (hexprs he).elim (fun he => (d.exprs he).grows hsource k) id
  producers hg := (hproducers hg).elim (fun hg => (d.producers hg).grows hsource k) id

/-- An expression over surviving groups is placed in a group with its properties. -/
theorem yields_place_derived {m : Memo σ κ} {s : Insertion σ κ} (a : Copying m s) (d : s.memo.Derived source producer)
    (op : LogicalOp) {inputs : List GroupId} (hinputs : ∀ i ∈ inputs, s.memo.Survives i) :
    Yields (place source none ⟨.logical op, inputs⟩ : InsertM σ κ Placed) s
      (fun placed u => Grows s.memo u.memo ∧ u.memo.Derived source producer ∧
        u.memo.Agree source (.ofLogical op (inputs.map .group)) (.group placed.group)) (fun _ _ => True) := by
  unfold place
  refine .bind_get ?_
  dsimp only
  split
  · -- the expression is known, and its group has its properties
    rename_i known hknown
    refine .bind_lift (fun e he => ?_) (fun _ _ => trivial)
    obtain ⟨e', hlive, hkey⟩ := (a.wellFormed.coherent.index_iff _ known).1 hknown
    obtain rfl := Option.some.inj ((expr_ok he).symm.trans hlive.1)
    refine .of_pure (⟨.refl _, d, ?_⟩ : Grows s.memo s.memo ∧ _)
    obtain ⟨p, hp, hgroup⟩ := d.exprs hlive
    obtain ⟨hk, hx⟩ := derive_group_iff.1 hgroup
    refine ⟨p, ?_, derive_group_iff.2 ⟨knows_find hk, (group?_find ..).symm ▸ hx⟩⟩
    obtain ⟨hop, hin⟩ := ExprKey.mk.inj hkey
    rw [← hin, Expr.ofLogical, ← hop]
    exact hp
  · refine .bind_lift (fun _ _ => ?_) (fun _ _ => trivial)
    unfold chooseGroup
    refine .bind (Q := fun g u => ∃ built, s.memo.buildProperties source op inputs = .ok built ∧
      u = { s with memo := (s.memo.addGroup built.1 built.2).2 } ∧ g = (s.memo.addGroup built.1 built.2).1) ?_ ?_
    · refine .bind_get (.bind_lift (fun built hbuilt => ?_) (fun _ _ => trivial))
      exact .bind_set (.of_pure ⟨built, hbuilt, rfl, rfl⟩)
    · rintro g _ ⟨⟨logical, statistics⟩, hbuilt, rfl, rfl⟩
      have hgroup := Grows.addGroup s.memo logical statistics
      have hexpr := Grows.addExpr (s.memo.addGroup logical statistics).2 (s.memo.addGroup logical statistics).1
        ⟨.logical op, inputs⟩
      have hnew : (s.memo.addGroup logical statistics).2.Agree source (.ofLogical op (inputs.map .group))
          (.group (s.memo.addGroup logical statistics).1) := by
        refine ⟨logical, hgroup.derive hsource (derive_of_buildProperties hinputs hbuilt), ?_⟩
        have hsurvives := survives_new logical statistics a.wellFormed.coherent
        refine derive_group_iff.2 ⟨hsurvives.1, ?_⟩
        unfold group?
        rw [hsurvives.2]
        simp [Memo.addGroup]
      refine .of_modifyGet ⟨hgroup.trans hexpr, ?_, hnew.grows hsource hexpr⟩
      refine d.grows hsource (hgroup.trans hexpr) (fun he => ?_) .inl
      rcases (live_addExpr_iff _ _ _ _ _).1 he with ⟨-, rfl⟩ | he
      · exact .inr (hnew.grows hsource hexpr)
      · exact .inl he

variable (source producer) in
/-- A tree is copied to a group with its properties. -/
def CopiesDerived (e : Expr) : Prop :=
  ∀ {m : Memo σ κ} {s : Insertion σ κ} (depth : Nat), Copying m s → s.memo.Derived source producer →
    Yields (copyIn source none depth e : InsertM σ κ Placed) s
      (fun placed u => Grows s.memo u.memo ∧ u.memo.Derived source producer ∧
        u.memo.Agree source e (.group placed.group)) (fun _ _ => True)

theorem yields_registerProducer_derived {s : Insertion σ κ} (d : s.memo.Derived source producer) (cte : Option CteId)
    {g : GroupId} (hcte : ∀ id, cte = some id → s.memo.Agree source (producer id) (.group g)) :
    Yields (registerProducer cte g : InsertM σ κ Unit) s
      (fun _ u => Grows s.memo u.memo ∧ u.memo.Derived source producer) (fun _ _ => True) := by
  cases cte with
  | none => exact .of_pure ⟨.refl _, d⟩
  | some cte =>
    unfold registerProducer
    refine .of_modify ?_
    split
    · exact ⟨.refl _, d⟩
    · rename_i hnew
      have hnew : s.memo.cteProducers.get? cte = none := by simpa [Lookup.contains] using hnew
      have hgrows := Grows.setProducer hnew g
      refine ⟨hgrows, d.grows hsource hgrows .inl fun {id k} hk => ?_⟩
      rw [Lookup.get?_set] at hk
      split at hk
      · rename_i hid
        cases hk
        exact .inr (hid ▸ (hcte cte rfl).grows hsource hgrows)
      · exact .inl hk

/-- Inputs are copied one after the other, the first one perhaps as a producer. -/
theorem yields_copyInputs_derived {es : List Expr} (hes : ∀ e ∈ es, CopiesDerived (κ := κ) source producer e)
    {cte : Option CteId} (hcte : ∀ id, cte = some id → ∀ e ∈ es.head?, e = producer id) {m : Memo σ κ}
    {s : Insertion σ κ} (depth : Nat) (a : Copying m s) (d : s.memo.Derived source producer) :
    Yields (copyInputs source depth cte es : InsertM σ κ (List GroupId)) s
      (fun groups u => Grows s.memo u.memo ∧ u.memo.Derived source producer ∧
        List.Forall₂ (fun e g => u.memo.Agree source e (.group g)) es groups) (fun _ _ => True) := by
  induction es generalizing s cte with
  | nil =>
    unfold copyInputs
    exact .of_pure ⟨.refl _, d, .nil⟩
  | cons e es ih =>
    unfold copyInputs
    have hfirst := (hes e (List.mem_cons_self ..) depth a d).and
      (Copying.yields_copyIn source m.target_none depth e a)
    refine .bind hfirst ?_
    rintro placed u ⟨⟨hu, du, hplaced⟩, ⟨au, hsurvives⟩⟩
    have hregister := yields_registerProducer_derived hsource du cte fun id hid => hcte id hid e rfl ▸ hplaced
    refine .bind (hregister.and (au.copying.yields_registerProducer cte hsurvives)) ?_
    rintro _ v ⟨⟨hv, dv⟩, av⟩
    refine .bind (ih (fun e he => hes e (List.mem_cons_of_mem _ he)) (fun _ h => by cases h) av.copying dv) ?_
    rintro groups w ⟨hw, dw, hrest⟩
    exact .of_pure ⟨hu.trans (hv.trans hw), dw, .cons (hplaced.grows hsource (hv.trans hw)) hrest⟩

theorem copiesDerived_ofLogical {op : LogicalOp} {inputs : List Expr}
    (hinputs : ∀ e ∈ inputs, CopiesDerived (κ := κ) source producer e)
    (hcte : ∀ id, producedCte? op = some id → ∀ e ∈ inputs.head?, e = producer id) :
    CopiesDerived (κ := κ) source producer (.ofLogical op inputs) := by
  intro m s depth a d
  unfold Expr.ofLogical copyIn
  refine .bind_lift (fun _ _ => ?_) (fun _ _ => trivial)
  refine .bind_lift (fun _ harity => ?_) (fun _ _ => trivial)
  refine .bind ((yields_copyInputs_derived hsource hinputs hcte (depth + 1) a d).and
    (Copying.yields_copyInputs source (depth + 1) (producedCte? op) inputs a)) ?_
  rintro groups u ⟨⟨hu, du, hagree⟩, au, -, hsurvive⟩
  refine (yields_place_derived hsource au.copying du op hsurvive).mono ?_ fun _ _ h => h
  rintro placed v ⟨hv, dv, hplaced⟩
  refine ⟨hu.trans hv, dv, .node ?_ hplaced⟩
  rw [List.forall₂_map_right_iff]
  exact hagree.imp fun _ _ h => h.grows hsource hv

theorem copiesDerived_of_scoped {e : Expr} {known : List CteId} (h : e.Scoped producer known) :
    CopiesDerived (κ := κ) source producer e := by
  induction h with
  | anchor _ _ ihproducer ihbody =>
    refine copiesDerived_ofLogical hsource (fun e he => ?_) fun id hid e he => ?_
    · rcases List.mem_cons.1 he with rfl | he
      · exact ihproducer
      · exact List.mem_singleton.1 he ▸ ihbody
    · cases hid
      cases he
      rfl
  | @operator _ op _ hop _ _ ih =>
    refine copiesDerived_ofLogical hsource ih fun id hid => ?_
    cases op <;> first | exact absurd rfl (hop _) | cases hid

/-- A tree that is inserted gets a group with the properties that are derived of it. -/
theorem agree_of_insert [LT κ] [DecidableLT κ] {e : Expr} {known : List CteId} (he : e.Scoped producer known)
    (w : m.WellFormed) (d : m.Derived source producer) {g : GroupId} (h : m.insert source e = (.ok g, n)) :
    n.Derived source producer ∧ n.Agree source e (.group g) := by
  have hcopy := copiesDerived_of_scoped hsource he 0 (copying_start w) d
  unfold insert at h
  rcases insertAt_cases source e w m.target_none with ⟨err, heq⟩ | ⟨placed, s, n', hrun, heq, hinserted⟩
  · rw [heq] at h
    cases h
  · obtain ⟨-, ds, hagree⟩ := hcopy.of_ok hrun
    rw [insertAt_of_copyIn source e hrun hinserted.merges_eq] at h
    cases h
    have hplaced : s.memo.find placed.group = placed.group := hinserted.placed_survives.2
    exact ⟨ds, hplaced.symm ▸ hagree⟩

end

end Memo
end Cascade
